import Mathlib.Data.List.Nodup
import Mathlib.Data.List.Pairwise
import Stimulus.Net

/-!
# Slices of a bus

A slice is given by its two ends and a step. It starts at the second end and goes towards the first
one, upwards or downwards, and it keeps every `step`-th bit on the way. The last bit is the first
end only if the step divides the distance of the two.

Whether a slice goes up or down, its `k`-th bit is `k` steps away from where it starts, so both
directions are treated as one: how far apart the ends are decides how many steps fit between them.

## Main definitions

* `Bus.span`, `Bus.stop`: how far apart the ends are, and where a slice is after some steps.
* `Bus.Selects`: the indices that a slice should have.

## Main results

* `Bus.slice?_eq_ok`: when there is a slice, and what its bits are.
* `Bus.selects_sliceIndices`: the indices of a slice are those that it should have.
* `Bus.slice_selects`: slices, with and without a step, in both directions.
-/

namespace Stimulus.Bus

variable {b : Bus} {hi lo step i j k : Nat} {n : Net} {ns : List Net}

/-! ### Bits and slices that exist -/

/-- The bit at an index exists if and only if the index is below the width. -/
theorem bit?_eq_ok : b.bit? i = .ok n ↔ i < b.width ∧ n = .bit b.name i := by
  unfold bit?
  split
  case isTrue hlt => simp [hlt, eq_comm]
  case isFalse hlt => simp [hlt]

/-- **A slice exists** if and only if there is a step and both ends are bits of the bus. -/
theorem slice?_eq_ok :
    b.slice? hi lo step = .ok ns ↔ (0 < step ∧ hi < b.width ∧ lo < b.width) ∧
      ns = (sliceIndices hi lo step).map (.bit b.name) := by
  unfold slice?
  split
  case isTrue hstep => simp [hstep]
  case isFalse hstep =>
    have hpos : 0 < step := Nat.pos_of_ne_zero hstep
    by_cases hhi : hi < b.width
    · by_cases hlo : lo < b.width
      · simp [bit?, hhi, hlo, hpos, bind, Except.bind, pure, Except.pure, eq_comm]
      · simp [bit?, hhi, hlo, bind, Except.bind]
    · simp [bit?, hhi, bind, Except.bind]

/-! ### Steps between the ends -/

/-- How far apart the ends of a slice are. -/
def span (hi lo : Nat) : Nat :=
  ((hi : Int) - lo).natAbs

/-- The ends are as far apart one way as the other way. -/
theorem span_comm (hi lo : Nat) : span hi lo = span lo hi := by
  unfold span
  omega

/-- Where a slice is after `k` steps: it goes up from `lo` if `hi` is not below, and down if it
is. -/
def stop (hi lo step k : Nat) : Nat :=
  if lo ≤ hi then lo + k * step else lo - k * step

/-- A slice is where it stops, as long as steps fit between its ends. -/
theorem sliceIndices_eq :
    sliceIndices hi lo step = (List.range (span hi lo / step + 1)).map (stop hi lo step) := by
  unfold sliceIndices stop span
  split
  case isTrue hle => rw [show ((hi : Int) - lo).natAbs = hi - lo by omega]
  case isFalse hlt => rw [show ((hi : Int) - lo).natAbs = lo - hi by omega]

/-- Steps that fit between the ends. -/
theorem lt_steps_iff (hstep : 0 < step) : k < span hi lo / step + 1 ↔ k * step ≤ span hi lo := by
  rw [Nat.lt_succ_iff, Nat.le_div_iff_mul_le hstep]

/-- After steps that fit between the ends, a slice has gone as far as they reach. -/
theorem stop_cast (hk : k * step ≤ span hi lo) :
    (stop hi lo step k : Int) = if lo ≤ hi then (lo : Int) + k * step else lo - k * step := by
  unfold stop
  unfold span at hk
  split
  case isTrue hle => push_cast; rfl
  case isFalse hlt =>
    have hle : k * step ≤ lo := by omega
    push_cast [hle]
    rfl

/-- Where a slice stops lies between its ends. -/
theorem stop_mem (hk : k * step ≤ span hi lo) :
    min hi lo ≤ stop hi lo step k ∧ stop hi lo step k ≤ max hi lo := by
  unfold stop
  unfold span at hk
  split <;> omega

/-- More steps lead further. -/
theorem stop_lt_stop (hstep : 0 < step) (hij : i < j) (hj : j * step ≤ span hi lo) :
    if lo ≤ hi then stop hi lo step i < stop hi lo step j
    else stop hi lo step j < stop hi lo step i := by
  have hmul : i * step < j * step := Nat.mul_lt_mul_of_pos_right hij hstep
  unfold stop
  unfold span at hj
  split <;> omega

/-- An index between the ends is where a slice stops if and only if its distance from the start is a
multiple of the step. -/
theorem exists_stop_iff :
    (∃ k, k * step ≤ span hi lo ∧ stop hi lo step k = i) ↔
      min hi lo ≤ i ∧ i ≤ max hi lo ∧ step ∣ span i lo := by
  constructor
  · rintro ⟨k, hk, rfl⟩
    obtain ⟨hmin, hmax⟩ := stop_mem hk
    refine ⟨hmin, hmax, k, ?_⟩
    have hcast := stop_cast hk
    unfold span
    rw [hcast, Nat.mul_comm step k]
    split <;> omega
  · rintro ⟨hmin, hmax, k, hk⟩
    rw [Nat.mul_comm] at hk
    unfold span at hk
    refine ⟨k, ?_, ?_⟩
    · unfold span
      omega
    · unfold stop
      split <;> omega

/-! ### The indices of a slice -/

/-- The indices that a slice should have: every `step`-th one from `lo` towards `hi`, both ends
included. -/
structure Selects (hi lo step : Nat) (indices : List Nat) : Prop where
  length_eq : indices.length = ((hi : Int) - lo).natAbs / step + 1
  getElem_eq : ∀ (k : Nat) (hk : k < indices.length),
    (indices[k] : Int) = if lo ≤ hi then (lo : Int) + k * step else lo - k * step
  bounded : ∀ i ∈ indices, min hi lo ≤ i ∧ i ≤ max hi lo
  monotone : indices.Pairwise fun i j => if lo ≤ hi then i < j else j < i
  complete : ∀ i, min hi lo ≤ i → i ≤ max hi lo → step ∣ ((i : Int) - lo).natAbs → i ∈ indices

/-- What is an index of a slice. -/
theorem mem_sliceIndices (hstep : 0 < step) : i ∈ sliceIndices hi lo step ↔
    min hi lo ≤ i ∧ i ≤ max hi lo ∧ step ∣ span i lo := by
  rw [sliceIndices_eq, List.mem_map, ← exists_stop_iff]
  simp only [List.mem_range, lt_steps_iff hstep]

/-- **The indices of a slice** are those that it should have. -/
theorem selects_sliceIndices (hstep : 0 < step) :
    Selects hi lo step (sliceIndices hi lo step) where
  length_eq := by
    rw [sliceIndices_eq, List.length_map, List.length_range]
    rfl
  getElem_eq k hk := by
    simp only [sliceIndices_eq, List.length_map, List.length_range] at hk
    simp only [sliceIndices_eq, List.getElem_map, List.getElem_range]
    exact stop_cast ((lt_steps_iff hstep).mp hk)
  bounded i hi := by
    obtain ⟨hmin, hmax, -⟩ := (mem_sliceIndices hstep).mp hi
    exact ⟨hmin, hmax⟩
  monotone := by
    rw [sliceIndices_eq, List.pairwise_map]
    refine List.Pairwise.imp_of_mem (fun _ hj hij => ?_) List.pairwise_lt_range
    exact stop_lt_stop hstep hij ((lt_steps_iff hstep).mp (List.mem_range.mp hj))
  complete i hmin hmax hdvd := (mem_sliceIndices hstep).mpr ⟨hmin, hmax, hdvd⟩

/-- The indices of a slice are different. -/
theorem nodup_sliceIndices (hstep : 0 < step) : (sliceIndices hi lo step).Nodup := by
  refine (selects_sliceIndices hstep).monotone.imp fun {i j} hij => ?_
  split at hij <;> omega

/-- A slice with a step is every `step`-th index of the slice without one. -/
theorem getElem?_sliceIndices (hstep : 0 < step) (k : Nat) :
    (sliceIndices hi lo step)[k]? = (sliceIndices hi lo 1)[k * step]? := by
  have hfits : k < span hi lo / step + 1 ↔ k * step < span hi lo / 1 + 1 := by
    rw [lt_steps_iff hstep, Nat.div_one, Nat.lt_succ_iff]
  simp only [sliceIndices_eq, List.getElem?_map]
  by_cases hk : k < span hi lo / step + 1
  · rw [List.getElem?_range hk, List.getElem?_range (hfits.mp hk)]
    simp [stop]
  · rw [List.getElem?_eq_none (by simpa using hk),
      List.getElem?_eq_none (by simpa using mt hfits.mpr hk)]
    rfl

/-- Without a step, a slice from the one end is the slice from the other end backwards. -/
theorem sliceIndices_reverse : (sliceIndices hi lo 1).reverse = sliceIndices lo hi 1 := by
  refine List.ext_getElem (by simp [sliceIndices_eq, span_comm]) fun k h₁ h₂ => ?_
  simp only [sliceIndices_eq, List.length_reverse, List.length_map, List.length_range] at h₁
  simp only [List.getElem_reverse, sliceIndices_eq, List.getElem_map, List.getElem_range,
    List.length_map, List.length_range]
  unfold stop span at *
  split <;> split <;> omega

/-! ### Slices -/

/-- **Slices of a bus.** There is a slice if and only if its step is positive and both ends are bits
of the bus. Its bits are then those with the indices that it should have, no two of them the same.
It is every `step`-th bit of the slice without a step, and the latter is turned round if its ends
are exchanged. -/
theorem slice_selects (b : Bus) (hi lo step : Nat) :
    ((∃ ns, b.slice? hi lo step = .ok ns) ↔ 0 < step ∧ hi < b.width ∧ lo < b.width) ∧
      ∀ ns, b.slice? hi lo step = .ok ns →
        (∃ indices, ns = indices.map (.bit b.name) ∧ Selects hi lo step indices) ∧ ns.Nodup ∧
        (∀ all, b.slice? hi lo 1 = .ok all → ∀ k, ns[k]? = all[k * step]?) ∧
        (step = 1 → b.slice? lo hi step = .ok ns.reverse) := by
  refine ⟨?_, fun ns h => ?_⟩
  · simp only [slice?_eq_ok, exists_and_left, exists_eq, and_true]
  · obtain ⟨⟨hstep, hhi, hlo⟩, rfl⟩ := slice?_eq_ok.mp h
    refine ⟨⟨_, rfl, selects_sliceIndices hstep⟩, ?_, fun all hall k => ?_, ?_⟩
    · refine (nodup_sliceIndices hstep).map fun i j hij => ?_
      injection hij
    · obtain ⟨-, rfl⟩ := slice?_eq_ok.mp hall
      rw [List.getElem?_map, List.getElem?_map, getElem?_sliceIndices hstep]
    · rintro rfl
      rw [← List.map_reverse, sliceIndices_reverse]
      exact slice?_eq_ok.mpr ⟨⟨hstep, hlo, hhi⟩, rfl⟩

/-- Every second bit from bit 5 down to bit 2, which the step does not reach. -/
theorem slice_selects_down :
    let wires : Bus := ⟨"d", 8⟩
    wires.slice? 2 5 2 = .ok [.bit "d" 5, .bit "d" 3] ∧
      (∃ indices, [.bit "d" 5, .bit "d" 3] = indices.map (Net.bit "d") ∧ Selects 2 5 2 indices) ∧
      ∀ all, wires.slice? 2 5 1 = .ok all → all[2]? = some (.bit "d" 3) := by
  intro wires
  have hslice : wires.slice? 2 5 2 = .ok [.bit "d" 5, .bit "d" 3] := by decide
  obtain ⟨hselects, -, hall, -⟩ := (slice_selects wires 2 5 2).2 _ hslice
  exact ⟨hslice, hselects, fun all h => (hall all h 1).symm⟩

end Stimulus.Bus
