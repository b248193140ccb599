import Mathlib.Algebra.BigOperators.Ring.Finset
import Mathlib.Tactic.Ring
import Stimulus.Proofs.Bus.Writing
import Stimulus.Proofs.Handles

/-!
# Integers from levels

The levels on the bits of a bus are put together to an integer by a sum of shifted bits. The lowest
bit is not shifted, and the highest bit of a signed integer is subtracted, which is why it has to
leave a bit of the word of the simulator free. All sums are those of words that wrap around.

So what an expression was split into is put together again: the low bits of its word, extended by
zeros or by copies of the highest one.

## Main definitions

* `bitsToInt`: the number that bits stand for.
* `Interpretation.Words.Gives`: an integer expression that gives a number, up to what wraps around.
* `Bus.Reads`: how a bus that was declared is read.

## Main results

* `exists_joined`: the value of the integer with given levels.
* `joined_of_split`: reading undoes writing.
* `read_word`
-/

namespace Stimulus

open Build Grammar

/-! ### Numbers of bits -/

/-- The number that bits stand for. The highest bit of a signed number counts negative. -/
def bitsToInt (signed : Bool) (width : Nat) (bit : Nat → Bool) : Int :=
  if signed then
    -((bit (width - 1)).toNat * 2 ^ (width - 1) : Int)
      + ∑ i ∈ Finset.range (width - 1), ((bit i).toNat * 2 ^ i : Int)
  else ∑ i ∈ Finset.range width, ((bit i).toNat * 2 ^ i : Int)

/-- What a bit counts at its place. -/
def placeValue (signed : Bool) (width i : Nat) (bit : Bool) : Int :=
  if signed && i + 1 == width then -(bit.toNat * 2 ^ i) else bit.toNat * 2 ^ i

/-- The bits of a number count at their places. -/
theorem sum_placeValue (signed : Bool) {width : Nat} (hwidth : width ≠ 0) (bit : Nat → Bool) :
    ∑ i ∈ Finset.range width, placeValue signed width i (bit i) = bitsToInt signed width bit := by
  cases signed with
  | false => rfl
  | true =>
      obtain ⟨n, rfl⟩ := Nat.exists_eq_succ_of_ne_zero hwidth
      have hlower : ∀ i ∈ Finset.range n, placeValue true (n + 1) i (bit i)
          = (bit i).toNat * 2 ^ i := by
        intro i hi
        have hne : i ≠ n := (Finset.mem_range.mp hi).ne
        simp [placeValue, hne]
      rw [Finset.sum_range_succ, Finset.sum_congr rfl hlower]
      simp [placeValue, bitsToInt, add_comm]

section Bits

variable {n width : Nat} (x : BitVec n)

/-- The low bits of a word. -/
theorem sum_getLsbD (width : Nat) :
    ∑ i ∈ Finset.range width, (x.getLsbD i).toNat * 2 ^ i = x.toNat % 2 ^ width := by
  induction width with
  | zero => simp [Nat.mod_one]
  | succ width ih =>
      rw [Finset.sum_range_succ, ih, Nat.pow_succ, Nat.mod_mul, BitVec.getLsbD,
        Nat.toNat_testBit, Nat.mul_comm]

/-- The low bits of a word as a number. -/
theorem bitsToInt_getLsbD (signed : Bool) (hwidth : width ≠ 0) :
    bitsToInt signed width x.getLsbD
      = if signed then (x.setWidth width).toInt else (x.setWidth width).toNat := by
  have hsum (w : Nat) : ∑ i ∈ Finset.range w, ((x.getLsbD i).toNat * 2 ^ i : Int)
      = (x.toNat % 2 ^ w : Nat) := by
    rw [← sum_getLsbD]
    push_cast
    rfl
  cases signed with
  | false =>
      rw [bitsToInt, if_neg (by decide), if_neg (by decide), hsum, BitVec.toNat_setWidth]
  | true =>
      obtain ⟨k, rfl⟩ := Nat.exists_eq_succ_of_ne_zero hwidth
      have hmsb : (x.setWidth (k + 1)).msb = x.getLsbD k := by simp [BitVec.msb_setWidth]
      have hnat : (x.setWidth (k + 1)).toNat
          = (x.getLsbD k).toNat * 2 ^ k + x.toNat % 2 ^ k := by
        rw [BitVec.toNat_setWidth, ← sum_getLsbD, ← sum_getLsbD, Finset.sum_range_succ, add_comm]
      rw [bitsToInt, if_pos rfl, if_pos rfl, hsum, BitVec.toInt_eq_msb_cond, hmsb, hnat,
        Nat.succ_sub_one]
      cases x.getLsbD k
      · simp
      · simp [pow_succ]
        ring

end Bits

/-! ### Sums of words -/

namespace Interpretation.Words

variable {g : Strengths} {I : Interpretation} (W : I.Words)

/-- An integer expression that gives a number, up to what wraps around. -/
def Gives (g : Strengths) (e : Expr .integer) (n : Int) : Prop :=
  ∃ x, e.HasValue g I (.integer x) ∧ W.word x = BitVec.ofInt wordBits n

variable {W}

/-- A sum. -/
theorem Gives.add {a b : Expr .integer} {m n : Int} (ha : W.Gives g a m) (hb : W.Gives g b n) :
    W.Gives g (.arith .add rfl a b) (m + n) := by
  obtain ⟨x, hx, hxm⟩ := ha
  obtain ⟨y, hy, hyn⟩ := hb
  exact ⟨_, hx.arith .add hy, by rw [W.word_add, hxm, hyn, BitVec.ofInt_add]⟩

/-- The sum of several expressions. -/
theorem Gives.sum {term : Expr .integer} {rest : List (Expr .integer)} {n : Nat → Int}
    (hterm : W.Gives g term (n 0))
    (hrest : ∀ i e, rest[i]? = some e → W.Gives g e (n (i + 1))) :
    W.Gives g (rest.foldl (.arith .add rfl) term)
      (∑ i ∈ Finset.range (rest.length + 1), n i) := by
  induction rest using List.reverseRecOn with
  | nil => simpa using hterm
  | append_singleton rest last ih =>
      rw [List.foldl_append, List.length_append, List.length_singleton, Finset.sum_range_succ]
      have hinit : ∀ i e, rest[i]? = some e → W.Gives g e (n (i + 1)) := fun i e he =>
        hrest i e (by rw [List.getElem?_append_left (List.getElem?_eq_some_iff.mp he).1, he])
      exact (ih hinit).add (hrest rest.length last (by simp))

/-- A level at its place. -/
theorem gives_levelTerm {level : Expr .bool} {bit : Bool} {i : Nat} (signed : Bool) (width : Nat)
    (hlevel : level.HasValue g I (.integer (I.bit bit))) (hi : i < wordBits) :
    W.Gives g (levelTerm signed width level i) (placeValue signed width i bit) := by
  have hbit : W.Gives g
      (if i = 0 then level.ofBool else .arith .shl rfl level.ofBool (.integer i))
      (bit.toNat * 2 ^ i) := by
    split
    case isTrue h =>
      subst h
      refine ⟨_, hlevel.ofBool, ?_⟩
      rw [Interpretation.bit, W.word_natural, pow_zero, mul_one, BitVec.ofInt_natCast]
    case isFalse h =>
      refine ⟨_, hlevel.ofBool.arith .shl (.integer i), ?_⟩
      have hindex : (W.word (I.integer i)).toNat = i := W.toNat_word_natural hi
      have hcast : (bit.toNat * 2 ^ i : Int) = (bit.toNat * 2 ^ i : Nat) := by push_cast; rfl
      rw [W.word_shl, BitVec.shiftLeft_eq', hindex, Interpretation.bit, W.word_natural, hcast,
        BitVec.ofInt_natCast]
      apply BitVec.eq_of_toNat_eq
      simp [Nat.shiftLeft_eq]
  by_cases hsign : (signed && i + 1 == width) = true
  · obtain ⟨x, hx, hword⟩ := hbit
    rw [levelTerm, placeValue, if_pos hsign, if_pos hsign]
    exact ⟨_, hx.neg, by rw [W.word_neg, hword, BitVec.ofInt_neg]⟩
  · rw [levelTerm, placeValue, if_neg hsign, if_neg hsign]
    exact hbit

end Interpretation.Words

/-! ### Joining levels -/

/-- The number of bits that can be read. -/
def readLimit (signed : Bool) : Nat :=
  if signed then 31 else 32

section Joining

variable {g : Strengths} {I : Interpretation} {levels : List (Expr .bool)}

/-- More levels than can be read are refused. -/
theorem joinLevels?_error {signed : Bool} (h : readLimit signed < levels.length) :
    joinLevels? signed levels
      = .error (.outOfRange (.wideRead levels.length signed (readLimit signed))) := by
  cases signed <;> exact if_pos h

/-- **The integer with given levels** is the number that their bits stand for. -/
theorem exists_joined {signed : Bool} (hlevels : levels ≠ [])
    (hwidth : levels.length ≤ readLimit signed) :
    ∃ e, joinLevels? signed levels = .ok e ∧
      ∀ (g : Strengths) (I : Interpretation) (W : I.Words) (bit : Nat → Bool),
        (∀ i (level : Expr .bool), levels[i]? = some level →
          level.HasValue g I (.integer (I.bit (bit i)))) →
        W.Gives g e (bitsToInt signed levels.length bit) := by
  have hlength : levels.length ≠ 0 := fun h => hlevels (List.length_eq_zero_iff.mp h)
  have hjoin : joinLevels? signed levels = _ := if_neg (by cases signed <;> exact hwidth.not_gt)
  split at hjoin
  case h_1 hterms => exact absurd hterms (by simpa using hlevels)
  case h_2 term rest hterms =>
    refine ⟨rest.foldl (.arith .add rfl) term, hjoin, fun g I W bit hbits => ?_⟩
    have hcount : rest.length + 1 = levels.length := by
      simpa using (congrArg List.length hterms).symm
    have hgives : ∀ i e, (term :: rest)[i]? = some e →
        W.Gives g e (placeValue signed levels.length i (bit i)) := by
      intro i e he
      rw [← hterms, List.getElem?_map, List.getElem?_zipIdx] at he
      obtain ⟨_, hindexed, rfl⟩ := Option.map_eq_some_iff.mp he
      obtain ⟨level, hlevel, rfl⟩ := Option.map_eq_some_iff.mp hindexed
      dsimp only
      rw [Nat.zero_add]
      have hi : i < levels.length := (List.getElem?_eq_some_iff.mp hlevel).1
      have hlimit : readLimit signed ≤ wordBits := by cases signed <;> decide
      exact W.gives_levelTerm signed _ (hbits i level hlevel) (by omega)
    have hsum := Interpretation.Words.Gives.sum
      (n := fun i => placeValue signed levels.length i (bit i)) (hgives 0 term rfl)
      fun i e he => hgives (i + 1) e he
    rwa [hcount, sum_placeValue signed hlength] at hsum

/-- **Reading undoes writing.** The integer that is put together from what an expression was split
into has the low bits of its word, extended by zeros or by copies of the highest of them. -/
theorem joined_of_split (signed : Bool) (e : Expr .integer) {width : Nat} (hwidth : width ≠ 0)
    (hlimit : width ≤ readLimit signed) :
    ∃ levels r, (BusWord.expr e).levels? width = .ok levels ∧
      joinLevels? signed levels = .ok r ∧
      ∀ (g : Strengths) (I : Interpretation) (W : I.Words) (x : I.Integer),
        e.HasValue g I (.integer x) → ∃ y, r.HasValue g I (.integer y) ∧
          W.word y = if signed then ((W.word x).setWidth width).signExtend 32
            else ((W.word x).setWidth width).setWidth 32 := by
  have hfits : width ≤ wordBits := hlimit.trans (by cases signed <;> decide)
  have hlength : ((List.range width).map fun (i : Nat) => e.bit (.integer i)).length = width := by
    simp
  have hlevels : ((List.range width).map fun (i : Nat) => e.bit (.integer i)) ≠ [] := by
    simpa using hwidth
  obtain ⟨r, hr, hvalue⟩ := exists_joined hlevels (hlength.symm ▸ hlimit)
  refine ⟨_, r, if_neg hfits.not_gt, hr, fun g I W x hx => ?_⟩
  obtain ⟨y, hy, hword⟩ := hvalue g I W (W.word x).getLsbD fun i level hlevel => by
    rw [List.getElem?_map] at hlevel
    obtain ⟨j, hj, rfl⟩ := Option.map_eq_some_iff.mp hlevel
    obtain ⟨hi, rfl⟩ := List.getElem?_eq_some_iff.mp hj
    rw [List.length_range] at hi
    rw [List.getElem_range]
    exact W.hasValue_bit hx (hi.trans_le hfits)
  refine ⟨y, hy, hword.trans ?_⟩
  rw [hlength, bitsToInt_getLsbD _ _ hwidth]
  cases signed
  · rw [if_neg (by decide), if_neg (by decide), BitVec.ofInt_natCast]
    exact BitVec.ofNat_toNat _ _
  · rfl

end Joining

/-! ### Buses -/

/-- A bus that was declared in some module. -/
inductive Bus.Declared (wires : Bus) : Prop
  | bus {name : String} {width : Nat} {direction : Direction} {m m' : Module}
      (h : Module.bus name width direction m = .ok wires m')
  | electrical {name : String} {width : Nat} {direction : Direction} {m m' : Module}
      (h : Module.electrical name width direction m = .ok (.bus wires) m')

/-- How a bus with devices on its bits is read, and the levels on the bits. -/
inductive Bus.Reads (wires : Bus) :
    (Bool → Except Fault (Expr .integer)) → List (Expr .bool) → Prop
  | inputs {domain : Net} {b : InputBus} {m m' : Module}
      (h : InputBus.install wires domain m = .ok b m') :
      Reads wires b.read? (b.bits.map (·.read))
  | pins {domain : Net} {b : PinBus} {m m' : Module}
      (h : PinBus.install wires domain m = .ok b m') :
      Reads wires b.read? (b.bits.map (·.read))

/-- A net is declared with one bit at least. -/
theorem width_ne_zero_of_declareNet {name : String} {width : Nat} {direction : Direction}
    {m m' : Module} {u : Unit} (h : Module.declareNet name width direction m = .ok u m') :
    width ≠ 0 := by
  unfold Module.declareNet at h
  split at h
  case isTrue => exact (fail_ok.mp h).elim
  case isFalse hwidth => exact hwidth

/-- A bus has one bit at least. -/
theorem Bus.Declared.width_ne_zero {wires : Bus} (h : wires.Declared) : wires.width ≠ 0 := by
  cases h with
  | bus h =>
      obtain rfl := Module.bus_ok h
      obtain ⟨_, _, hnet, -⟩ := bind_ok.mp h
      exact width_ne_zero_of_declareNet hnet
  | electrical h =>
      have heq := Module.electrical_ok h
      split at heq <;> cases heq
      obtain ⟨_, _, hnet, -⟩ := bind_ok.mp h
      exact width_ne_zero_of_declareNet hnet

/-- Each bit of a bus has a level. -/
theorem Bus.Reads.length_levels {wires : Bus} {read : Bool → Except Fault (Expr .integer)}
    {levels : List (Expr .bool)} (h : wires.Reads read levels) :
    levels.length = wires.width ∧ read = fun signed => joinLevels? signed levels := by
  cases h with
  | @inputs domain _ _ _ h =>
      refine ⟨?_, rfl⟩
      rw [InputBus.install, mapM_install_bind (DigitalInput.install_bind · domain),
        deviceDefaults_bind_apply] at h
      obtain ⟨-, m₁, -, h⟩ := bind_ok.mp h
      cases h
      simp [Bus.bits]
  | pins h =>
      refine ⟨?_, rfl⟩
      rw [PinBus.bits_of_install h]
      simp

/-- **Levels are put together to integers.** More levels than fit are refused, and nothing else is.
Other levels are put together to the number that their bits stand for, and levels that an expression
was split into to the low bits of its value. The levels of a bus are as many as it has bits, and
there is one at least. -/
theorem read_word (signed : Bool) :
    (∀ levels : List (Expr .bool), levels ≠ [] →
      ((∃ f, joinLevels? signed levels = .error f) ↔ readLimit signed < levels.length) ∧
      (levels.length ≤ readLimit signed → ∃ e, joinLevels? signed levels = .ok e ∧
        ∀ (g : Strengths) (I : Interpretation) (W : I.Words) (bit : Nat → Bool),
          (∀ i (level : Expr .bool), levels[i]? = some level →
            level.HasValue g I (.integer (I.bit (bit i)))) →
          ∃ x, e.HasValue g I (.integer x) ∧
            W.word x = BitVec.ofInt 32 (bitsToInt signed levels.length bit))) ∧
    (∀ (e : Expr .integer) (width : Nat), width ≠ 0 → width ≤ readLimit signed →
      ∃ levels r, (BusWord.expr e).levels? width = .ok levels ∧
        joinLevels? signed levels = .ok r ∧
        ∀ (g : Strengths) (I : Interpretation) (W : I.Words) (x : I.Integer),
          e.HasValue g I (.integer x) → ∃ y, r.HasValue g I (.integer y) ∧
            W.word y = if signed then ((W.word x).setWidth width).signExtend 32
              else ((W.word x).setWidth width).setWidth 32) ∧
    (∀ (wires : Bus) (read : Bool → Except Fault (Expr .integer)) (levels : List (Expr .bool)),
      wires.Declared → wires.Reads read levels →
      levels ≠ [] ∧ levels.length = wires.width ∧ read signed = joinLevels? signed levels) := by
  refine ⟨fun levels hlevels => ⟨⟨fun ⟨f, hf⟩ => ?_, fun h => ⟨_, joinLevels?_error h⟩⟩,
    fun hwidth => exists_joined hlevels hwidth⟩, fun e width hwidth hlimit =>
    joined_of_split signed e hwidth hlimit, fun wires read levels hdeclared hreads => ?_⟩
  · by_contra hwidth
    obtain ⟨e, he, -⟩ := exists_joined hlevels (not_lt.mp hwidth)
    rw [he] at hf
    cases hf
  · obtain ⟨hlength, rfl⟩ := hreads.length_levels
    refine ⟨fun hnil => hdeclared.width_ne_zero ?_, hlength, rfl⟩
    rw [← hlength, hnil]
    rfl

/-- The two low bits of six, read with a sign. -/
theorem read_word_two :
    let I := Interpretation.machine fun _ => .integer 6
    ∃ levels r, (BusWord.expr (.ident "w")).levels? 2 = .ok levels ∧
      joinLevels? true levels = .ok r ∧
        r.HasValue .standard I (.integer (BitVec.ofInt 32 (-2))) := by
  intro I
  obtain ⟨levels, r, hlevels, hr, hvalue⟩ :=
    (read_word true).2.1 (.ident "w") 2 (by decide) (by decide)
  have hword : (Expr.ident (k := .integer) "w").HasValue .standard I (.integer 6) :=
    .of_legible (List.forall_mem_singleton.mpr (by decide)) rfl
  obtain ⟨y, hy, hsign⟩ := hvalue .standard I (Interpretation.machineWords _) _ hword
  have hextended : ((BitVec.ofNat wordBits 6).setWidth 2).signExtend 32 = BitVec.ofInt 32 (-2) := by
    decide
  obtain rfl : y = BitVec.ofInt 32 (-2) := hsign.trans hextended
  exact ⟨levels, r, hlevels, hr, hy⟩

end Stimulus
