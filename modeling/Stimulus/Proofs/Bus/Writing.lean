import Stimulus.Proofs.Evaluation.Words
import Stimulus.Proofs.History

/-!
# Words on buses

A word comes to a bus as a natural, as a number that must not be negative or as an integer
expression. A natural is split into literals, whatever the width of the bus. An expression is split
by shifts and masks, which are left to the simulator and do not reach beyond its word.

A bus of outputs has one variable on each bit, a bus of bidirectional pins has a second one that
connects the driver. What is shown here holds for both.

## Main definitions

* `Bus.level`, `Bus.enable`: the variables on the bits of a bus.
* `Bus.Writes`: how words are put on a bus, and what drives its bits.

## Main results

* `Bus.Writes.write_word`: the bits that each kind of word drives.
-/

namespace Stimulus

open Build Grammar

namespace Bus

/-- The variable with the level that a device drives on a bit. -/
def level (wires : Bus) (i : Nat) : Variable .bool :=
  ⟨(Net.bit wires.name i).owned "value"⟩

/-- The variable that connects the driver of a bidirectional pin. -/
def enable (wires : Bus) (i : Nat) : Variable .bool :=
  ⟨(Net.bit wires.name i).owned "enable"⟩

/-- What drives every bit of a bus of outputs with a level. -/
def drive (wires : Bus) (levels : Nat → Expr .bool) : Statement :=
  .ofCommands ((List.range wires.width).map fun i => (wires.level i).assign (levels i))

/-- What drives every bit of a bus of bidirectional pins with a level. -/
def take (wires : Bus) (levels : Nat → Expr .bool) : Statement :=
  .ofCommands ((List.range wires.width).flatMap fun i =>
    [(wires.enable i).assign (.bool true), (wires.level i).assign (levels i)])

/-- How words are put on a bus with devices on its bits, and what drives the bits with levels. -/
inductive Writes (wires : Bus) :
    (BusWord → Except Fault Statement) → ((Nat → Expr .bool) → Statement) → Prop
  | outputs {domain : Net} {b : OutputBus} {m m' : Module}
      (h : OutputBus.install wires domain m = .ok b m') : Writes wires b.write? wires.drive
  | pins {domain : Net} {b : PinBus} {m m' : Module}
      (h : PinBus.install wires domain m = .ok b m') : Writes wires b.write? wires.take

end Bus

variable {wires : Bus} {domain : Net} {m m' : Module}

/-- The outputs on a bus. -/
theorem OutputBus.bits_of_install {b : OutputBus}
    (h : OutputBus.install wires domain m = .ok b m') :
    b.bits = (List.range wires.width).map fun i =>
      let pin := Net.bit wires.name i
      ⟨pin, domain, wires.level i, .ownedBy pin.owned⟩ := by
  rw [OutputBus.install, mapM_install_bind (DigitalOutput.install_bind · domain),
    deviceDefaults_bind_apply] at h
  obtain ⟨-, m₁, -, h⟩ := bind_ok.mp h
  cases h
  exact List.map_map

/-- The pins on a bus. -/
theorem PinBus.bits_of_install {b : PinBus} (h : PinBus.install wires domain m = .ok b m') :
    b.bits = (List.range wires.width).map fun i =>
      let pin := Net.bit wires.name i
      ⟨pin, domain, wires.level i, wires.enable i, .ownedBy pin.owned⟩ := by
  rw [PinBus.install, mapM_install_bind (DigitalPin.install_bind · domain),
    deviceDefaults_bind_apply] at h
  obtain ⟨-, m₁, -, h⟩ := bind_ok.mp h
  cases h
  exact List.map_map

namespace Bus.Writes

variable {write : BusWord → Except Fault Statement} {drive : (Nat → Expr .bool) → Statement}
  {word : BusWord}

/-- A word that has levels drives the bits with them. -/
theorem write_ok (h : wires.Writes write drive) {levels : Nat → Expr .bool}
    (hlevels : word.levels? wires.width = .ok ((List.range wires.width).map levels)) :
    write word = .ok (drive levels) := by
  cases h with
  | outputs h =>
      have hbits := OutputBus.bits_of_install h
      have hwidth : List.length _ = wires.width := (congrArg List.length hbits).trans (by simp)
      rw [OutputBus.write?, hwidth, hlevels, hbits]
      refine congrArg (fun cs => Except.ok (Statement.ofCommands cs)) ?_
      rw [List.zipWith_map, List.zipWith_self]
      rfl
  | pins h =>
      have hbits := PinBus.bits_of_install h
      have hwidth : List.length _ = wires.width := (congrArg List.length hbits).trans (by simp)
      rw [PinBus.write?, hwidth, hlevels, hbits]
      refine congrArg (fun cs => Except.ok (Statement.ofCommands cs)) ?_
      rw [List.zipWith_map, List.zipWith_self, ← List.flatMap_def]
      rfl

/-- A word that has no levels is refused. -/
theorem write_error (h : wires.Writes write drive) {f : Fault}
    (hlevels : word.levels? wires.width = .error f) : write word = .error f := by
  cases h with
  | outputs h =>
      have hwidth : List.length _ = wires.width :=
        (congrArg List.length (OutputBus.bits_of_install h)).trans (by simp)
      rw [OutputBus.write?, hwidth, hlevels]
      rfl
  | pins h =>
      have hwidth : List.length _ = wires.width :=
        (congrArg List.length (PinBus.bits_of_install h)).trans (by simp)
      rw [PinBus.write?, hwidth, hlevels]
      rfl

/-- An expression that fits the word of the simulator is split by shifts and masks. -/
theorem write_expr (h : wires.Writes write drive) (e : Expr .integer)
    (hwidth : wires.width ≤ wordBits) :
    write (.expr e) = .ok (drive fun i => e.bit (.integer i)) :=
  h.write_ok (if_neg hwidth.not_gt)

/-- **Words drive their bits.** A natural drives literals, with no bit set from the 64th on if it is
a word of the caller. A number that is negative is refused, any other is a natural. An expression is
refused if the bus is wider than the word of the simulator, else it drives every bit with an
expression for the bit of its value. So a constant drives the same levels in both ways. -/
theorem write_word (h : wires.Writes write drive) :
    (∀ v : Nat, write (.host v) = .ok (drive fun i => .bool (v.testBit i)) ∧
      (v < 2 ^ 64 → ∀ i ≥ 64, v.testBit i = false)) ∧
    (∀ n : Int, if n < 0 then write (.signed n) = .error (.outOfRange (.negativeWord n))
      else write (.signed n) = write (.host n.toNat)) ∧
    (∀ e : Expr .integer,
      if 32 < wires.width then
        write (.expr e) = .error (.misplaced (.wideWrite wires.width 32))
      else ∃ levels, write (.expr e) = .ok (drive levels) ∧
        ∀ (g : Strengths) (I : Interpretation) (W : I.Words) (x : I.Integer),
          e.HasValue g I (.integer x) → ∀ i < wires.width,
            (levels i).HasValue g I (.integer (I.bit ((W.word x).getLsbD i)))) ∧
    (∀ v : Nat, wires.width ≤ 32 → ∃ host expr,
      write (.host v) = .ok (drive host) ∧ write (.expr (.integer v)) = .ok (drive expr) ∧
        ∀ (g : Strengths) (I : Interpretation) (_ : I.Words), ∀ i < wires.width,
          ∃ n, (host i).HasValue g I n ∧ (expr i).HasValue g I n) := by
  have hhost (v : Nat) : write (.host v) = .ok (drive fun i => .bool (v.testBit i)) :=
    h.write_ok rfl
  refine ⟨fun v => ⟨hhost v, fun hv i hi => ?_⟩, fun n => ?_, fun e => ?_, fun v hwidth => ?_⟩
  · exact Nat.testBit_lt_two_pow (hv.trans_le (Nat.pow_le_pow_right (by decide) hi))
  · split
    case isTrue hn => exact h.write_error (if_pos hn)
    case isFalse hn =>
      rw [hhost]
      exact h.write_ok (if_neg hn)
  · split
    case isTrue hwidth => exact h.write_error (if_pos hwidth)
    case isFalse hwidth =>
      have hfits : wires.width ≤ wordBits := Nat.le_of_not_lt hwidth
      exact ⟨_, h.write_expr e hfits, fun g I W x hx i hi =>
        W.hasValue_bit hx (hi.trans_le hfits)⟩
  · refine ⟨_, _, hhost v, h.write_expr _ hwidth, fun g I W i hi => ?_⟩
    have hbit := W.hasValue_bit (g := g) (.integer v) (hi.trans_le hwidth)
    have hword : W.word (I.integer v) = BitVec.ofNat wordBits v := W.word_natural v
    have hi : i < wordBits := hi.trans_le hwidth
    rw [hword, BitVec.getLsbD_ofNat, decide_eq_true hi, Bool.true_and] at hbit
    exact ⟨_, .bool _, hbit⟩

/-- Five on a bus of three bits, a negative number, and bit 1 of a variable that is six. -/
theorem write_word_three :
    let I := Interpretation.machine fun _ => .integer 6
    ∃ m b m', OutputBus.install ⟨"d", 3⟩ (.scalar "vdd") m = .ok b m' ∧
      b.write? (.host 5) = .ok (.ofCommands
        [(⟨"d_$0$_$value$"⟩ : Variable .bool).assign (.bool true),
          (⟨"d_$1$_$value$"⟩ : Variable .bool).assign (.bool false),
          (⟨"d_$2$_$value$"⟩ : Variable .bool).assign (.bool true)]) ∧
      b.write? (.signed (-5)) = .error (.outOfRange (.negativeWord (-5))) ∧
      ∃ levels, b.write? (.expr (.ident "w")) = .ok (Bus.drive ⟨"d", 3⟩ levels) ∧
        (levels 1).HasValue .standard I (.integer (I.bit true)) := by
  intro I
  obtain ⟨m, hm⟩ : ∃ m, Module.new? .standard "" "bench" = .ok m := ⟨_, rfl⟩
  obtain ⟨b, m', h⟩ : ∃ b m', OutputBus.install ⟨"d", 3⟩ (.scalar "vdd") m = .ok b m' := by
    simp only [← value?_eq_some, ← Option.isSome_iff_exists]
    rw [Module.eq_of_new? hm]
    decide +kernel
  obtain ⟨hhost, hsigned, hexpr, -⟩ := write_word (.outputs h)
  obtain ⟨levels, hlevels, hvalue⟩ := hexpr (.ident "w")
  have hword : (Expr.ident (k := .integer) "w").HasValue .standard I (.integer 6) :=
    .of_legible (List.forall_mem_singleton.mpr (by decide)) rfl
  refine ⟨m, b, m', h, (hhost 5).1, (if_pos (by decide)).mp (hsigned (-5)), levels, hlevels, ?_⟩
  have hbit : (BitVec.ofNat wordBits 6).getLsbD 1 = true := by decide
  rw [← hbit]
  exact hvalue .standard I (Interpretation.machineWords _) _ hword 1 (by decide)

end Bus.Writes

end Stimulus
