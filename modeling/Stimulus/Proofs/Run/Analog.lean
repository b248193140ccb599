import Mathlib.Algebra.Order.Archimedean.Real.Basic
import Stimulus.Proofs.Evaluation.Words
import Stimulus.Proofs.Run.Meaning

/-!
# Exact reals in a run

In exact arithmetic integers have no bounds and reals are not rounded. What the text of an
expression then comes to depends on the values of the variables and on a **simulator**, which adds
what no text says: potentials and flows, and functions such as the hyperbolic tangent. Both may
change with the store. All transitions have settled, so they are equal to their first arguments.

An integer may stand where a real is wanted, and it is an integer to the simulator. In exact
arithmetic this makes no difference to sums, differences, products and absolute values, nor to
quotients of which the dividend is a real.

## Main definitions

* `Simulator`, `Simulator.interpretation`: exact arithmetic over a store.
* `Expr.Yields`: what the text of an expression comes to, as a real.
* `Meaning.Exact`: a meaning that agrees with it.
* `Simulator.meaning`: an exact meaning.

## Main results

* `Expr.Yields.add`, `Expr.Yields.abs`, `Expr.Yields.transition`: a lemma for each operation.
* `Simulator.meaning_exact`: there are exact meanings.
-/

namespace Stimulus

open Grammar

/-! ### Simulators -/

/-- What no text says. All of it may depend on the store, infinity and the strengths of the
operators apart. -/
structure Simulator where
  strengths : Strengths
  infinity : ℝ
  /-- The potentials and flows, by access function and nets. -/
  probe : Store ℝ → String → List Tree → ℝ
  /-- Whether one of some analyses runs. -/
  query : Store ℝ → List Tree → Bool
  /-- The functions of reals, other than transitions, absolute values, minima and maxima. -/
  function : Store ℝ → String → List ℝ → ℝ

/-- The value of a variable as a number. -/
def Datum.number {R : Type} : Datum R → Number ℤ R
  | .real x => .real x
  | .integer n => .integer n

/-- The value of a variable as a real. -/
def Datum.toReal : Datum ℝ → ℝ
  | .real x => x
  | .integer n => n

namespace Interpretation

/-- A real without the digits behind its point. -/
noncomputable def truncated (x : ℝ) : ℤ :=
  if 0 ≤ x then ⌊x⌋ else ⌈x⌉

/-- An operator between two reals. -/
noncomputable def arithReal : Arithmetic → ℝ → ℝ → ℝ
  | .add, x, y => x + y
  | .sub, x, y => x - y
  | .mul, x, y => x * y
  | .div, x, y => x / y
  | .rem, x, y => x - y * truncated (x / y)
  | _, _, _ => 0

/-- Truth values are equal as integers if they are equal. -/
theorem compareIn_eq_toNat (a b : Bool) :
    compareIn .eq (Int.ofNat a.toNat) (Int.ofNat b.toNat) = (a == b) := by
  cases a <;> cases b <;> rfl

/-- Truth values are different as integers if they are different. -/
theorem compareIn_ne_toNat (a b : Bool) :
    compareIn .ne (Int.ofNat a.toNat) (Int.ofNat b.toNat) = (a != b) := by
  cases a <;> cases b <;> rfl

/-- The exclusive disjunction of truth values as integers. -/
theorem xor_toNat (a b : Bool) :
    arithInt .bitXor (Int.ofNat a.toNat) (Int.ofNat b.toNat) = Int.ofNat (a ^^ b).toNat := by
  cases a <;> cases b <;> rfl

end Interpretation

namespace Simulator

variable (S : Simulator)

/-- A function of reals. A transition has settled. -/
noncomputable def apply (st : Store ℝ) : String → List ℝ → ℝ
  | "transition", [x, _, _, _] => x
  | f, xs => if Number.following.contains f then Interpretation.functionIn f xs
    else S.function st f xs

/-- Integers without bounds and reals that are not rounded, over a store. -/
@[reducible] noncomputable def interpretation (st : Store ℝ) : Interpretation where
  Integer := ℤ
  Real := ℝ
  natural := Int.ofNat
  decimal digits power := digits * (10 : ℕ) ^ power
  promote n := n
  round x := ⌊x + 0.5⌋
  integerArith := Interpretation.arithInt
  realArith := Interpretation.arithReal
  negInteger n := -n
  negReal x := -x
  complement n := -n - 1
  integerCompare := Interpretation.compareIn
  realCompare := Interpretation.compareIn
  realChoice c x y := if c then x else y
  integerFunction := Interpretation.functionIn
  realFunction := S.apply st
  infinity := S.infinity
  named x := (st x).number
  probe := S.probe st
  query := S.query st
  integerCompare_mirrored := Interpretation.compareIn_mirrored
  realCompare_mirrored := Interpretation.compareIn_mirrored
  integerCompare_eq_toNat := Interpretation.compareIn_eq_toNat
  integerCompare_ne_toNat := Interpretation.compareIn_ne_toNat
  bitXor_toNat := Interpretation.xor_toNat

variable {S} {st : Store ℝ}

/-- Most functions belong to the simulator. -/
theorem apply_eq {f : String} (hf : f ∉ "transition" :: Number.following) (xs : List ℝ) :
    S.apply st f xs = S.function st f xs := by
  rw [List.mem_cons, not_or] at hf
  unfold apply
  split
  case h_1 => exact absurd rfl hf.1
  case h_2 => exact if_neg (by simpa using hf.2)

/-- Absolute values of integers and of reals are the same. -/
theorem exact_abs : (S.interpretation st).Exact (.function "abs") := by
  intro ns
  rcases ns with _ | ⟨m, _ | ⟨n, ns⟩⟩ <;>
    simp [apply, Number.following, Interpretation.functionIn]

/-- A real constant does not depend on the store. -/
theorem constant_eq (x : Binary64) (su : Store ℝ) :
    (S.interpretation st).constant x = (S.interpretation su).constant x := by
  cases x with
  | nan => rfl
  | infinite negative => cases negative <;> rfl
  | finite negative m p => cases negative <;> rfl

end Simulator

/-! ### What expressions come to -/

/-- The digits and the exponent that a real constant is written with, if it has no sign. -/
def Literal.scientific? : Binary64 → Option Scientific
  | .finite false significand power => some (rounded significand power)
  | _ => none

namespace Expr

/-- The text of an expression is read, and what is read comes to a real `r`. -/
def Yields (S : Simulator) (st : Store ℝ) {k : Kind} (e : Expr k) (r : ℝ) : Prop :=
  ∃ n : (S.interpretation st).Num, e.HasValue S.strengths (S.interpretation st) n ∧ n.toReal = r

namespace Yields

variable {S : Simulator} {st : Store ℝ} {a b : Expr .real} {x y : ℝ}

/-- An expression comes to one real at most. -/
theorem unique (hx : a.Yields S st x) (hy : a.Yields S st y) : x = y := by
  obtain ⟨m, hm, rfl⟩ := hx
  obtain ⟨n, hn, rfl⟩ := hy
  rw [hm.unique hn]

/-- A literal, by the digits and the exponent that it is written with. -/
theorem real {z : Float} (y : Scientific) (h : Literal.scientific? (.ofFloat z) = some y)
    (hx : y.digits * (10 : ℕ) ^ (y.exponent - 6) = x) : (Expr.real z).Yields S st x := by
  subst hx
  unfold Literal.scientific? at h
  split at h
  case h_1 hz =>
    cases h
    exact ⟨_, .real z, by rw [hz]; rfl⟩
  case h_2 => cases h

/-- A literal is a real to the simulator. -/
theorem hasValue_real {z : Float} (h : (Expr.real z).Yields S st x) :
    (Expr.real z).HasValue S.strengths (S.interpretation st) (.real x) := by
  have hz : (Expr.real z).Yields S st _ := ⟨_, .real z, rfl⟩
  rw [h.unique hz]
  exact .real z

/-- A name comes to the value of its variable. -/
theorem ident {name : String} (h : Name.check name = .ok ()) (hne : name ≠ "inf")
    (hx : (st name).toReal = x) : (Expr.ident name : Expr .real).Yields S st x := by
  subst hx
  have hname : (S.interpretation st).name name = (st name).number := by
    rw [Interpretation.name, if_neg hne]
  refine ⟨_, .ident h, ?_⟩
  rw [hname]
  cases st name <;> rfl

/-- The present time. -/
theorem now : Expr.now.Yields S st (st Environment.time.name).toReal := by
  refine ⟨_, .environment .time, ?_⟩
  have hname : (S.interpretation st).name Environment.time.name
      = (st Environment.time.name).number := by
    rw [Interpretation.name, if_neg (by decide)]
  rw [hname]
  cases st Environment.time.name <;> rfl

/-- A sum. -/
theorem add (ha : a.Yields S st x) (hb : b.Yields S st y) : (a.add b).Yields S st (x + y) := by
  obtain ⟨m, hm, rfl⟩ := ha
  obtain ⟨n, hn, rfl⟩ := hb
  exact ⟨_, hm.operation hn (Number.arith?_eq rfl _ _), Number.toReal_arith fun _ _ => Int.cast_add⟩

/-- A difference. -/
theorem sub (ha : a.Yields S st x) (hb : b.Yields S st y) : (a.sub b).Yields S st (x - y) := by
  obtain ⟨m, hm, rfl⟩ := ha
  obtain ⟨n, hn, rfl⟩ := hb
  exact ⟨_, hm.operation hn (Number.arith?_eq rfl _ _), Number.toReal_arith fun _ _ => Int.cast_sub⟩

/-- A product. -/
theorem mul (ha : a.Yields S st x) (hb : b.Yields S st y) : (a.mul b).Yields S st (x * y) := by
  obtain ⟨m, hm, rfl⟩ := ha
  obtain ⟨n, hn, rfl⟩ := hb
  exact ⟨_, hm.operation hn (Number.arith?_eq rfl _ _), Number.toReal_arith fun _ _ => Int.cast_mul⟩

/-- A quotient of which the dividend is a real to the simulator. -/
theorem div (ha : a.HasValue S.strengths (S.interpretation st) (.real x))
    (hb : b.Yields S st y) : (a.div b).Yields S st (x / y) := by
  obtain ⟨n, hn, rfl⟩ := hb
  refine ⟨_, ha.operation hn (Number.arith?_eq rfl _ _), Number.toReal_arith ?_⟩
  rintro ⟨m, hm⟩
  cases hm

/-- The opposite number. -/
theorem neg (ha : a.Yields S st x) : a.negReal.Yields S st (-x) := by
  obtain ⟨m, hm, rfl⟩ := ha
  exact ⟨_, hm.neg, Number.toReal_neg fun _ => Int.cast_neg⟩

/-- An absolute value. -/
theorem abs (ha : a.Yields S st x) : a.absReal.Yields S st |x| := by
  obtain ⟨m, hm, rfl⟩ := ha
  have htext : a.absReal.text = callText "abs" ([a].map text) := by
    rw [absReal, text]
    rfl
  exact ⟨_, .of_call (by decide) (by decide) (by decide) htext (.cons hm .nil),
    Number.toReal_apply _ _ fun _ _ => Simulator.exact_abs⟩

/-- A function of one argument. -/
theorem call (f : UnaryFunction) (ha : a.Yields S st x) :
    (Expr.call f a).Yields S st (S.function st f.name [x]) := by
  obtain ⟨m, hm, rfl⟩ := ha
  have htext : (Expr.call f a).text = callText f.name ([a].map text) := by
    rw [text]
    rfl
  refine ⟨_, .of_call (by cases f <;> decide) (by cases f <;> decide)
    (by cases f <;> decide) htext (.cons hm .nil), ?_⟩
  rw [Number.toReal_apply_of_notMem (by cases f <;> decide)]
  exact Simulator.apply_eq (by cases f <;> decide) _

/-- A transition comes to its first argument, provided that the others come to something. -/
theorem transition {delay rise fall : Expr .real} {d r f : ℝ} (ha : a.Yields S st x)
    (hdelay : delay.Yields S st d) (hrise : rise.Yields S st r) (hfall : fall.Yields S st f) :
    (Expr.transition a delay rise fall).Yields S st x := by
  obtain ⟨m, hm, rfl⟩ := ha
  obtain ⟨d, hd, -⟩ := hdelay
  obtain ⟨r, hr, -⟩ := hrise
  obtain ⟨f, hf, -⟩ := hfall
  have htext : (Expr.transition a delay rise fall).text
      = callText "transition" ([a, delay, rise, fall].map text) := by
    rw [text]
    rfl
  refine ⟨_, .of_call (by decide) (by decide) (by decide) htext
    (.cons hm (.cons hd (.cons hr (.cons hf .nil)))), ?_⟩
  rw [Number.toReal_apply_of_notMem (by decide)]
  rfl

end Yields

end Expr

/-! ### Exact meanings -/

/-- A lawful meaning is **exact** if the reals are what their texts come to. -/
structure Meaning.Exact (M : Meaning ℝ) (S : Simulator) : Prop extends M.Lawful where
  reads : ∀ {e : Expr .real} {st : Store ℝ} {x : ℝ}, e.Yields S st x → M.real e st = x

/-- The integers in a store, and zeros instead of its reals. -/
def Store.integers (st : Store ℝ) : Store Float := fun x =>
  match st x with
  | .integer n => .integer n
  | .real _ => .real 0.0

namespace Simulator

variable (S : Simulator)

/-- The value of a real by its text, and zero if the text has no value. -/
noncomputable def real (e : Expr .real) (st : Store ℝ) : ℝ :=
  ((readExpression S.strengths e.text).bind fun t => t.value (S.interpretation st)).elim 0
    Number.toReal

/-- The plain meaning, with reals that are evaluated from their texts. -/
noncomputable def meaning : Meaning ℝ where
  real := S.real
  integer e st := Meaning.plainInteger e st.integers
  bool e st := Meaning.plainBool e st.integers
  fits a b st := Meaning.plain.fits a b st.integers
  perform
    | .command (.assign x ⟨.real, e⟩), st => some (st.set x (.real (S.real e st)))
    | .command (.assign x ⟨.integer, e⟩), st =>
      some (st.set x (.integer (Meaning.plainInteger e st.integers)))
    | .command (.assign x ⟨.bool, e⟩), st =>
      some (st.set x (.integer (if Meaning.plainBool e st.integers then 1 else 0)))
    | .command (.increment x), st =>
      some (st.set x (.integer (Meaning.plainInteger (.ident x) st.integers + 1)))
    | .command .finish, _ => none
    | _, st => some st

/-- What comes to a real has it as its value. -/
theorem real_eq {e : Expr .real} {st : Store ℝ} {x : ℝ} (h : e.Yields S st x) :
    S.real e st = x := by
  obtain ⟨n, hn, rfl⟩ := h
  obtain ⟨t, hread, hvalue⟩ := hn.read
  rw [real, hread, Option.bind_some, hvalue]
  rfl

/-- **There are exact meanings.** -/
theorem meaning_exact : S.meaning.Exact S where
  real_literal z st su := by
    have hyields (sv : Store ℝ) : (Expr.real z).Yields S sv _ := ⟨_, .real z, rfl⟩
    change S.real _ st = S.real _ su
    rw [S.real_eq (hyields st), S.real_eq (hyields su)]
    exact constant_eq _ su
  integer_literal _ _ := rfl
  bool_literal _ _ := rfl
  integer_ident x n st h := Meaning.plain_lawful.integer_ident x n _ (by rw [Store.integers, h])
  bool_ident x n st h := Meaning.plain_lawful.bool_ident x n _ (by rw [Store.integers, h])
  eq a b st := Meaning.plain_lawful.eq a b _
  lt a b st := Meaning.plain_lawful.lt a b _
  fits a b st := Meaning.plain_lawful.fits a b _
  assign x v st := by
    obtain ⟨k, e⟩ := v
    cases k <;> rfl
  increment x n st h := by
    have hn : Meaning.plainInteger (.ident x) st.integers = n :=
      Meaning.plain_lawful.integer_ident x n _ (by rw [Store.integers, h])
    change some (st.set x (.integer (Meaning.plainInteger (.ident x) st.integers + 1))) = _
    rw [hn]
  finish _ := rfl
  reads h := S.real_eq h

end Simulator

end Stimulus
