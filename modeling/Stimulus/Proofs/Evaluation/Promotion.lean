import Mathlib.Data.Int.Bitwise
import Mathlib.Data.Rat.Floor
import Stimulus.Proofs.Evaluation.Typing

/-!
# Integers that are used as reals

An integer that is used as a real is written without change, so the simulator takes it for an
integer, and it does so with everything that is made of such reals alone. That is of no consequence
where an operation gives the same number for integers as for reals, which it does unless integers
overflow or two of these reals are divided: the quotient is truncated. As soon as one operand is
a real to the simulator, every operation is that of the reals.

## Main definitions

* `Overloaded`, `Interpretation.Exact`: operations that are the same for both types.
* `Construction.isInteger`: reals that are integers to the simulator.
* `Construction.overloaded`: the operations on such reals in a construction.
* `Interpretation.rational`: integers without bounds and rationals.

## Main results

* `Construction.worth_promoted`: the worth with reals as they are written.
* `Construction.value_build`: the value of the text of a real.
* `Construction.quotient_of_casts_truncated`: two integers that are used as reals and divided.
-/

namespace Stimulus

open Build Grammar

/-! ### Operations for both types -/

/-- The operations that there are for integers and for reals. -/
inductive Overloaded where
  | arith (op : Arithmetic)
  | compare (op : Comparison)
  | neg
  | choice
  | function (f : String)
  deriving DecidableEq, Repr

/-- An operation is exact if it makes no difference whether integers are promoted before or after
it. No operation is exact that overflows, and division is not where it truncates. -/
def Interpretation.Exact (I : Interpretation) : Overloaded → Prop
  | .arith op => ∀ m n,
    I.promote (I.integerArith op m n) = I.realArith op (I.promote m) (I.promote n)
  | .compare op => ∀ m n, I.integerCompare op m n = I.realCompare op (I.promote m) (I.promote n)
  | .neg => ∀ n, I.promote (I.negInteger n) = I.negReal (I.promote n)
  | .choice => ∀ (c : Bool) (m n : I.Integer),
    I.promote (if c then m else n) = I.realChoice c (I.promote m) (I.promote n)
  | .function f => ∀ ns, I.promote (I.integerFunction f ns) = I.realFunction f (ns.map I.promote)

/-- The operations on reals that give integers for integers, and comparisons. -/
def Overloaded.keepsIntegers : Overloaded → Bool
  | .arith .add | .arith .sub | .arith .mul => true
  | .arith _ => false
  | .compare _ => true
  | .neg => true
  | .choice => true
  | .function f => Number.following.contains f

variable {I : Interpretation}

namespace Number

/-- Numbers that are integers. -/
def IsInteger (x : I.Num) : Prop :=
  ∃ n, x = .integer n

/-- Arithmetic is real arithmetic, unless two integers come together. -/
theorem toReal_arith {op : Arithmetic} {x y : I.Num}
    (h : x.IsInteger → y.IsInteger → I.Exact (.arith op)) :
    (arith op x y).toReal = I.realArith op x.toReal y.toReal := by
  cases x with
  | real x => cases y <;> rfl
  | integer m =>
      cases y with
      | real y => rfl
      | integer n => exact h ⟨m, rfl⟩ ⟨n, rfl⟩ m n

/-- A comparison is a comparison of reals, unless two integers come together. -/
theorem compare_eq {op : Comparison} {x y : I.Num}
    (h : x.IsInteger → y.IsInteger → I.Exact (.compare op)) :
    compare op x y = I.realCompare op x.toReal y.toReal := by
  cases x with
  | real x => cases y <;> rfl
  | integer m =>
      cases y with
      | real y => rfl
      | integer n => exact h ⟨m, rfl⟩ ⟨n, rfl⟩ m n

/-- The opposite of a number is the opposite of a real, unless it is an integer. -/
theorem toReal_neg {x : I.Num} (h : x.IsInteger → I.Exact .neg) :
    x.neg.toReal = I.negReal x.toReal := by
  cases x with
  | integer n => exact h ⟨n, rfl⟩ n
  | real x => rfl

/-- A choice is a choice between reals, unless two integers come together. -/
theorem toReal_choose {c : Bool} {x y : I.Num}
    (h : x.IsInteger → y.IsInteger → I.Exact .choice) :
    (choose c x y).toReal = I.realChoice c x.toReal y.toReal := by
  cases x with
  | real x => cases y <;> rfl
  | integer m =>
      cases y with
      | real y => rfl
      | integer n => exact h ⟨m, rfl⟩ ⟨n, rfl⟩ c m n

/-- Integers among which there is no real are promoted one by one. -/
theorem of_integers?_eq_some {xs : List I.Num} {ns : List I.Integer}
    (h : integers? xs = some ns) : (∀ x ∈ xs, x.IsInteger) ∧ xs.map toReal = ns.map I.promote := by
  induction xs generalizing ns with
  | nil =>
      cases h
      exact ⟨fun x hx => absurd hx List.not_mem_nil, rfl⟩
  | cons x xs ih =>
      cases x with
      | real x => cases h
      | integer n =>
          obtain ⟨ms, hms, rfl⟩ := Option.map_eq_some_iff.mp h
          obtain ⟨hall, hmap⟩ := ih hms
          refine ⟨List.forall_mem_cons.mpr ⟨⟨n, rfl⟩, hall⟩, ?_⟩
          rw [List.map_cons, List.map_cons, hmap]
          rfl

/-- A function is a function of reals, unless it is one for integers as well and all arguments are
integers. -/
theorem toReal_apply (f : String) (xs : List I.Num)
    (h : f ∈ following → (∀ x ∈ xs, x.IsInteger) → I.Exact (.function f)) :
    (apply f xs).toReal = I.realFunction f (xs.map toReal) := by
  unfold apply
  split
  case h_1 ns hf hns =>
    obtain ⟨hall, hmap⟩ := of_integers?_eq_some hns
    rw [hmap]
    exact h (List.contains_iff_mem.mp hf) hall ns
  case h_2 => rfl

/-- A function that is one of reals alone. -/
theorem toReal_apply_of_notMem {f : String} (hf : f ∉ following) (xs : List I.Num) :
    (apply f xs).toReal = I.realFunction f (xs.map toReal) :=
  toReal_apply f xs fun hmem => absurd hmem hf

end Number

/-- The operations that an operator between two reals stands for. Powers are functions of reals
alone. -/
def BinaryOp.overloaded : BinaryOp → List Overloaded
  | .arith op => [.arith op]
  | .compare op => [.compare op]
  | _ => []

/-- The kind of what an operator gives for operands of a kind. -/
def BinaryOp.resultKind : BinaryOp → Kind → Kind
  | .arith _, k => k
  | .pow, k => k
  | .and, _ => .bool
  | .or, _ => .bool
  | .compare _, _ => .bool

namespace Worth

/-- The worth after the integers among the reals have been promoted. -/
def promoted : Worth I.written → Worth I
  | .real x => .real x.toReal
  | .integer n => .integer n
  | .bool b => .bool b

/-- Promotion keeps the kind. -/
theorem kind_promoted (d : Worth I.written) : d.promoted.kind = d.kind := by
  cases d <;> rfl

/-- Reals that are integers to the simulator. -/
def IsInteger (d : Worth I.written) : Prop :=
  ∃ n, d = .real (.integer n)

/-- A number of a real. -/
theorem isInteger_real {x : I.Num} (h : x.IsInteger) : IsInteger (.real x : Worth I.written) :=
  h.imp fun _ h => congrArg _ h

/-- Operators commute with promotion, unless two integers come together that are used as reals. -/
theorem apply_promoted {op : BinaryOp} {d e r : Worth I.written} (h : d.apply op e = some r)
    (hexact : d.IsInteger → e.IsInteger → ∀ o ∈ op.overloaded, I.Exact o) :
    d.promoted.apply op e.promoted = some r.promoted := by
  cases d <;> cases e
  case real.real x y =>
    cases op with
    | arith op =>
        simp only [apply, Option.ite_none_right_eq_some] at h
        obtain ⟨hop, h⟩ := h
        cases h
        simp only [promoted, apply, if_pos hop]
        rw [Number.toReal_arith fun hx hy =>
          hexact (isInteger_real hx) (isInteger_real hy) _ List.mem_cons_self]
    | pow =>
        cases h
        have hpow := Number.toReal_apply_of_notMem (f := "pow") (by decide) [x, y]
        exact congrArg (fun x => some (Worth.real x)) hpow.symm
    | compare op =>
        cases h
        exact congrArg (fun c => some (Worth.bool c)) (Number.compare_eq fun hx hy =>
          hexact (isInteger_real hx) (isInteger_real hy) _ List.mem_cons_self).symm
    | and => cases h
    | or => cases h
  case integer.integer m n => cases op <;> cases h <;> rfl
  case bool.bool a b =>
    cases op with
    | arith op => cases op <;> cases h <;> rfl
    | compare op => cases op <;> cases h <;> rfl
    | _ => cases h <;> rfl
  all_goals cases h

/-- A sign commutes with promotion, unless it stands before an integer. -/
theorem negate_promoted {d r : Worth I.written} (h : d.negate = some r)
    (hexact : d.IsInteger → I.Exact .neg) : d.promoted.negate = some r.promoted := by
  cases d <;> cases h
  case real.refl x =>
    exact congrArg (fun x => some (Worth.real x))
      (Number.toReal_neg fun hx => hexact (isInteger_real hx)).symm
  case integer.refl n => rfl

/-- An inversion has nothing to do with reals. -/
theorem invert_promoted {d r : Worth I.written} (h : d.invert = some r) :
    d.promoted.invert = some r.promoted := by
  cases d <;> cases h <;> rfl

/-- Absolute values commute with promotion, unless they are those of integers. -/
theorem abs_promoted {d r : Worth I.written} (h : d.abs = some r)
    (hexact : d.IsInteger → I.Exact (.function "abs")) : d.promoted.abs = some r.promoted := by
  cases d <;> cases h
  case real.refl x =>
    have habs := Number.toReal_apply "abs" [x] fun _ hx =>
      hexact (isInteger_real (hx x List.mem_cons_self))
    exact congrArg (fun x => some (Worth.real x)) habs.symm
  case integer.refl n => rfl

/-- Conversions commute with promotion. -/
theorem castTo_promoted {k : Kind} {d r : Worth I.written} (h : d.castTo k = some r) :
    d.promoted.castTo k = some r.promoted := by
  cases d <;> cases k <;> cases h
  case real.bool.refl x =>
    -- Zero is written as a real.
    simp only [promoted, castTo, Interpretation.constant_written]
    exact congrArg (fun c => some (Worth.bool c))
      (Number.compare_eq (y := .real _) fun _ hzero => absurd hzero nofun).symm
  all_goals rfl

/-- Choices commute with promotion, unless they are between two integers. -/
theorem choose_promoted {c : Bool} {d e r : Worth I.written} (h : d.choose c e = some r)
    (hexact : d.IsInteger → e.IsInteger → I.Exact .choice) :
    d.promoted.choose c e.promoted = some r.promoted := by
  cases d <;> cases e <;> cases h
  case real.real.refl x y =>
    exact congrArg (fun x => some (Worth.real x)) (Number.toReal_choose fun hx hy =>
      hexact (isInteger_real hx) (isInteger_real hy)).symm
  all_goals rfl

/-- The value of a name is promoted. -/
theorem ofName_promoted {k : Kind} {x : String} {d : Worth I.written}
    (h : I.written.ofName k x = some d) : I.ofName k x = some d.promoted := by
  unfold Interpretation.ofName at h ⊢
  rw [name_written] at h
  cases hname : I.name x <;> cases k <;> rw [hname] at h <;> cases h <;> rfl

/-- No name is worth an integer that is used as a real. -/
theorem ofName_ne_integer {k : Kind} {x : String} {n : I.Integer} :
    I.written.ofName k x ≠ some (.real (.integer n)) := by
  intro h
  unfold Interpretation.ofName at h
  rw [name_written] at h
  cases hname : I.name x <;> cases k <;> rw [hname] at h <;> cases h

/-- An operator gives an integer among the reals only if it is arithmetic on such. -/
theorem of_apply_eq_integer {op : BinaryOp} {d e : Worth I.written} {n : I.Integer}
    (h : d.apply op e = some (.real (.integer n))) :
    ∃ op', op = .arith op' ∧ ∃ m k, d = .real (.integer m) ∧ e = .real (.integer k) := by
  cases d <;> cases e
  case real.real x y =>
    cases op with
    | arith op =>
        simp only [apply, Option.ite_none_right_eq_some] at h
        rcases x with m | x <;> rcases y with k | y <;> cases h.2
        exact ⟨op, rfl, m, k, rfl, rfl⟩
    | _ => cases h
  case integer.integer m k => cases op <;> cases h
  case bool.bool a b =>
    cases op with
    | arith op => cases op <;> cases h
    | compare op => cases op <;> cases h
    | _ => cases h
  all_goals cases h

/-- What a name is worth is of the kind of the name. -/
theorem kind_ofName {k : Kind} {x : String} {d : Worth I} (h : I.ofName k x = some d) :
    d.kind = k := by
  unfold Interpretation.ofName at h
  cases hname : I.name x <;> cases k <;> rw [hname] at h <;> cases h <;> rfl

/-- An operator gives the kind of its results. -/
theorem kind_apply {op : BinaryOp} {d e r : Worth I} (h : d.apply op e = some r) :
    r.kind = op.resultKind d.kind := by
  cases d <;> cases e
  case real.real x y =>
    cases op with
    | arith op =>
        simp only [apply, Option.ite_none_right_eq_some] at h
        cases h.2
        rfl
    | _ => cases h <;> rfl
  case integer.integer m n => cases op <;> cases h <;> rfl
  case bool.bool a b =>
    cases op with
    | arith op => cases op <;> cases h <;> rfl
    | compare op => cases op <;> cases h <;> rfl
    | _ => cases h <;> rfl
  all_goals cases h

end Worth

/-! ### Constructions -/

namespace Construction

/-- The kind of a construction. -/
def kind : Construction → Kind
  | .real _ => .real
  | .integer _ => .integer
  | .bool _ => .bool
  | .identifier k _ => k
  | .access _ => .real
  | .environment _ => .real
  | .analysis _ => .bool
  | .apply op a _ => op.resultKind a.kind
  | .negate a => a.kind
  | .invert a => a.kind
  | .abs a => a.kind
  | .cast k _ => k
  | .select k _ _ _ => k
  | .call _ _ => .real
  | .call₂ _ _ _ => .real
  | .slew _ _ _ => .real
  | .transition _ _ _ _ => .real

/-- Whether a real is an integer to the simulator: an integer that is used as a real, or what is
made of such reals alone by operations for both types. -/
def isInteger : Construction → Bool
  | .apply (.arith _) a b => a.isInteger && b.isInteger
  | .negate a => a.isInteger
  | .abs a => a.isInteger
  | .cast .real a =>
    match a.kind with
    | .real => a.isInteger
    | .integer => true
    | .bool => false
  | .select _ _ a b => a.isInteger && b.isInteger
  | .call₂ .min a b => a.isInteger && b.isInteger
  | .call₂ .max a b => a.isInteger && b.isInteger
  | _ => false

/-- The operations on reals that are integers to the simulator. -/
def overloaded : Construction → List Overloaded
  | .real _ => []
  | .integer _ => []
  | .bool _ => []
  | .identifier _ _ => []
  | .access _ => []
  | .environment _ => []
  | .analysis _ => []
  | .apply op a b =>
    (if a.isInteger && b.isInteger then op.overloaded else []) ++ a.overloaded ++ b.overloaded
  | .negate a => (if a.isInteger then [.neg] else []) ++ a.overloaded
  | .invert a => a.overloaded
  | .abs a => (if a.isInteger then [.function "abs"] else []) ++ a.overloaded
  | .cast _ a => a.overloaded
  | .select _ c a b =>
    (if a.isInteger && b.isInteger then [.choice] else []) ++ c.overloaded ++ a.overloaded
      ++ b.overloaded
  | .call _ x => x.overloaded
  | .call₂ f x y =>
    (if x.isInteger && y.isInteger then [.function f.name] else []) ++ x.overloaded ++ y.overloaded
  | .slew x r f => x.overloaded ++ r.overloaded ++ f.overloaded
  | .transition x d r f => x.overloaded ++ d.overloaded ++ r.overloaded ++ f.overloaded

/-- What a construction is worth is of its kind. -/
theorem kind_worth {J : Interpretation} {c : Construction} {d : Worth J}
    (h : c.worth J = some d) : d.kind = c.kind := by
  induction c generalizing d with
  | real x => cases h; rfl
  | integer n => cases h; rfl
  | bool b => cases h; rfl
  | identifier k x => exact Worth.kind_ofName h
  | access b => cases h; rfl
  | environment q => exact Worth.kind_ofName h
  | analysis types => cases h; rfl
  | apply op lhs rhs ihl ihr =>
      obtain ⟨d', hd, h⟩ := Option.bind_eq_some_iff.mp h
      obtain ⟨e, he, h⟩ := Option.bind_eq_some_iff.mp h
      rw [kind, ← ihl hd]
      exact Worth.kind_apply h
  | negate operand ih =>
      obtain ⟨d', hd, h⟩ := Option.bind_eq_some_iff.mp h
      rw [kind, ← ih hd]
      cases d' <;> cases h <;> rfl
  | invert operand ih =>
      obtain ⟨d', hd, h⟩ := Option.bind_eq_some_iff.mp h
      rw [kind, ← ih hd]
      cases d' <;> cases h <;> rfl
  | abs operand ih =>
      obtain ⟨d', hd, h⟩ := Option.bind_eq_some_iff.mp h
      rw [kind, ← ih hd]
      cases d' <;> cases h <;> rfl
  | cast k operand ih =>
      obtain ⟨d', hd, h⟩ := Option.bind_eq_some_iff.mp h
      cases d' <;> cases k <;> cases h <;> rfl
  | select k condition yes no ihc ihy ihn =>
      obtain ⟨c, d', e, -, -, ⟨-, hkind⟩, h⟩ := worth_select.mp h
      rw [kind, ← hkind]
      cases d' <;> cases e <;> cases h <;> rfl
  | call f x ih =>
      obtain ⟨m, hm, rfl⟩ := worth_call.mp h
      rfl
  | call₂ f x y ihx ihy =>
      obtain ⟨m, hm, n, hn, rfl⟩ := worth_call₂.mp h
      rfl
  | slew x maxRise maxFall ihx ihr ihf =>
      obtain ⟨m, hm, r, hr, f, hf, rfl⟩ := worth_slew.mp h
      rfl
  | transition x delay rise fall ihx ihd ihr ihf =>
      obtain ⟨m, hm, p, hp, r, hr, f, hf, rfl⟩ := worth_transition.mp h
      rfl

/-- A real that is an integer to the simulator was made of integers. -/
theorem isInteger_of_worth {c : Construction} {n : I.Integer}
    (h : c.worth I.written = some (.real (.integer n))) : c.isInteger = true := by
  induction c generalizing n with
  | real x =>
      rw [worth, Interpretation.constant_written] at h
      cases h
  | integer _ => cases h
  | bool _ => cases h
  | identifier k x => exact absurd h Worth.ofName_ne_integer
  | access b => cases h
  | environment q => exact absurd h Worth.ofName_ne_integer
  | analysis types => cases h
  | apply op lhs rhs ihl ihr =>
      obtain ⟨d, hd, h⟩ := Option.bind_eq_some_iff.mp h
      obtain ⟨e, he, h⟩ := Option.bind_eq_some_iff.mp h
      obtain ⟨op, rfl, m, k, rfl, rfl⟩ := Worth.of_apply_eq_integer h
      rw [isInteger, ihl hd, ihr he]
      rfl
  | negate operand ih =>
      obtain ⟨d, hd, h⟩ := Option.bind_eq_some_iff.mp h
      rcases d with (m | x) | m | b <;> cases h
      exact ih hd
  | invert operand ih =>
      obtain ⟨d, hd, h⟩ := Option.bind_eq_some_iff.mp h
      cases d <;> cases h
  | abs operand ih =>
      obtain ⟨d, hd, h⟩ := Option.bind_eq_some_iff.mp h
      rcases d with (m | x) | m | b <;> cases h
      exact ih hd
  | cast k operand ih =>
      obtain ⟨d, hd, h⟩ := Option.bind_eq_some_iff.mp h
      have hkind := kind_worth hd
      rcases d with x | m | b <;> cases k <;> cases h
      case real.real.refl =>
        rw [isInteger, ← hkind]
        exact ih hd
      case integer.real.refl =>
        rw [isInteger, ← hkind]
        rfl
  | select k condition yes no ihc ihy ihn =>
      obtain ⟨c, d, e, -, ⟨he, -⟩, ⟨hd, -⟩, h⟩ := worth_select.mp h
      rcases d with (m | x) | m | b <;> rcases e with (m' | y) | m' | b' <;> cases h
      rw [isInteger, ihy hd, ihn he]
      rfl
  | call f x ih =>
      obtain ⟨m, -, h⟩ := worth_call.mp h
      cases f <;> cases h
  | call₂ f x y ihx ihy =>
      obtain ⟨m, hm, n, hn, h⟩ := worth_call₂.mp h
      cases f
      case idt => cases h
      case pow => cases h
      all_goals
        rcases m with m | m <;> rcases n with n | n <;> cases h
        rw [isInteger, ihx hm, ihy hn]
        rfl
  | slew x maxRise maxFall ihx ihr ihf =>
      obtain ⟨m, -, r, -, f, -, h⟩ := worth_slew.mp h
      cases h
  | transition x delay rise fall ihx ihd ihr ihf =>
      obtain ⟨m, -, p, -, r, -, f, -, h⟩ := worth_transition.mp h
      cases h

/-- Operations that are exact if an operand is an integer to the simulator. -/
theorem exact_of_worth {a : Construction} {d : Worth I.written} {os : List Overloaded}
    (ha : a.worth I.written = some d) (h : ∀ o ∈ if a.isInteger then os else [], I.Exact o)
    (hd : d.IsInteger) : ∀ o ∈ os, I.Exact o := by
  obtain ⟨n, rfl⟩ := hd
  rwa [if_pos (isInteger_of_worth ha)] at h

/-- Operations that are exact if two operands are integers to the simulator. -/
theorem exact_of_worths {a b : Construction} {d e : Worth I.written} {os : List Overloaded}
    (ha : a.worth I.written = some d) (hb : b.worth I.written = some e)
    (h : ∀ o ∈ if a.isInteger && b.isInteger then os else [], I.Exact o) (hd : d.IsInteger)
    (he : e.IsInteger) : ∀ o ∈ os, I.Exact o := by
  obtain ⟨m, rfl⟩ := hd
  rw [isInteger_of_worth ha, Bool.true_and] at h
  exact exact_of_worth hb h he

/-- **The worth with reals as they are written is the worth** once the integers among them are
promoted, if the operations on these integers are exact. -/
theorem worth_promoted {c : Construction} {d : Worth I.written}
    (h : c.worth I.written = some d) (hexact : ∀ o ∈ c.overloaded, I.Exact o) :
    c.worth I = some d.promoted := by
  induction c generalizing d with
  | real x =>
      rw [worth, Interpretation.constant_written] at h
      cases h
      rfl
  | integer n =>
      cases h
      cases n <;> rfl
  | bool b =>
      cases h
      rfl
  | identifier k x => exact Worth.ofName_promoted h
  | access b =>
      cases h
      rfl
  | environment q => exact Worth.ofName_promoted h
  | analysis types =>
      cases h
      rfl
  | apply op lhs rhs ihl ihr =>
      obtain ⟨d, hd, h⟩ := Option.bind_eq_some_iff.mp h
      obtain ⟨e, he, h⟩ := Option.bind_eq_some_iff.mp h
      simp only [overloaded, List.forall_mem_append] at hexact
      obtain ⟨⟨hhere, hleft⟩, hright⟩ := hexact
      rw [worth, ihl hd hleft, ihr he hright]
      exact Worth.apply_promoted h (exact_of_worths hd he hhere)
  | negate operand ih =>
      obtain ⟨d, hd, h⟩ := Option.bind_eq_some_iff.mp h
      simp only [overloaded, List.forall_mem_append] at hexact
      rw [worth, ih hd hexact.2]
      exact Worth.negate_promoted h fun hdi =>
        exact_of_worth hd hexact.1 hdi _ List.mem_cons_self
  | invert operand ih =>
      obtain ⟨d, hd, h⟩ := Option.bind_eq_some_iff.mp h
      rw [worth, ih hd hexact]
      exact Worth.invert_promoted h
  | abs operand ih =>
      obtain ⟨d, hd, h⟩ := Option.bind_eq_some_iff.mp h
      simp only [overloaded, List.forall_mem_append] at hexact
      rw [worth, ih hd hexact.2]
      exact Worth.abs_promoted h fun hdi =>
        exact_of_worth hd hexact.1 hdi _ List.mem_cons_self
  | cast k operand ih =>
      obtain ⟨d, hd, h⟩ := Option.bind_eq_some_iff.mp h
      rw [worth, ih hd hexact]
      exact Worth.castTo_promoted h
  | select k condition yes no ihc ihy ihn =>
      obtain ⟨b, d, e, hb, ⟨he, hek⟩, ⟨hd, hdk⟩, h⟩ := worth_select.mp h
      simp only [overloaded, List.forall_mem_append] at hexact
      obtain ⟨⟨⟨hhere, hcondition⟩, hyes⟩, hno⟩ := hexact
      refine worth_select.mpr ⟨b, _, _, ihc hb hcondition, ⟨ihn he hno, e.kind_promoted.trans hek⟩,
        ⟨ihy hd hyes, d.kind_promoted.trans hdk⟩, ?_⟩
      exact Worth.choose_promoted h fun hdi hei =>
        exact_of_worths hd he hhere hdi hei _ List.mem_cons_self
  | call f x ih =>
      obtain ⟨m, hm, rfl⟩ := worth_call.mp h
      refine worth_call.mpr ⟨_, ih hm hexact, ?_⟩
      have hcall := Number.toReal_apply_of_notMem (f := f.name) (by cases f <;> decide) [m]
      exact congrArg Worth.real hcall.symm
  | call₂ f x y ihx ihy =>
      obtain ⟨m, hm, n, hn, rfl⟩ := worth_call₂.mp h
      simp only [overloaded, List.forall_mem_append] at hexact
      obtain ⟨⟨hhere, hleft⟩, hright⟩ := hexact
      refine worth_call₂.mpr ⟨_, ihx hm hleft, _, ihy hn hright, ?_⟩
      have hcall := Number.toReal_apply f.name [m, n] fun _ hall => by
        have hmi := Worth.isInteger_real (hall m (by simp))
        have hni := Worth.isInteger_real (hall n (by simp))
        exact exact_of_worths hm hn hhere hmi hni _ List.mem_cons_self
      exact congrArg Worth.real hcall.symm
  | slew x maxRise maxFall ihx ihr ihf =>
      obtain ⟨m, hm, r, hr, f, hf, rfl⟩ := worth_slew.mp h
      simp only [overloaded, List.forall_mem_append] at hexact
      refine worth_slew.mpr ⟨_, ihx hm hexact.1.1, _, ihr hr hexact.1.2, _, ihf hf hexact.2, ?_⟩
      have hcall := Number.toReal_apply_of_notMem (f := "slew") (by decide) [m, r, f]
      exact congrArg Worth.real hcall.symm
  | transition x delay rise fall ihx ihd ihr ihf =>
      obtain ⟨m, hm, p, hp, r, hr, f, hf, rfl⟩ := worth_transition.mp h
      simp only [overloaded, List.forall_mem_append] at hexact
      refine worth_transition.mpr ⟨_, ihx hm hexact.1.1.1, _, ihd hp hexact.1.1.2, _,
        ihr hr hexact.1.2, _, ihf hf hexact.2, ?_⟩
      have hcall := Number.toReal_apply_of_notMem (f := "transition") (by decide) [m, p, r, f]
      exact congrArg Worth.real hcall.symm

end Construction

/-! ### Exact arithmetic -/

namespace Interpretation

/-- An operator between two integers. Quotients are truncated. -/
def arithInt : Arithmetic → Int → Int → Int
  | .add, m, n => m + n
  | .sub, m, n => m - n
  | .mul, m, n => m * n
  | .div, m, n => m.tdiv n
  | .rem, m, n => m.tmod n
  | .shl, m, n => m * 2 ^ n.toNat
  | .shr, m, n => m / 2 ^ n.toNat
  | .bitAnd, m, n => m.land n
  | .bitOr, m, n => m.lor n
  | .bitXor, m, n => m.xor n

/-- An operator between two rationals. -/
def arithRat : Arithmetic → ℚ → ℚ → ℚ
  | .add, x, y => x + y
  | .sub, x, y => x - y
  | .mul, x, y => x * y
  | .div, x, y => x / y
  | .rem, x, y => x - y * (x / y).num.tdiv (x / y).den
  | _, _, _ => 0

/-- A comparison in an order. -/
def compareIn {α : Type} [LinearOrder α] : Comparison → α → α → Bool
  | .lt, x, y => x < y
  | .le, x, y => x ≤ y
  | .gt, x, y => y < x
  | .ge, x, y => y ≤ x
  | .eq, x, y => x = y
  | .ne, x, y => x ≠ y

/-- The functions that follow the types, in an order. -/
def functionIn {α : Type} [LinearOrder α] [AddGroup α] : String → List α → α
  | "abs", [x] => |x|
  | "min", [x, y] => min x y
  | "max", [x, y] => max x y
  | _, _ => 0

/-- Integers without bounds and rationals. There is no infinity here, no analysis runs, and all
branches and all functions of reals alone are 0. -/
@[reducible] def rational (named : String → Number ℤ ℚ) : Interpretation where
  Integer := ℤ
  Real := ℚ
  natural := Int.ofNat
  decimal digits power := digits * 10 ^ power
  promote n := n
  round x := ⌊x + 1 / 2⌋
  integerArith := arithInt
  realArith := arithRat
  negInteger n := -n
  negReal x := -x
  complement n := -n - 1
  integerCompare := compareIn
  realCompare := compareIn
  realChoice c x y := if c then x else y
  integerFunction := functionIn
  realFunction := functionIn
  infinity := 0
  named := named
  probe _ _ := 0
  query _ := false
  integerCompare_mirrored op m n := by cases op <;> simp [compareIn, Comparison.mirrored, eq_comm]
  realCompare_mirrored op x y := by cases op <;> simp [compareIn, Comparison.mirrored, eq_comm]
  integerCompare_eq_toNat a b := by cases a <;> cases b <;> rfl
  integerCompare_ne_toNat a b := by cases a <;> cases b <;> rfl
  bitXor_toNat a b := by cases a <;> cases b <;> rfl

/-- Integers without bounds are exact in the operations that give integers for integers. -/
theorem exact_rational (named : String → Number ℤ ℚ) {o : Overloaded}
    (ho : o.keepsIntegers = true) : (rational named).Exact o := by
  cases o with
  | arith op =>
      intro m n
      cases op <;> cases ho
      case add.refl => exact Int.cast_add m n
      case sub.refl => exact Int.cast_sub m n
      case mul.refl => exact Int.cast_mul m n
  | compare op =>
      intro m n
      cases op <;> simp [compareIn]
  | neg => exact fun n => Int.cast_neg n
  | choice => exact fun c m n => apply_ite _ _ m n
  | function f =>
      intro ns
      have hf : f ∈ Number.following := List.contains_iff_mem.mp ho
      simp only [Number.following, List.mem_cons, List.not_mem_nil, or_false] at hf
      rcases ns with _ | ⟨m, _ | ⟨n, _ | ⟨k, ns⟩⟩⟩ <;> rcases hf with rfl | rfl | rfl <;>
        simp [functionIn]

end Interpretation

/-! ### The text of a real -/

namespace Construction

/-- **The text of a real is evaluated to what it is worth** with reals as they are written. So it is
evaluated to what the construction is worth if all operations on reals that are integers to the
simulator are exact. -/
theorem value_build {c : Construction} {v : Value} (hbuild : c.build = .ok v)
    (hreal : v.kind = .real) (hnames : ∀ t ∈ c.names, Name.check t = .ok ())
    (htypes : ∀ p ∈ c.identifiers, I.Types p.1 p.2) (g : Strengths) :
    ∃ t x, readExpression g v.text = some t ∧ t.value I = some x ∧
      c.worth I.written = some (.real x) ∧
      ((∀ o ∈ c.overloaded, I.Exact o) → c.worth I = some (.real x.toReal)) := by
  obtain ⟨d, hd, hmeans⟩ := means_outline hbuild hnames htypes
  obtain ⟨x, rfl⟩ := Worth.exists_real
    ((kind_of_means hmeans (follows_build hbuild hnames)).trans hreal)
  exact ⟨_, x, (read_build hbuild hnames g).1, hmeans.value_eq, hd,
    fun hexact => worth_promoted hd hexact⟩

/-- Two integers that are used as reals are divided as integers. -/
theorem quotient_of_casts_truncated :
    let c : Construction :=
      .apply (.arith .div) (.cast .real (.integer 7)) (.cast .real (.integer 2))
    let I := Interpretation.rational fun _ => .integer 0
    c.build.toOption.map Value.text = some "( 7 )/( 2 )" ∧
      (∃ t, readExpression .standard "( 7 )/( 2 )" = some t ∧ t.value I = some (.integer 3)) ∧
      c.worth I = some (.real (7 / 2)) ∧ (Number.integer 3 : I.Num).toReal ≠ (7 / 2 : ℚ) := by
  intro c I
  have hbuild : ∃ v, c.build = .ok v ∧ v.kind = .real ∧ v.text = "( 7 )/( 2 )" :=
    ⟨_, rfl, rfl, by decide⟩
  obtain ⟨v, hv, hkind, htext⟩ := hbuild
  have hread := (read_build hv (by decide) .standard).1
  rw [htext] at hread
  refine ⟨by rw [hv]; exact congrArg some htext, ⟨_, hread, ?_⟩, rfl, ?_⟩
  · change (Tree.infixed .div (.ofInt 7) (.ofInt 2)).value I = _
    simp only [Tree.value, Interpretation.value_ofInt]
    rfl
  · change ((3 : ℤ) : ℚ) ≠ 7 / 2
    norm_num

/-- A quotient of reals, of which the dividend is made of integers, is real division. -/
theorem value_build_quotient :
    let c : Construction := .apply (.arith .div)
      (.apply (.arith .add) (.cast .real (.identifier .integer "n")) (.cast .real (.integer 1)))
      (.identifier .real "x")
    let I := Interpretation.rational fun name => if name = "n" then .integer 2 else .real (1 / 2)
    c.build.toOption.map Value.text = some "( ( n )+( 1 ) )/( x )" ∧
      ∃ t, readExpression .standard "( ( n )+( 1 ) )/( x )" = some t ∧
        t.value I = some (.real 6) ∧ c.worth I = some (.real 6) := by
  intro c I
  have hbuild : ∃ v, c.build = .ok v ∧ v.kind = .real ∧ v.text = "( ( n )+( 1 ) )/( x )" :=
    ⟨_, rfl, rfl, by decide⟩
  obtain ⟨v, hv, hkind, htext⟩ := hbuild
  refine ⟨by rw [hv]; exact congrArg some htext, ?_⟩
  have htypes : ∀ p ∈ c.identifiers, I.Types p.1 p.2 := by
    simp only [c, identifiers, List.nil_append, List.append_nil, List.cons_append, List.mem_cons,
      List.not_mem_nil, or_false, forall_eq_or_imp, forall_eq]
    exact ⟨.integer (n := (2 : ℤ)) rfl, .real (r := (1 / 2 : ℚ)) rfl⟩
  obtain ⟨t, x, hread, hvalue, hwritten, hworth⟩ :=
    value_build hv hkind (by decide) htypes .standard
  have hsix : Interpretation.arithRat .div ((2 + 1 : ℤ) : ℚ) (1 / 2) = 6 := by
    norm_num [Interpretation.arithRat]
  have hx : x = .real 6 := by
    have hdirect : c.worth I.written
        = some (.real (Number.real (Interpretation.arithRat .div ((2 + 1 : ℤ) : ℚ) (1 / 2)))) := rfl
    rw [hdirect, hsix] at hwritten
    cases hwritten
    rfl
  subst hx
  rw [htext] at hread
  refine ⟨t, hread, hvalue, hworth fun o ho => Interpretation.exact_rational _ ?_⟩
  exact (show ∀ o ∈ c.overloaded, o.keepsIntegers = true by decide) o ho

end Construction

end Stimulus
