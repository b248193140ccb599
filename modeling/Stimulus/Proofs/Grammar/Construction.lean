import Stimulus.Proofs.Grammar.Reading
import Stimulus.Variable

/-!
# Constructions

A **construction** says by which operations a value is put together. Its **outline** says what the
value should be read as: a node for each operation. Two operations are rewritten. A comparison with
a literal on its left alone is mirrored, and a connective of which an operand is a literal is
replaced by what it comes to. So besides its tree an outline has its kind, whether it is a literal,
and its truth value if it is known.

An outline is made from the outlines of the operands, without a look at any text. The text of
a value, on the other hand, is joined from the texts of the operands, and no tree is kept.

## Main definitions

* `Construction`, `Construction.build`
* `Outline`, `Construction.outline`

## Main results

* `Construction.follows_build`: the outline of what is built.
* `Construction.read_build`: its text is read back as the tree of the outline.
-/

namespace Stimulus

open Build Grammar

/-! ### Outlines -/

/-- What the operations know of a value: its kind, how its text is read, whether it is a literal,
and its truth value if it is a literal bool. -/
structure Outline where
  kind : Kind
  tree : Tree
  constant : Bool
  truth : Option Bool

namespace Outline

/-- What is no literal. -/
def node (k : Kind) (tree : Tree) : Outline :=
  ⟨k, tree, false, none⟩

/-- A literal number. -/
def literal (k : Kind) (tree : Tree) : Outline :=
  ⟨k, tree, true, none⟩

/-- A literal bool. -/
def ofBool (b : Bool) : Outline :=
  ⟨.bool, .ofBool b, true, some b⟩

/-- The real zero. -/
def zeroReal : Outline :=
  literal .real (.ofBinary64 (.ofFloat 0.0))

/-- The integer zero. -/
def zeroInteger : Outline :=
  literal .integer (.ofInt 0)

/-- An operator between two operands. -/
def infixed (k : Kind) (op : Infix) (a b : Outline) : Outline :=
  node k (.infixed op a.tree b.tree)

/-- A choice between two operands. -/
def choice (k : Kind) (c : Outline) (yes no : Tree) : Outline :=
  node k (.choice c.tree yes no)

/-- A comparison, mirrored if its left operand alone is a literal. -/
def compare (op : Comparison) (a b : Outline) : Outline :=
  if a.constant && !b.constant then infixed .bool (.ofComparison op.mirrored) b a
  else infixed .bool (.ofComparison op) a b

/-- The opposite truth value. -/
def negated (a : Outline) : Outline :=
  match a.truth with
  | some b => ofBool (!b)
  | none => node .bool (.prefixed .not a.tree)

/-- A conjunction. -/
def and (a b : Outline) : Outline :=
  match a.truth, b.truth with
  | some false, _ => ofBool false
  | _, some false => ofBool false
  | some true, _ => b
  | _, some true => a
  | none, none => infixed .bool .and a b

/-- A disjunction. -/
def or (a b : Outline) : Outline :=
  match a.truth, b.truth with
  | some true, _ => ofBool true
  | _, some true => ofBool true
  | some false, _ => b
  | _, some false => a
  | none, none => infixed .bool .or a b

/-- An exclusive disjunction. -/
def xor (a b : Outline) : Outline :=
  match a.truth, b.truth with
  | some x, some y => ofBool (x ^^ y)
  | some x, none => if x then b.negated else b
  | none, some y => if y then a.negated else a
  | none, none => infixed .bool .bitXor a b

/-- An operator between two operands of one kind, on which it is defined. -/
def apply (op : BinaryOp) (a b : Outline) : Outline :=
  match op, a.kind with
  | .arith .bitAnd, .bool => a.and b
  | .arith .bitOr, .bool => a.or b
  | .arith .bitXor, .bool => a.xor b
  | .arith op, k => infixed k (.ofArithmetic op) a b
  | .pow, .integer => node .integer (.call Expr.roundName [.call "pow" [a.tree, b.tree]])
  | .pow, k => node k (.call "pow" [a.tree, b.tree])
  | .and, _ => a.and b
  | .or, _ => a.or b
  | .compare op, _ => a.compare op b

/-- The opposite truth value of a bool, the bitwise complement of an integer. -/
def invert (a : Outline) : Outline :=
  match a.kind with
  | .bool => a.negated
  | k => node k (.prefixed .complement a.tree)

/-- The conversion to a kind. An integer that is used as a real stays what it is. -/
def castTo (target : Kind) (a : Outline) : Outline :=
  match a.kind, target with
  | .integer, .real => { a with kind := .real }
  | .bool, .real => a.choice .real (.number "1.0") (.number "0.0")
  | .real, .integer => node .integer (.call Expr.roundName [a.tree])
  | .bool, .integer => a.choice .integer (.ofInt 1) (.ofInt 0)
  | .real, .bool => a.compare .ne zeroReal
  | .integer, .bool => a.compare .ne zeroInteger
  | _, _ => a

end Outline

/-- The outline of an expression. -/
def Expr.outline {k : Kind} (e : Expr k) : Outline :=
  ⟨k, e.tree, e.isConstant, match k, e with | .bool, e => e.truth? | _, _ => none⟩

/-- The outline of a value. -/
def Value.outline (v : Value) : Outline :=
  v.expr.outline

namespace Expr

variable {a b : Expr .bool}

/-- The outline of a negation. -/
theorem outline_negated (a : Expr .bool) : a.negated.outline = a.outline.negated := by
  have ha : a.outline.truth = a.truth? := rfl
  unfold negated Outline.negated
  rw [ha]
  cases a.truth? <;> rfl

/-- The outline of a conjunction. -/
theorem outline_and (a b : Expr .bool) : (a.and b).outline = a.outline.and b.outline := by
  have ha : a.outline.truth = a.truth? := rfl
  have hb : b.outline.truth = b.truth? := rfl
  unfold and Outline.and
  rw [ha, hb]
  rcases a.truth? with _ | _ | _ <;> rcases b.truth? with _ | _ | _ <;> rfl

/-- The outline of a disjunction. -/
theorem outline_or (a b : Expr .bool) : (a.or b).outline = a.outline.or b.outline := by
  have ha : a.outline.truth = a.truth? := rfl
  have hb : b.outline.truth = b.truth? := rfl
  unfold or Outline.or
  rw [ha, hb]
  rcases a.truth? with _ | _ | _ <;> rcases b.truth? with _ | _ | _ <;> rfl

/-- The outline of an exclusive disjunction. -/
theorem outline_xor (a b : Expr .bool) : (a.xor b).outline = a.outline.xor b.outline := by
  have ha : a.outline.truth = a.truth? := rfl
  have hb : b.outline.truth = b.truth? := rfl
  unfold xor Outline.xor
  rw [ha, hb]
  rcases a.truth? with _ | _ | _ <;> rcases b.truth? with _ | _ | _ <;>
    first | rfl | exact outline_negated _

/-- The outline of a comparison. -/
theorem outline_comparison {k : Kind} (op : Comparison) (defined : op.definedOn k = true)
    (a b : Expr k) : (comparison op defined a b).outline = a.outline.compare op b.outline := by
  have ha : a.outline.constant = a.isConstant := rfl
  have hb : b.outline.constant = b.isConstant := rfl
  unfold comparison Outline.compare
  rw [ha, hb]
  split <;> rfl

/-- The outline of a conversion. -/
theorem outline_castTo {k : Kind} (e : Expr k) (target : Kind) :
    (e.castTo target).outline = e.outline.castTo target := by
  cases k <;> cases target
  case real.bool => exact outline_comparison .ne rfl e (.real 0.0)
  case integer.bool => exact outline_comparison .ne rfl e (.integer 0)
  all_goals rfl

/-! ### Legible operands -/

/-- A comparison is written with the texts of its operands. -/
theorem Legible.comparison {k : Kind} {op : Comparison} {defined : op.definedOn k = true}
    {a b : Expr k} (ha : a.Legible) (hb : b.Legible) : (comparison op defined a b).Legible := by
  unfold Expr.comparison
  split
  · exact List.forall_mem_append.mpr ⟨hb, ha⟩
  · exact List.forall_mem_append.mpr ⟨ha, hb⟩

/-- A literal bool is written without texts. -/
theorem legible_bool (b : Bool) : (Expr.bool b).Legible :=
  fun _ ht => absurd ht List.not_mem_nil

/-- A negation is written with the texts of its operand. -/
theorem Legible.negated (ha : a.Legible) : a.negated.Legible := by
  unfold Expr.negated
  split
  · exact legible_bool _
  · exact ha

/-- A conjunction is written with texts of its operands. -/
theorem Legible.and (ha : a.Legible) (hb : b.Legible) : (a.and b).Legible := by
  unfold Expr.and
  split
  · exact legible_bool _
  · exact legible_bool _
  · exact hb
  · exact ha
  · exact List.forall_mem_append.mpr ⟨ha, hb⟩

/-- A disjunction is written with texts of its operands. -/
theorem Legible.or (ha : a.Legible) (hb : b.Legible) : (a.or b).Legible := by
  unfold Expr.or
  split
  · exact legible_bool _
  · exact legible_bool _
  · exact hb
  · exact ha
  · exact List.forall_mem_append.mpr ⟨ha, hb⟩

/-- An exclusive disjunction is written with texts of its operands. -/
theorem Legible.xor (ha : a.Legible) (hb : b.Legible) : (a.xor b).Legible := by
  unfold Expr.xor
  split
  · exact legible_bool _
  · split
    · exact hb.negated
    · exact hb
  · split
    · exact ha.negated
    · exact ha
  · exact List.forall_mem_append.mpr ⟨ha, hb⟩

/-- A conversion is written with the texts of its operand. -/
theorem Legible.castTo {k : Kind} {e : Expr k} (he : e.Legible) (target : Kind) :
    (e.castTo target).Legible := by
  have hzero : (Expr.real 0.0).Legible := fun _ ht => absurd ht List.not_mem_nil
  have hnone : (Expr.integer 0).Legible := fun _ ht => absurd ht List.not_mem_nil
  cases k <;> cases target
  case real.bool => exact Legible.comparison he hzero
  case integer.bool => exact Legible.comparison he hnone
  case bool.integer =>
    exact List.forall_mem_append.mpr ⟨List.forall_mem_append.mpr ⟨he, hnone⟩, hnone⟩
  all_goals exact he

end Expr

/-! ### Values -/

/-- A value that has a given outline and is written with names only. -/
structure Value.Follows (v : Value) (o : Outline) : Prop where
  outline_eq : v.outline = o
  legible : v.expr.Legible

namespace Value.Follows

variable {a b v : Value} {x y : Outline}

/-- An operator between two reals. -/
theorem applyReal {op : BinaryOp} {a b : Expr .real} (ha : a.Legible) (hb : b.Legible)
    (h : Value.applyReal op a b = some v) : v.Follows (a.outline.apply op b.outline) := by
  cases op with
  | arith op =>
      simp only [Value.applyReal, Option.dite_none_right_eq_some, Option.some.injEq] at h
      obtain ⟨_, rfl⟩ := h
      refine ⟨?_, List.forall_mem_append.mpr ⟨ha, hb⟩⟩
      cases op <;> rfl
  | pow =>
      cases h
      exact ⟨rfl, List.forall_mem_append.mpr ⟨ha, hb⟩⟩
  | and => cases h
  | or => cases h
  | compare op =>
      cases h
      exact ⟨Expr.outline_comparison op _ a b, ha.comparison hb⟩

/-- An operator between two integers. -/
theorem applyInteger {op : BinaryOp} {a b : Expr .integer} (ha : a.Legible) (hb : b.Legible)
    (h : Value.applyInteger op a b = some v) : v.Follows (a.outline.apply op b.outline) := by
  cases op with
  | arith op =>
      cases h
      refine ⟨?_, List.forall_mem_append.mpr ⟨ha, hb⟩⟩
      cases op <;> rfl
  | pow =>
      cases h
      exact ⟨rfl, List.forall_mem_append.mpr ⟨ha, hb⟩⟩
  | and => cases h
  | or => cases h
  | compare op =>
      cases h
      exact ⟨Expr.outline_comparison op _ a b, ha.comparison hb⟩

/-- An operator between two bools. -/
theorem applyBool {op : BinaryOp} {a b : Expr .bool} (ha : a.Legible) (hb : b.Legible)
    (h : Value.applyBool op a b = some v) : v.Follows (a.outline.apply op b.outline) := by
  have hand : Value.Follows ⟨_, a.and b⟩ (a.outline.and b.outline) :=
    ⟨Expr.outline_and a b, ha.and hb⟩
  have hor : Value.Follows ⟨_, a.or b⟩ (a.outline.or b.outline) :=
    ⟨Expr.outline_or a b, ha.or hb⟩
  cases op with
  | arith op =>
      cases op <;> cases h
      case arith.bitAnd.refl => exact hand
      case arith.bitOr.refl => exact hor
      case arith.bitXor.refl => exact ⟨Expr.outline_xor a b, ha.xor hb⟩
  | pow => cases h
  | and =>
      cases h
      exact hand
  | or =>
      cases h
      exact hor
  | compare op =>
      simp only [Value.applyBool, Option.dite_none_right_eq_some, Option.some.injEq] at h
      obtain ⟨hdefined, rfl⟩ := h
      exact ⟨Expr.outline_comparison op hdefined a b, ha.comparison hb⟩

/-- An operator between two operands of one kind. -/
theorem applySame {op : BinaryOp} {k : Kind} {a b : Expr k} (ha : a.Legible) (hb : b.Legible)
    (h : Value.applySame op a b = some v) : v.Follows (a.outline.apply op b.outline) := by
  cases k with
  | real => exact applyReal ha hb h
  | integer => exact applyInteger ha hb h
  | bool => exact applyBool ha hb h

/-- An operator between two values. -/
theorem apply {op : BinaryOp} (ha : a.Follows x) (hb : b.Follows y) (h : a.apply op b = .ok v) :
    v.Follows (x.apply op y) := by
  obtain ⟨k, a⟩ := a
  obtain ⟨l, b⟩ := b
  obtain ⟨rfl, ha⟩ := ha
  obtain ⟨rfl, hb⟩ := hb
  unfold Value.apply at h
  split at h
  case isTrue hkind =>
      dsimp only at hkind
      subst hkind
      split at h
      case h_1 w hw =>
          cases h
          exact applySame ha hb hw
      case h_2 => cases h
  case isFalse => cases h

/-- The opposite of a number. -/
theorem negate (ha : a.Follows x) (h : a.negate = .ok v) :
    v.Follows (.node x.kind (.prefixed .minus x.tree)) := by
  obtain ⟨k, a⟩ := a
  obtain ⟨rfl, ha⟩ := ha
  cases k with
  | bool => cases h
  | real =>
      cases h
      exact ⟨rfl, ha⟩
  | integer =>
      cases h
      exact ⟨rfl, ha⟩

/-- The opposite truth value or the complement. -/
theorem invert (ha : a.Follows x) (h : a.invert = .ok v) : v.Follows x.invert := by
  obtain ⟨k, a⟩ := a
  obtain ⟨rfl, ha⟩ := ha
  cases k with
  | real => cases h
  | integer =>
      cases h
      exact ⟨rfl, ha⟩
  | bool =>
      cases h
      exact ⟨a.outline_negated, Expr.Legible.negated ha⟩

/-- A conversion. -/
theorem castTo (ha : a.Follows x) (k : Kind) :
    Value.Follows ⟨k, a.expr.castTo k⟩ (x.castTo k) := by
  obtain ⟨rfl, ha⟩ := ha
  exact ⟨a.expr.outline_castTo k, ha.castTo k⟩

/-- An operand of the kind that is wanted. -/
theorem as {k : Kind} {e : Expr k} (ha : a.Follows x) (h : a.as k = .ok e) :
    e.outline = x ∧ e.Legible := by
  obtain ⟨l, a⟩ := a
  obtain ⟨rfl, ha⟩ := ha
  unfold Value.as Value.asIn at h
  split at h
  case isTrue hkind =>
      dsimp only at hkind
      subst hkind
      cases h
      exact ⟨rfl, ha⟩
  case isFalse => cases h

end Value.Follows

/-! ### Constructions -/

/-- How a value is put together. An operator with a number or a truth value of the caller on one
side is the operator applied to a literal. -/
inductive Construction where
  | real (x : Float)
  | integer (n : Int)
  | bool (b : Bool)
  | identifier (k : Kind) (name : String)
  | access (branch : Branch)
  | environment (quantity : Environment)
  | analysis (types : List Analysis)
  | apply (op : BinaryOp) (lhs rhs : Construction)
  | negate (operand : Construction)
  | invert (operand : Construction)
  | abs (operand : Construction)
  | cast (k : Kind) (operand : Construction)
  | select (k : Kind) (condition yes no : Construction)
  | call (f : UnaryFunction) (x : Construction)
  | call₂ (f : BinaryFunction) (x y : Construction)
  | slew (x maxRise maxFall : Construction)
  | transition (x delay rise fall : Construction)

namespace Construction

/-- The value that is built, if the kinds of all operands are right. -/
def build : Construction → Except Fault Value
  | .real x => .ok ⟨_, .real x⟩
  | .integer n => .ok ⟨_, .integer n⟩
  | .bool b => .ok ⟨_, .bool b⟩
  | .identifier k name => .ok (AnyVariable.value ⟨k, ⟨name⟩⟩)
  | .access b => .ok ⟨_, .access b⟩
  | .environment q => .ok ⟨_, .environment q⟩
  | .analysis types => .ok ⟨_, .analysis types⟩
  | .apply op a b => do (← a.build).apply op (← b.build)
  | .negate a => do (← a.build).negate
  | .invert a => do (← a.build).invert
  | .abs a => do
    match ← a.build with
    | ⟨.real, x⟩ => return ⟨_, x.absReal⟩
    | v => return ⟨_, .abs (by decide) (← v.as .integer)⟩
  | .cast k a => do return ⟨k, (← a.build).expr.castTo k⟩
  | .select k c a b => do
    let c ← (← c.build).as .bool
    let a ← (← a.build).as k
    return ⟨k, .select c a (← (← b.build).as k)⟩
  | .call f x => do return ⟨_, .call f (← (← x.build).as .real)⟩
  | .call₂ f x y => do
    let x ← (← x.build).as .real
    return ⟨_, .call₂ f x (← (← y.build).as .real)⟩
  | .slew x r f => do
    let x ← (← x.build).as .real
    let r ← (← r.build).as .real
    return ⟨_, .slew x r (← (← f.build).as .real)⟩
  | .transition x d r f => do
    let x ← (← x.build).as .real
    let d ← (← d.build).as .real
    let r ← (← r.build).as .real
    return ⟨_, .transition x d r (← (← f.build).as .real)⟩

/-- The outline of a construction. -/
def outline : Construction → Outline
  | .real x => .literal .real (.ofBinary64 (.ofFloat x))
  | .integer n => .literal .integer (.ofInt n)
  | .bool b => .ofBool b
  | .identifier k name => .node k (.name name)
  | .access b => .node .real (.ofBranch b)
  | .environment q => .node .real (.name q.name)
  | .analysis types => .node .bool (.call "analysis" (types.map fun a => .literal a.name))
  | .apply op a b => a.outline.apply op b.outline
  | .negate a => .node a.outline.kind (.prefixed .minus a.outline.tree)
  | .invert a => a.outline.invert
  | .abs a => .node a.outline.kind (.call "abs" [a.outline.tree])
  | .cast k a => a.outline.castTo k
  | .select k c a b => c.outline.choice k a.outline.tree b.outline.tree
  | .call f x => .node .real (.call f.name [x.outline.tree])
  | .call₂ f x y => .node .real (.call f.name [x.outline.tree, y.outline.tree])
  | .slew x r f => .node .real (.call "slew" [x.outline.tree, r.outline.tree, f.outline.tree])
  | .transition x d r f =>
    .node .real (.call "transition"
      [x.outline.tree, d.outline.tree, r.outline.tree, f.outline.tree])

/-- The names with which a construction is written: of variables, nets and buses. -/
def names : Construction → List String
  | .real _ => []
  | .integer _ => []
  | .bool _ => []
  | .identifier _ name => [name]
  | .access b => b.texts
  | .environment _ => []
  | .analysis _ => []
  | .apply _ a b => a.names ++ b.names
  | .negate a => a.names
  | .invert a => a.names
  | .abs a => a.names
  | .cast _ a => a.names
  | .select _ c a b => c.names ++ a.names ++ b.names
  | .call _ x => x.names
  | .call₂ _ x y => x.names ++ y.names
  | .slew x r f => x.names ++ r.names ++ f.names
  | .transition x d r f => x.names ++ d.names ++ r.names ++ f.names

/-- An operand that is built and has to be of a kind. -/
theorem follows_operand {c : Construction} {o : Outline} {k : Kind} {β : Type}
    {f : Expr k → Except Fault β} {y : β} (hc : ∀ {v : Value}, c.build = .ok v → v.Follows o)
    (h : (do let v ← c.build; let e ← v.as k; f e) = .ok y) :
    ∃ e : Expr k, (e.outline = o ∧ e.Legible) ∧ f e = .ok y := by
  obtain ⟨v, hv, h⟩ := check_bind_ok.mp h
  obtain ⟨e, he, h⟩ := check_bind_ok.mp h
  exact ⟨e, (hc hv).as he, h⟩

/-- **What is built follows the outline** of its construction. -/
theorem follows_build {c : Construction} {v : Value} (hbuild : c.build = .ok v)
    (hnames : ∀ t ∈ c.names, Name.check t = .ok ()) : v.Follows c.outline := by
  induction c generalizing v with
  | real x =>
      cases hbuild
      exact ⟨rfl, hnames⟩
  | integer n =>
      cases hbuild
      exact ⟨rfl, hnames⟩
  | bool b =>
      cases hbuild
      exact ⟨rfl, hnames⟩
  | identifier k name =>
      cases hbuild
      refine ⟨?_, hnames⟩
      cases k <;> rfl
  | access b =>
      cases hbuild
      exact ⟨rfl, hnames⟩
  | environment q =>
      cases hbuild
      exact ⟨rfl, hnames⟩
  | analysis types =>
      cases hbuild
      exact ⟨rfl, hnames⟩
  | apply op lhs rhs ihl ihr =>
      simp only [names, List.forall_mem_append] at hnames
      obtain ⟨a, ha, h⟩ := check_bind_ok.mp hbuild
      obtain ⟨b, hb, h⟩ := check_bind_ok.mp h
      exact (ihl ha hnames.1).apply (ihr hb hnames.2) h
  | negate operand ih =>
      obtain ⟨a, ha, h⟩ := check_bind_ok.mp hbuild
      exact (ih ha hnames).negate h
  | invert operand ih =>
      obtain ⟨a, ha, h⟩ := check_bind_ok.mp hbuild
      exact (ih ha hnames).invert h
  | abs operand ih =>
      obtain ⟨⟨k, a⟩, ha, h⟩ := check_bind_ok.mp hbuild
      -- What is not real has to be an integer.
      have hfollows := ih ha hnames
      rw [outline, ← hfollows.outline_eq]
      cases k with
      | real =>
          cases h
          exact ⟨rfl, hfollows.legible⟩
      | integer =>
          obtain ⟨e, he, h⟩ := check_bind_ok.mp h
          cases he
          cases h
          exact ⟨rfl, hfollows.legible⟩
      | bool =>
          obtain ⟨e, he, -⟩ := check_bind_ok.mp h
          cases he
  | cast k operand ih =>
      obtain ⟨a, ha, h⟩ := check_bind_ok.mp hbuild
      cases h
      exact (ih ha hnames).castTo k
  | select k condition yes no ihc ihy ihn =>
      simp only [names, List.forall_mem_append] at hnames
      obtain ⟨⟨hc, hy⟩, hn⟩ := hnames
      obtain ⟨c, hc, h⟩ := follows_operand (fun hv => ihc hv hc) hbuild
      obtain ⟨a, ha, h⟩ := follows_operand (fun hv => ihy hv hy) h
      obtain ⟨b, hb, h⟩ := follows_operand (fun hv => ihn hv hn) h
      cases h
      refine ⟨?_, List.forall_mem_append.mpr ⟨List.forall_mem_append.mpr ⟨hc.2, ha.2⟩, hb.2⟩⟩
      rw [outline, ← hc.1, ← ha.1, ← hb.1]
      cases k <;> rfl
  | call f x ih =>
      obtain ⟨a, ha, h⟩ := follows_operand (fun hv => ih hv hnames) hbuild
      cases h
      rw [outline, ← ha.1]
      exact ⟨rfl, ha.2⟩
  | call₂ f x y ihx ihy =>
      simp only [names, List.forall_mem_append] at hnames
      obtain ⟨a, ha, h⟩ := follows_operand (fun hv => ihx hv hnames.1) hbuild
      obtain ⟨b, hb, h⟩ := follows_operand (fun hv => ihy hv hnames.2) h
      cases h
      rw [outline, ← ha.1, ← hb.1]
      exact ⟨rfl, List.forall_mem_append.mpr ⟨ha.2, hb.2⟩⟩
  | slew x maxRise maxFall ihx ihr ihf =>
      simp only [names, List.forall_mem_append] at hnames
      obtain ⟨⟨hx, hr⟩, hf⟩ := hnames
      obtain ⟨a, ha, h⟩ := follows_operand (fun hv => ihx hv hx) hbuild
      obtain ⟨b, hb, h⟩ := follows_operand (fun hv => ihr hv hr) h
      obtain ⟨c, hc, h⟩ := follows_operand (fun hv => ihf hv hf) h
      cases h
      rw [outline, ← ha.1, ← hb.1, ← hc.1]
      exact ⟨rfl, List.forall_mem_append.mpr ⟨List.forall_mem_append.mpr ⟨ha.2, hb.2⟩, hc.2⟩⟩
  | transition x delay rise fall ihx ihd ihr ihf =>
      simp only [names, List.forall_mem_append] at hnames
      obtain ⟨⟨⟨hx, hd⟩, hr⟩, hf⟩ := hnames
      obtain ⟨a, ha, h⟩ := follows_operand (fun hv => ihx hv hx) hbuild
      obtain ⟨b, hb, h⟩ := follows_operand (fun hv => ihd hv hd) h
      obtain ⟨c, hc, h⟩ := follows_operand (fun hv => ihr hv hr) h
      obtain ⟨d, hd, h⟩ := follows_operand (fun hv => ihf hv hf) h
      cases h
      rw [outline, ← ha.1, ← hb.1, ← hc.1, ← hd.1]
      refine ⟨rfl, List.forall_mem_append.mpr ⟨List.forall_mem_append.mpr
        ⟨List.forall_mem_append.mpr ⟨ha.2, hb.2⟩, hc.2⟩, hd.2⟩⟩

/-- **The text of a value is read back as what was built.** Its tree is the tree of the outline,
however strongly the operators bind, and its parentheses balance. -/
theorem read_build {c : Construction} {v : Value} (hbuild : c.build = .ok v)
    (hnames : ∀ t ∈ c.names, Name.check t = .ok ()) (g : Strengths) :
    readExpression g v.text = some c.outline.tree ∧ Balanced v.text := by
  obtain ⟨houtline, hlegible⟩ := follows_build hbuild hnames
  have hreads := (v.expr.reads_text hlegible).expression
  refine ⟨?_, hreads.nested.balanced⟩
  rw [← houtline]
  exact hreads.read g

/-- A choice whose condition is a choice, with a comparison that is mirrored and a conjunction that
is folded, is read back. -/
theorem read_build_choice :
    let c : Construction := .select .real
      (.select .bool (.apply .and (.bool true) (.identifier .bool "on"))
        (.apply (.compare .lt) (.integer 3) (.identifier .integer "n")) (.bool false))
      (.access ⟨.potential, .scalar "a", some (.bit "b" 2)⟩) (.negate (.identifier .real "x"))
    c.build.toOption.map Value.text
        = some "( on ? ( ( n )>( 3 ) ) : ( 0 ) ) ? ( V(a,b[2]) ) : ( -( x ) )" ∧
      readExpression .standard "( on ? ( ( n )>( 3 ) ) : ( 0 ) ) ? ( V(a,b[2]) ) : ( -( x ) )"
        = some (.choice
          (.choice (.name "on") (.infixed .gt (.name "n") (.number "3")) (.number "0"))
          (.call "V" [.name "a", .element "b" (.number "2")]) (.prefixed .minus (.name "x"))) ∧
      Balanced "( on ? ( ( n )>( 3 ) ) : ( 0 ) ) ? ( V(a,b[2]) ) : ( -( x ) )" := by
  intro c
  have hbuild : ∃ v, c.build = .ok v ∧
      v.text = "( on ? ( ( n )>( 3 ) ) : ( 0 ) ) ? ( V(a,b[2]) ) : ( -( x ) )" :=
    ⟨_, rfl, by decide⟩
  obtain ⟨v, hv, htext⟩ := hbuild
  refine ⟨by rw [hv]; exact congrArg some htext, ?_⟩
  rw [← htext]
  exact read_build hv (by decide) .standard

end Construction

end Stimulus
