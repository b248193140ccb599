import Stimulus.Proofs.Evaluation.Worth

/-!
# Values of texts

A text is evaluated to what its construction is worth, if the reals of the worth are held as they
are written. The evaluation sees neither kinds nor conversions, it sees comparisons with their
operands exchanged, and it does not see what was folded away.

The induction is over the construction, and what it shows is about the outline: the tree of the
outline has the number of the worth as its value, and where the outline knows the truth value,
it is the one of the worth. The second part is what folding needs.

## Main definitions

* `Worth.number`: the number that a text with a worth has.
* `Outline.Means`

## Main results

* `Outline.Means.apply`, `Outline.Means.castTo`, `Outline.Means.choice`: a lemma for each operation.
* `Construction.means_outline`: every outline means what the construction is worth.
-/

namespace Stimulus

open Build Grammar

variable {I : Interpretation}

/-! ### Literals and names -/

namespace Interpretation

/-- The value of an integer literal. -/
@[simp] theorem value_ofInt (n : Int) : (Tree.ofInt n).value I = some (.integer (I.integer n)) := by
  cases n with
  | ofNat n =>
      rw [Tree.ofInt, Tree.value, Numeral.read_toString]
      rfl
  | negSucc n =>
      rw [Tree.ofInt, Tree.value, Tree.value, Numeral.read_toString]
      rfl

/-- The value of a bool literal. -/
@[simp] theorem value_ofBool (b : Bool) : (Tree.ofBool b).value I = some (.integer (I.bit b)) := by
  have hread : Numeral.read (Literal.bool b) = .integer b.toNat := by
    cases b
    · exact Numeral.read_toString 0
    · exact Numeral.read_toString 1
  rw [Tree.ofBool, Tree.value, hread]
  rfl

/-- The value of a real literal. -/
@[simp] theorem value_ofBinary64 (x : Binary64) :
    (Tree.ofBinary64 x).value I = some (.real (I.constant x)) := by
  have hmagnitude (m : Nat) (p : Int) :
      I.numeral (.read (Literal.magnitude m p)) = .real (I.magnitude m p) := by
    rw [Literal.magnitude, Numeral.read_scientific (by decide)]
    rfl
  have hzero : Numeral.read "0.0" = .decimal 0 (-1) := by decide
  cases x with
  | nan =>
      simp only [Tree.ofBinary64, Tree.value, hzero]
      rfl
  | infinite negative => cases negative <;> rfl
  | finite negative m p =>
      cases negative
      · simp only [Tree.ofBinary64, Tree.value, hmagnitude]
        rfl
      · simp only [Tree.ofBinary64, Tree.value, hmagnitude]
        rfl

/-- Constants are written as reals. -/
theorem constant_written (x : Binary64) : I.written.constant x = .real (I.constant x) := by
  cases x with
  | nan => rfl
  | infinite negative => cases negative <;> rfl
  | finite negative m p => cases negative <;> rfl

end Interpretation

namespace Worth

/-- The number that the text of a value with a worth has. -/
def number : Worth I.written → I.Num
  | .real x => x
  | .integer n => .integer n
  | .bool b => .integer (I.bit b)

/-- Names are held as reals are. -/
theorem name_written (x : String) : I.written.name x = I.held (I.name x) := by
  unfold Interpretation.name
  split <;> rfl

/-- A name is worth its value. -/
theorem ofName_written {k : Kind} {x : String} (h : I.Types k x) :
    ∃ d, I.written.ofName k x = some d ∧ d.kind = k ∧ d.number = I.name x := by
  unfold Interpretation.ofName
  rw [name_written]
  cases h with
  | real h =>
      rw [h]
      exact ⟨_, rfl, rfl, rfl⟩
  | integer h =>
      rw [h]
      exact ⟨_, rfl, rfl, rfl⟩
  | @bool _ b h =>
      rw [h]
      refine ⟨_, rfl, rfl, ?_⟩
      change Number.integer (I.bit (Number.isTrue (.integer (I.written.bit b) : I.written.Num))) = _
      rw [Number.isTrue_bit]

/-- A comparison compares the numbers. -/
theorem apply_compare {op : Comparison} {d e : Worth I.written} (hkind : e.kind = d.kind)
    (hop : op.definedOn d.kind = true) :
    d.apply (.compare op) e = some (.bool (Number.compare op d.number e.number)) := by
  cases d <;> cases e <;> cases hkind
  case real.real.refl x y => rfl
  case integer.integer.refl m n => rfl
  case bool.bool.refl a b =>
    cases op <;> cases hop
    case eq.refl =>
      exact congrArg (fun c => some (Worth.bool (I := I.written) c))
        (I.integerCompare_eq_toNat a b).symm
    case ne.refl =>
      exact congrArg (fun c => some (Worth.bool (I := I.written) c))
        (I.integerCompare_ne_toNat a b).symm

/-- A worth of the kind of bools is a truth value. -/
theorem exists_bool {d : Worth I} (h : d.kind = .bool) : ∃ b, d = .bool b := by
  cases d <;> cases h
  exact ⟨_, rfl⟩

/-- A worth of the kind of reals is a real. -/
theorem exists_real {d : Worth I} (h : d.kind = .real) : ∃ x, d = .real x := by
  cases d <;> cases h
  exact ⟨_, rfl⟩

end Worth

/-! ### Outlines -/

/-- Whether an operator is defined on two operands of a kind. The bitwise operators act on bools as
the connectives. -/
def BinaryOp.definedOn : BinaryOp → Kind → Bool
  | .arith .bitAnd, .bool | .arith .bitOr, .bool | .arith .bitXor, .bool => true
  | .arith op, k => op.definedOn k
  | .pow, k => k != .bool
  | .and, k | .or, k => k == .bool
  | .compare op, k => op.definedOn k

namespace Value

/-- An operator that is applied to expressions of a kind is defined on it. -/
theorem definedOn_of_applySame {op : BinaryOp} {k : Kind} {a b : Expr k} {v : Value}
    (h : applySame op a b = some v) : op.definedOn k = true := by
  cases k with
  | real =>
      cases op with
      | arith op =>
          simp only [applySame, applyReal, Option.dite_none_right_eq_some] at h
          obtain ⟨hop, -⟩ := h
          cases op <;> exact hop
      | pow => rfl
      | and => cases h
      | or => cases h
      | compare op => exact op.definedOn_of_ne_bool (by decide)
  | integer =>
      cases op with
      | arith op => cases op <;> rfl
      | pow => rfl
      | and => cases h
      | or => cases h
      | compare op => exact op.definedOn_of_ne_bool (by decide)
  | bool =>
      cases op with
      | arith op => cases op <;> cases h <;> rfl
      | pow => cases h
      | and => rfl
      | or => rfl
      | compare op =>
          simp only [applySame, applyBool, Option.dite_none_right_eq_some] at h
          exact h.1

/-- An operator that is applied to values is defined on their kind, which is the same. -/
theorem definedOn_of_apply {op : BinaryOp} {a b v : Value} (h : a.apply op b = .ok v) :
    b.kind = a.kind ∧ op.definedOn a.kind = true := by
  obtain ⟨k, a⟩ := a
  obtain ⟨l, b⟩ := b
  unfold apply at h
  split at h
  case isTrue hkind =>
      dsimp only at hkind
      subst hkind
      split at h
      case h_1 w hw => exact ⟨rfl, definedOn_of_applySame hw⟩
      case h_2 => cases h
  case isFalse => cases h

end Value

/-- An outline of what has a worth: of the kind of the worth, and evaluated to its number. -/
structure Outline.Means (I : Interpretation) (o : Outline) (d : Worth I.written) : Prop where
  kind_eq : d.kind = o.kind
  value_eq : o.tree.value I = some d.number
  truth : ∀ b, o.truth = some b → d = .bool b

/-! ### Calls -/

section Calls

variable {f : String} {xs : List Tree} {x y : Tree} {m n : I.Num} {ns : List I.Num}

/-- The functions of numbers other than the rounding function. -/
def IsNumeric (f : String) : Prop :=
  f ∉ Expr.roundName :: "analysis" :: accessFunctions

instance (f : String) : Decidable (IsNumeric f) :=
  inferInstanceAs (Decidable (f ∉ _))

/-- A call of a function of numbers. -/
theorem value_call (hf : IsNumeric f) (h : Tree.values I xs = some ns) :
    (Tree.call f xs).value I = some (.apply f ns) := by
  simp only [IsNumeric, List.mem_cons, not_or] at hf
  rw [Tree.value, if_neg (by simpa using hf.2.2), if_neg hf.2.1, h]
  exact if_neg hf.1

/-- The values of two trees. -/
theorem values_pair (hx : x.value I = some m) (hy : y.value I = some n) :
    Tree.values I [x, y] = some [m, n] := by
  simp [Tree.values, hx, hy]

/-- A number that is rounded. -/
theorem value_round (h : x.value I = some n) :
    (Tree.call Expr.roundName [x]).value I = some (.integer (I.round n.toReal)) := by
  rw [Tree.value, if_neg (by decide), if_neg (by decide)]
  simp [Tree.values, h, Number.call]

end Calls

namespace Outline.Means

variable {x y z : Outline} {d e : Worth I.written} {a b c : Bool}

/-- A literal bool. -/
theorem ofBool (b : Bool) : (Outline.ofBool b).Means I (.bool b) := by
  refine ⟨rfl, Interpretation.value_ofBool b, ?_⟩
  rintro _ ⟨⟩
  rfl

/-- What has no known truth value. -/
theorem node {k : Kind} {t : Tree} (hkind : d.kind = k) (h : t.value I = some d.number) :
    (Outline.node k t).Means I d :=
  ⟨hkind, h, fun _ hb => absurd hb (by simp [Outline.node])⟩

/-- A literal number. -/
theorem literal {k : Kind} {t : Tree} (hkind : d.kind = k) (h : t.value I = some d.number) :
    (Outline.literal k t).Means I d :=
  ⟨hkind, h, fun _ hb => absurd hb (by simp [Outline.literal])⟩

/-- A negation. -/
theorem negated (ha : x.Means I (.bool a)) : x.negated.Means I (.bool !a) := by
  unfold Outline.negated
  split
  case h_1 hx =>
    cases ha.truth _ hx
    exact .ofBool _
  case h_2 =>
    refine .node rfl ?_
    simp only [Tree.value, ha.value_eq, Option.bind_eq_bind, Option.bind_some, Number.prefixed,
      Worth.number, Number.isTrue_bit]

/-- A conjunction. -/
theorem and (ha : x.Means I (.bool a)) (hb : y.Means I (.bool b)) :
    (x.and y).Means I (.bool (a && b)) := by
  unfold Outline.and
  split
  case h_1 hx =>
    cases ha.truth _ hx
    exact .ofBool _
  case h_2 hy _ =>
    cases hb.truth _ hy
    rw [Bool.and_false]
    exact .ofBool _
  case h_3 hx _ =>
    cases ha.truth _ hx
    exact hb
  case h_4 hy _ _ =>
    cases hb.truth _ hy
    rw [Bool.and_true]
    exact ha
  case h_5 =>
    refine .node rfl ?_
    simp only [Tree.value, ha.value_eq, hb.value_eq, Option.bind_eq_bind, Option.bind_some,
      Number.infixed, Worth.number, Number.isTrue_bit]

/-- A disjunction. -/
theorem or (ha : x.Means I (.bool a)) (hb : y.Means I (.bool b)) :
    (x.or y).Means I (.bool (a || b)) := by
  unfold Outline.or
  split
  case h_1 hx =>
    cases ha.truth _ hx
    exact .ofBool _
  case h_2 hy _ =>
    cases hb.truth _ hy
    rw [Bool.or_true]
    exact .ofBool _
  case h_3 hx _ =>
    cases ha.truth _ hx
    exact hb
  case h_4 hy _ _ =>
    cases hb.truth _ hy
    rw [Bool.or_false]
    exact ha
  case h_5 =>
    refine .node rfl ?_
    simp only [Tree.value, ha.value_eq, hb.value_eq, Option.bind_eq_bind, Option.bind_some,
      Number.infixed, Worth.number, Number.isTrue_bit]

/-- An exclusive disjunction. -/
theorem xor (ha : x.Means I (.bool a)) (hb : y.Means I (.bool b)) :
    (x.xor y).Means I (.bool (a ^^ b)) := by
  unfold Outline.xor
  split
  case h_1 hx hy =>
    cases ha.truth _ hx
    cases hb.truth _ hy
    exact .ofBool _
  case h_2 hx _ =>
    cases ha.truth _ hx
    cases a
    · rw [Bool.false_xor]
      exact hb
    · rw [Bool.true_xor]
      exact hb.negated
  case h_3 hy =>
    cases hb.truth _ hy
    cases b
    · rw [Bool.xor_false]
      exact ha
    · rw [Bool.xor_true]
      exact ha.negated
  case h_4 =>
    refine .node rfl ?_
    have hbits := I.bitXor_toNat a b
    simp only [Tree.value, ha.value_eq, hb.value_eq, Option.bind_eq_bind, Option.bind_some,
      Number.infixed, Worth.number, Number.arith?, Interpretation.bit, hbits]

/-- A comparison, of which the operands may be exchanged. -/
theorem compare {op : Comparison} (hd : x.Means I d) (he : y.Means I e) :
    (x.compare op y).Means I (.bool (Number.compare op d.number e.number)) := by
  have hinfixed (op : Comparison) {x y : Outline} {d e : Worth I.written} (hd : x.Means I d)
      (he : y.Means I e) : (infixed .bool (.ofComparison op) x y).Means I
        (.bool (Number.compare op d.number e.number)) := by
    refine .node rfl ?_
    simp only [Tree.value, hd.value_eq, he.value_eq, Option.bind_eq_bind, Option.bind_some,
      Number.infixed_ofComparison, Worth.number]
  unfold Outline.compare
  split
  · have hmirrored : Number.compare op.mirrored e.number d.number
        = Number.compare op d.number e.number :=
      I.written.realCompare_mirrored op d.number e.number
    rw [← hmirrored]
    exact hinfixed op.mirrored he hd
  · exact hinfixed op hd he

/-- A choice. -/
theorem choice {k : Kind} (hc : z.Means I (.bool c)) (hd : x.Means I d) (he : y.Means I e)
    (hdk : d.kind = k) (hek : e.kind = k) :
    ∃ r, d.choose c e = some r ∧ (Outline.choice k z x.tree y.tree).Means I r := by
  have hvalue : (Tree.choice z.tree x.tree y.tree).value I
      = some (.choose c d.number e.number) := by
    simp only [Tree.value, hc.value_eq, hd.value_eq, he.value_eq, Option.bind_eq_bind,
      Option.bind_some, Worth.number, Number.isTrue_bit, Option.pure_def]
  subst hdk
  cases d <;> cases e <;> cases hek
  case real.real.refl x y => exact ⟨_, rfl, .node rfl hvalue⟩
  case integer.integer.refl m n => exact ⟨_, rfl, .node rfl hvalue⟩
  case bool.bool.refl a b =>
    refine ⟨_, rfl, .node rfl (hvalue.trans ?_)⟩
    cases c <;> rfl

/-- An operator between two operands of one kind, on which it is defined. -/
theorem apply {op : BinaryOp} (hd : x.Means I d) (he : y.Means I e) (hkind : e.kind = d.kind)
    (hop : op.definedOn d.kind = true) :
    ∃ r, d.apply op e = some r ∧ (x.apply op y).Means I r := by
  cases op with
  | compare op =>
      refine ⟨_, Worth.apply_compare hkind ?_, hd.compare he⟩
      exact hop
  | and =>
      obtain ⟨a, rfl⟩ := Worth.exists_bool (eq_of_beq hop)
      obtain ⟨b, rfl⟩ := Worth.exists_bool hkind
      exact ⟨_, rfl, hd.and he⟩
  | or =>
      obtain ⟨a, rfl⟩ := Worth.exists_bool (eq_of_beq hop)
      obtain ⟨b, rfl⟩ := Worth.exists_bool hkind
      exact ⟨_, rfl, hd.or he⟩
  | pow =>
      have hpow : (Tree.call "pow" [x.tree, y.tree]).value I
          = some (.apply "pow" [d.number, e.number]) :=
        value_call (by decide) (values_pair hd.value_eq he.value_eq)
      unfold Outline.apply
      rw [← hd.kind_eq]
      cases d <;> cases e <;> cases hkind
      case real.real.refl => exact ⟨_, rfl, .node rfl hpow⟩
      case integer.integer.refl => exact ⟨_, rfl, .node rfl (value_round hpow)⟩
      case bool.bool.refl => cases hop
  | arith op =>
      have hinfixed {n : I.Num} (h : Number.arith? op d.number e.number = some n) :
          (Tree.infixed (.ofArithmetic op) x.tree y.tree).value I = some n := by
        simp only [Tree.value, hd.value_eq, he.value_eq, Option.bind_eq_bind, Option.bind_some,
          Number.infixed_ofArithmetic, h]
      unfold Outline.apply
      rw [← hd.kind_eq]
      cases d <;> cases e <;> cases hkind
      case real.real.refl m n =>
        have harith : Number.arith? op m n = some (.arith op m n) :=
          Number.arith?_eq (by cases op <;> first | rfl | cases hop) m n
        cases op <;> first | exact ⟨_, rfl, .node rfl (hinfixed harith)⟩ | cases hop
      case integer.integer.refl m n =>
        cases op <;> exact ⟨_, rfl, .node rfl (hinfixed rfl)⟩
      case bool.bool.refl a b =>
        cases op <;> cases hop
        case bitAnd.refl => exact ⟨_, rfl, hd.and he⟩
        case bitOr.refl => exact ⟨_, rfl, hd.or he⟩
        case bitXor.refl => exact ⟨_, rfl, hd.xor he⟩

/-- The opposite of a number. -/
theorem negate (hd : x.Means I d) (hkind : d.kind ≠ .bool) :
    ∃ r, d.negate = some r ∧ (Outline.node x.kind (.prefixed .minus x.tree)).Means I r := by
  have hvalue : (Tree.prefixed .minus x.tree).value I = some d.number.neg := by
    simp only [Tree.value, hd.value_eq, Option.bind_eq_bind, Option.bind_some, Number.prefixed]
  rw [← hd.kind_eq]
  cases d
  case real => exact ⟨_, rfl, .node rfl hvalue⟩
  case integer => exact ⟨_, rfl, .node rfl hvalue⟩
  case bool => exact absurd rfl hkind

/-- The opposite truth value or the complement. -/
theorem invert (hd : x.Means I d) (hkind : d.kind ≠ .real) :
    ∃ r, d.invert = some r ∧ x.invert.Means I r := by
  unfold Outline.invert
  rw [← hd.kind_eq]
  cases d
  case real => exact absurd rfl hkind
  case integer n =>
    refine ⟨_, rfl, .node rfl ?_⟩
    simp only [Tree.value, hd.value_eq, Option.bind_eq_bind, Option.bind_some, Number.prefixed,
      Worth.number]
  case bool => exact ⟨_, rfl, hd.negated⟩

/-- The absolute value of a number. -/
theorem abs (hd : x.Means I d) (hkind : d.kind ≠ .bool) :
    ∃ r, d.abs = some r ∧ (Outline.node x.kind (.call "abs" [x.tree])).Means I r := by
  have hvalue : (Tree.call "abs" [x.tree]).value I = some (.apply "abs" [d.number]) :=
    value_call (by decide) (by simp [Tree.values, hd.value_eq])
  rw [← hd.kind_eq]
  cases d
  case real => exact ⟨_, rfl, .node rfl hvalue⟩
  case integer => exact ⟨_, rfl, .node rfl hvalue⟩
  case bool => exact absurd rfl hkind

/-- A conversion. -/
theorem castTo (hd : x.Means I d) (k : Kind) :
    ∃ r, d.castTo k = some r ∧ (x.castTo k).Means I r := by
  unfold Outline.castTo
  rw [← hd.kind_eq]
  cases d <;> cases k
  case real.real => exact ⟨_, rfl, hd⟩
  case real.integer => exact ⟨_, rfl, .node rfl (value_round hd.value_eq)⟩
  case real.bool r =>
    refine ⟨_, rfl, ?_⟩
    rw [Interpretation.constant_written]
    exact hd.compare (literal (d := .real _) rfl (Interpretation.value_ofBinary64 _))
  case integer.real n =>
    refine ⟨_, rfl, rfl, hd.value_eq, fun b hb => ?_⟩
    cases hd.truth b hb
  case integer.integer => exact ⟨_, rfl, hd⟩
  case integer.bool n =>
    exact ⟨_, rfl, hd.compare (literal (d := .integer _) rfl (Interpretation.value_ofInt 0))⟩
  case bool.real b =>
    have hone : Numeral.read "1.0" = .decimal 10 (-1) := by decide
    have hzero : Numeral.read "0.0" = .decimal 0 (-1) := by decide
    refine ⟨_, rfl, .node rfl ?_⟩
    simp only [Tree.value, hd.value_eq, Option.bind_eq_bind, Option.bind_some, Worth.number,
      Number.isTrue_bit, hone, hzero, Option.pure_def]
    rfl
  case bool.integer b =>
    refine ⟨_, rfl, .node rfl ?_⟩
    simp only [Tree.value, hd.value_eq, Option.bind_eq_bind, Option.bind_some, Worth.number,
      Number.isTrue_bit, Interpretation.value_ofInt, Option.pure_def]
    cases b <;> rfl
  case bool.bool => exact ⟨_, rfl, hd⟩

end Outline.Means

/-! ### Constructions -/

namespace Construction

/-- A worth has the kind of the value that is built. -/
theorem kind_of_means {c : Construction} {v : Value} {d : Worth I.written}
    (hd : c.outline.Means I d) (hv : v.Follows c.outline) : d.kind = v.kind :=
  hd.kind_eq.trans (congrArg Outline.kind hv.outline_eq).symm

/-- The worth of an operand that has to be of a kind. -/
theorem means_operand {c : Construction} {k : Kind} {β : Type} {f : Expr k → Except Fault β}
    {y : β}
    (ih : ∀ {v : Value}, c.build = .ok v → (∀ t ∈ c.names, Name.check t = .ok ()) →
      (∀ p ∈ c.identifiers, I.Types p.1 p.2) →
      ∃ d, c.worth I.written = some d ∧ c.outline.Means I d)
    (hnames : ∀ t ∈ c.names, Name.check t = .ok ())
    (htypes : ∀ p ∈ c.identifiers, I.Types p.1 p.2)
    (h : (do let v ← c.build; let e ← v.as k; f e) = .ok y) :
    ∃ d e, (c.worth I.written = some d ∧ c.outline.Means I d ∧ d.kind = k) ∧
      f e = .ok y := by
  obtain ⟨v, hv, h⟩ := check_bind_ok.mp h
  obtain ⟨e, he, h⟩ := check_bind_ok.mp h
  obtain ⟨d, hd, hmeans⟩ := ih hv hnames htypes
  have hkind : v.kind = k := by
    unfold Value.as Value.asIn at he
    split at he
    case isTrue hkind => exact hkind
    case isFalse => cases he
  exact ⟨d, e, ⟨hd, hmeans, (kind_of_means hmeans (follows_build hv hnames)).trans hkind⟩, h⟩

/-- The worth of an operand that has to be real. -/
theorem real_operand {c : Construction} {β : Type} {f : Expr .real → Except Fault β} {y : β}
    (ih : ∀ {v : Value}, c.build = .ok v → (∀ t ∈ c.names, Name.check t = .ok ()) →
      (∀ p ∈ c.identifiers, I.Types p.1 p.2) →
      ∃ d, c.worth I.written = some d ∧ c.outline.Means I d)
    (hnames : ∀ t ∈ c.names, Name.check t = .ok ())
    (htypes : ∀ p ∈ c.identifiers, I.Types p.1 p.2)
    (h : (do let v ← c.build; let e ← v.as .real; f e) = .ok y) :
    ∃ (n : I.Num) (e : Expr .real),
      (c.worth I.written = some (.real n) ∧ c.outline.tree.value I = some n) ∧
      f e = .ok y := by
  obtain ⟨d, e, ⟨hd, hmeans, hkind⟩, h⟩ := means_operand ih hnames htypes h
  obtain ⟨n, rfl⟩ := Worth.exists_real hkind
  exact ⟨n, e, ⟨hd, hmeans.value_eq⟩, h⟩

/-- **What is built means what it is worth**, if its reals are held as they are written. -/
theorem means_outline {c : Construction} {v : Value} (hbuild : c.build = .ok v)
    (hnames : ∀ t ∈ c.names, Name.check t = .ok ())
    (htypes : ∀ p ∈ c.identifiers, I.Types p.1 p.2) :
    ∃ d, c.worth I.written = some d ∧ c.outline.Means I d := by
  induction c generalizing v with
  | real x =>
      refine ⟨_, rfl, .literal rfl ?_⟩
      rw [Interpretation.value_ofBinary64, Interpretation.constant_written]
      rfl
  | integer n => exact ⟨_, rfl, .literal rfl (Interpretation.value_ofInt n)⟩
  | bool b => exact ⟨_, rfl, .ofBool b⟩
  | identifier k x =>
      obtain ⟨d, hd, hkind, hnumber⟩ :=
        Worth.ofName_written (htypes (k, x) (by simp [identifiers]))
      exact ⟨d, hd, .node hkind (by rw [hnumber, Tree.value])⟩
  | access b =>
      refine ⟨_, rfl, .node rfl ?_⟩
      rw [Tree.ofBranch, Tree.value, if_pos (by cases b.nature <;> decide)]
      rfl
  | environment q =>
      obtain ⟨d, hd, hkind, hnumber⟩ :=
        Worth.ofName_written (htypes (.real, q.name) (by simp [identifiers]))
      exact ⟨d, hd, .node hkind (by rw [hnumber, Tree.value])⟩
  | analysis types => exact ⟨_, rfl, .node rfl rfl⟩
  | apply op lhs rhs ihl ihr =>
      simp only [names, identifiers, List.forall_mem_append] at hnames htypes
      obtain ⟨a, ha, h⟩ := check_bind_ok.mp hbuild
      obtain ⟨b, hb, h⟩ := check_bind_ok.mp h
      obtain ⟨d, hd, hdmeans⟩ := ihl ha hnames.1 htypes.1
      obtain ⟨e, he, hemeans⟩ := ihr hb hnames.2 htypes.2
      have hdkind := kind_of_means hdmeans (follows_build ha hnames.1)
      have hekind := kind_of_means hemeans (follows_build hb hnames.2)
      obtain ⟨hkind, hop⟩ := Value.definedOn_of_apply h
      rw [worth, hd, he]
      exact hdmeans.apply hemeans (by rw [hdkind, hekind, hkind]) (by rw [hdkind, hop])
  | negate operand ih =>
      obtain ⟨a, ha, h⟩ := check_bind_ok.mp hbuild
      obtain ⟨d, hd, hmeans⟩ := ih ha hnames htypes
      have hkind := kind_of_means hmeans (follows_build ha hnames)
      rw [worth, hd]
      refine hmeans.negate fun hbool => ?_
      rw [hkind] at hbool
      simp [Value.negate, hbool] at h
  | invert operand ih =>
      obtain ⟨⟨k, a⟩, ha, h⟩ := check_bind_ok.mp hbuild
      obtain ⟨d, hd, hmeans⟩ := ih ha hnames htypes
      have hkind := kind_of_means hmeans (follows_build ha hnames)
      rw [worth, hd]
      refine hmeans.invert fun hreal => ?_
      obtain rfl : k = .real := hkind.symm.trans hreal
      cases h
  | abs operand ih =>
      obtain ⟨⟨k, a⟩, ha, h⟩ := check_bind_ok.mp hbuild
      obtain ⟨d, hd, hmeans⟩ := ih ha hnames htypes
      have hkind := kind_of_means hmeans (follows_build ha hnames)
      rw [worth, hd]
      refine hmeans.abs fun hbool => ?_
      obtain rfl : k = .bool := hkind.symm.trans hbool
      cases h
  | cast k operand ih =>
      obtain ⟨a, ha, h⟩ := check_bind_ok.mp hbuild
      obtain ⟨d, hd, hmeans⟩ := ih ha hnames htypes
      rw [worth, hd]
      exact hmeans.castTo k
  | select k condition yes no ihc ihy ihn =>
      simp only [names, identifiers, List.forall_mem_append] at hnames htypes
      obtain ⟨⟨hcnames, hynames⟩, hnnames⟩ := hnames
      obtain ⟨⟨hctypes, hytypes⟩, hntypes⟩ := htypes
      obtain ⟨c, e, ⟨hc, hcmeans, hckind⟩, h⟩ := means_operand ihc hcnames hctypes hbuild
      obtain ⟨d, e, ⟨hd, hdmeans, hdkind⟩, h⟩ := means_operand ihy hynames hytypes h
      obtain ⟨e, -, ⟨he, hemeans, hekind⟩, -⟩ := means_operand ihn hnnames hntypes h
      obtain ⟨c, rfl⟩ := Worth.exists_bool hckind
      obtain ⟨r, hr, hmeans⟩ := hcmeans.choice hdmeans hemeans hdkind hekind
      exact ⟨r, worth_select.mpr ⟨c, d, e, hc, ⟨he, hekind⟩, ⟨hd, hdkind⟩, hr⟩, hmeans⟩
  | call f x ih =>
      obtain ⟨m, -, ⟨hm, hmvalue⟩, -⟩ := real_operand ih hnames htypes hbuild
      refine ⟨.real (.apply f.name [m]), worth_call.mpr ⟨m, hm, rfl⟩, .node rfl ?_⟩
      exact value_call (by cases f <;> decide) (by simp [Tree.values, hmvalue])
  | call₂ f x y ihx ihy =>
      simp only [names, identifiers, List.forall_mem_append] at hnames htypes
      obtain ⟨m, e, ⟨hm, hmvalue⟩, h⟩ := real_operand ihx hnames.1 htypes.1 hbuild
      obtain ⟨n, -, ⟨hn, hnvalue⟩, -⟩ := real_operand ihy hnames.2 htypes.2 h
      refine ⟨.real (.apply f.name [m, n]), worth_call₂.mpr ⟨m, hm, n, hn, rfl⟩,
        .node rfl ?_⟩
      exact value_call (by cases f <;> decide) (values_pair hmvalue hnvalue)
  | slew x maxRise maxFall ihx ihr ihf =>
      simp only [names, identifiers, List.forall_mem_append] at hnames htypes
      obtain ⟨m, e, ⟨hm, hmvalue⟩, h⟩ := real_operand ihx hnames.1.1 htypes.1.1 hbuild
      obtain ⟨r, e, ⟨hr, hrvalue⟩, h⟩ := real_operand ihr hnames.1.2 htypes.1.2 h
      obtain ⟨f, -, ⟨hf, hfvalue⟩, -⟩ := real_operand ihf hnames.2 htypes.2 h
      refine ⟨.real (.apply "slew" [m, r, f]), worth_slew.mpr ⟨m, hm, r, hr, f, hf, rfl⟩,
        .node rfl ?_⟩
      exact value_call (by decide) (by simp [Tree.values, hmvalue, hrvalue, hfvalue])
  | transition x delay rise fall ihx ihd ihr ihf =>
      simp only [names, identifiers, List.forall_mem_append] at hnames htypes
      obtain ⟨m, e, ⟨hm, hmvalue⟩, h⟩ := real_operand ihx hnames.1.1.1 htypes.1.1.1 hbuild
      obtain ⟨d, e, ⟨hd, hdvalue⟩, h⟩ := real_operand ihd hnames.1.1.2 htypes.1.1.2 h
      obtain ⟨r, e, ⟨hr, hrvalue⟩, h⟩ := real_operand ihr hnames.1.2 htypes.1.2 h
      obtain ⟨f, -, ⟨hf, hfvalue⟩, -⟩ := real_operand ihf hnames.2 htypes.2 h
      refine ⟨.real (.apply "transition" [m, d, r, f]),
        worth_transition.mpr ⟨m, hm, d, hd, r, hr, f, hf, rfl⟩, .node rfl ?_⟩
      exact value_call (by decide) (by simp [Tree.values, hmvalue, hdvalue, hrvalue, hfvalue])

end Construction

end Stimulus
