import Stimulus.Proofs.Evaluation.Promotion

/-!
# Conditions that are folded and mirrored

The text of a condition leaves out what its construction says. A connective with a literal operand
is replaced by what it comes to, a comparison with a literal on its left alone is written the other
way round, and what is left after folding may be folded again by the next connective. The worth of
a construction knows nothing of this, so a condition is right if its text is evaluated to its worth.

Only the kinds have to fit. A construction whose operators are applied to operands they are defined
on is **well kinded**, and it is always built. One that is made of literal bools by connectives is
**settled**: nothing but a literal is left of it.

## Main definitions

* `Construction.wellKinded`, `Construction.settled`
* `Construction.promotes`: whether an integer is used as a real.

## Main results

* `Construction.exists_build`: what is well kinded is built.
* `Construction.value_condition`: the value of the text of a condition.
-/

namespace Stimulus

open Build Grammar

/-- An operator between two values of a kind it is defined on. -/
theorem Value.apply_of_definedOn (op : BinaryOp) {a b : Value} (hkind : b.kind = a.kind)
    (hop : op.definedOn a.kind = true) :
    ∃ v, a.apply op b = .ok v ∧ v.kind = op.resultKind a.kind := by
  obtain ⟨k, a⟩ := a
  obtain ⟨l, b⟩ := b
  dsimp only at hkind hop ⊢
  subst hkind
  have hsame : ∃ v, applySame op a b = some v ∧ v.kind = op.resultKind l := by
    cases l with
    | real =>
        cases op with
        | arith op => cases op <;> cases hop <;> exact ⟨_, rfl, rfl⟩
        | pow => exact ⟨_, rfl, rfl⟩
        | and => cases hop
        | or => cases hop
        | compare op => exact ⟨_, rfl, rfl⟩
    | integer =>
        cases op with
        | arith op => exact ⟨_, rfl, rfl⟩
        | pow => exact ⟨_, rfl, rfl⟩
        | and => cases hop
        | or => cases hop
        | compare op => exact ⟨_, rfl, rfl⟩
    | bool =>
        cases op with
        | arith op => cases op <;> cases hop <;> exact ⟨_, rfl, rfl⟩
        | pow => cases hop
        | and => exact ⟨_, rfl, rfl⟩
        | or => exact ⟨_, rfl, rfl⟩
        | compare op => exact ⟨_, dif_pos hop, rfl⟩
  obtain ⟨v, hv, hresult⟩ := hsame
  refine ⟨v, ?_, hresult⟩
  simp only [apply, dif_pos, hv]

/-- A value with a known truth value is a literal. -/
theorem Value.eq_of_truth {v : Value} {b : Bool} (h : v.outline.truth = some b) :
    v = ⟨.bool, .bool b⟩ := by
  obtain ⟨k, e⟩ := v
  cases k with
  | real => cases h
  | integer => cases h
  | bool =>
      change e.truth? = some b at h
      unfold Expr.truth? at h
      split at h <;> cases h
      rfl

namespace Construction

/-! ### Kinds -/

/-- Whether every operation is applied to operands of kinds it is defined on. -/
def wellKinded : Construction → Bool
  | .real _ => true
  | .integer _ => true
  | .bool _ => true
  | .identifier _ _ => true
  | .access _ => true
  | .environment _ => true
  | .analysis _ => true
  | .apply op a b => a.wellKinded && b.wellKinded && b.kind == a.kind && op.definedOn a.kind
  | .negate a => a.wellKinded && a.kind != .bool
  | .invert a => a.wellKinded && a.kind != .real
  | .abs a => a.wellKinded && a.kind != .bool
  | .cast _ a => a.wellKinded
  | .select k c a b =>
    c.wellKinded && a.wellKinded && b.wellKinded && c.kind == .bool && a.kind == k && b.kind == k
  | .call _ x => x.wellKinded && x.kind == .real
  | .call₂ _ x y => x.wellKinded && y.wellKinded && x.kind == .real && y.kind == .real
  | .slew x r f =>
    x.wellKinded && r.wellKinded && f.wellKinded && x.kind == .real && r.kind == .real
      && f.kind == .real
  | .transition x d r f =>
    x.wellKinded && d.wellKinded && r.wellKinded && f.wellKinded && x.kind == .real
      && d.kind == .real && r.kind == .real && f.kind == .real

/-- An operand that is built and is of the kind that is wanted. -/
theorem exists_operand {c : Construction} {k : Kind}
    (ih : ∃ v, c.build = .ok v ∧ v.kind = c.kind) (hkind : c.kind = k) :
    ∃ e, ∀ f : Expr k → Except Fault Value,
      (do let v ← c.build; let e ← v.as k; f e) = f e := by
  obtain ⟨v, hv, hvkind⟩ := ih
  refine ⟨hvkind.trans hkind ▸ v.expr, fun f => ?_⟩
  have has : v.as k = .ok (hvkind.trans hkind ▸ v.expr) := dif_pos (hvkind.trans hkind)
  rw [hv]
  exact congrArg (· >>= f) has

/-- **What is well kinded is built**, and the value is of the kind of the construction. -/
theorem exists_build {c : Construction} (h : c.wellKinded = true) :
    ∃ v, c.build = .ok v ∧ v.kind = c.kind := by
  induction c with
  | real x => exact ⟨_, rfl, rfl⟩
  | integer n => exact ⟨_, rfl, rfl⟩
  | bool b => exact ⟨_, rfl, rfl⟩
  | identifier k x => exact ⟨_, rfl, rfl⟩
  | access b => exact ⟨_, rfl, rfl⟩
  | environment q => exact ⟨_, rfl, rfl⟩
  | analysis types => exact ⟨_, rfl, rfl⟩
  | apply op lhs rhs ihl ihr =>
      simp only [wellKinded, Bool.and_eq_true, beq_iff_eq] at h
      obtain ⟨⟨⟨hl, hr⟩, hkind⟩, hop⟩ := h
      obtain ⟨a, ha, hakind⟩ := ihl hl
      obtain ⟨b, hb, hbkind⟩ := ihr hr
      obtain ⟨v, hv, hvkind⟩ := Value.apply_of_definedOn op (a := a) (b := b)
        (by rw [hbkind, hakind, hkind]) (by rw [hakind, hop])
      refine ⟨v, ?_, hvkind.trans (congrArg op.resultKind hakind)⟩
      exact check_bind_ok.mpr ⟨a, ha, check_bind_ok.mpr ⟨b, hb, hv⟩⟩
  | negate operand ih =>
      simp only [wellKinded, Bool.and_eq_true, bne_iff_ne, ne_eq] at h
      obtain ⟨v, hv, hvkind⟩ := ih h.1
      refine ⟨⟨v.kind, .neg (by rw [hvkind]; exact h.2) v.expr⟩, ?_, hvkind⟩
      exact check_bind_ok.mpr ⟨v, hv, dif_neg (by rw [hvkind]; exact h.2)⟩
  | invert operand ih =>
      simp only [wellKinded, Bool.and_eq_true, bne_iff_ne, ne_eq] at h
      obtain ⟨⟨k, e⟩, hv, hvkind⟩ := ih h.1
      cases k with
      | real => exact absurd hvkind.symm h.2
      | integer => exact ⟨_, check_bind_ok.mpr ⟨_, hv, rfl⟩, hvkind⟩
      | bool => exact ⟨_, check_bind_ok.mpr ⟨_, hv, rfl⟩, hvkind⟩
  | abs operand ih =>
      simp only [wellKinded, Bool.and_eq_true, bne_iff_ne, ne_eq] at h
      obtain ⟨⟨k, e⟩, hv, hvkind⟩ := ih h.1
      cases k with
      | real => exact ⟨_, check_bind_ok.mpr ⟨_, hv, rfl⟩, hvkind⟩
      | integer => exact ⟨_, check_bind_ok.mpr ⟨_, hv, rfl⟩, hvkind⟩
      | bool => exact absurd hvkind.symm h.2
  | cast k operand ih =>
      obtain ⟨v, hv, -⟩ := ih h
      exact ⟨⟨k, v.expr.castTo k⟩, check_bind_ok.mpr ⟨v, hv, rfl⟩, rfl⟩
  | select k condition yes no ihc ihy ihn =>
      simp only [wellKinded, Bool.and_eq_true, beq_iff_eq] at h
      obtain ⟨⟨⟨⟨⟨hc, hy⟩, hn⟩, hck⟩, hyk⟩, hnk⟩ := h
      obtain ⟨c, hc⟩ := exists_operand (ihc hc) hck
      obtain ⟨y, hy⟩ := exists_operand (ihy hy) hyk
      obtain ⟨n, hn⟩ := exists_operand (ihn hn) hnk
      exact ⟨⟨k, .select c y n⟩, (hc _).trans ((hy _).trans (hn _)), rfl⟩
  | call f x ih =>
      simp only [wellKinded, Bool.and_eq_true, beq_iff_eq] at h
      obtain ⟨a, ha⟩ := exists_operand (ih h.1) h.2
      exact ⟨⟨_, .call f a⟩, ha _, rfl⟩
  | call₂ f x y ihx ihy =>
      simp only [wellKinded, Bool.and_eq_true, beq_iff_eq] at h
      obtain ⟨⟨⟨hx, hy⟩, hxk⟩, hyk⟩ := h
      obtain ⟨a, ha⟩ := exists_operand (ihx hx) hxk
      obtain ⟨b, hb⟩ := exists_operand (ihy hy) hyk
      exact ⟨⟨_, .call₂ f a b⟩, (ha _).trans (hb _), rfl⟩
  | slew x maxRise maxFall ihx ihr ihf =>
      simp only [wellKinded, Bool.and_eq_true, beq_iff_eq] at h
      obtain ⟨⟨⟨⟨⟨hx, hr⟩, hf⟩, hxk⟩, hrk⟩, hfk⟩ := h
      obtain ⟨a, ha⟩ := exists_operand (ihx hx) hxk
      obtain ⟨b, hb⟩ := exists_operand (ihr hr) hrk
      obtain ⟨c, hc⟩ := exists_operand (ihf hf) hfk
      exact ⟨⟨_, .slew a b c⟩, (ha _).trans ((hb _).trans (hc _)), rfl⟩
  | transition x delay rise fall ihx ihd ihr ihf =>
      simp only [wellKinded, Bool.and_eq_true, beq_iff_eq] at h
      obtain ⟨⟨⟨⟨⟨⟨⟨hx, hd⟩, hr⟩, hf⟩, hxk⟩, hdk⟩, hrk⟩, hfk⟩ := h
      obtain ⟨a, ha⟩ := exists_operand (ihx hx) hxk
      obtain ⟨b, hb⟩ := exists_operand (ihd hd) hdk
      obtain ⟨c, hc⟩ := exists_operand (ihr hr) hrk
      obtain ⟨d, hd⟩ := exists_operand (ihf hf) hfk
      exact ⟨⟨_, .transition a b c d⟩, (ha _).trans ((hb _).trans ((hc _).trans (hd _))), rfl⟩

/-! ### Integers as reals -/

/-- Whether an integer is used as a real anywhere. -/
def promotes : Construction → Bool
  | .real _ => false
  | .integer _ => false
  | .bool _ => false
  | .identifier _ _ => false
  | .access _ => false
  | .environment _ => false
  | .analysis _ => false
  | .apply _ a b => a.promotes || b.promotes
  | .negate a => a.promotes
  | .invert a => a.promotes
  | .abs a => a.promotes
  | .cast k a => (k == .real && a.kind == .integer) || a.promotes
  | .select _ c a b => c.promotes || a.promotes || b.promotes
  | .call _ x => x.promotes
  | .call₂ _ x y => x.promotes || y.promotes
  | .slew x r f => x.promotes || r.promotes || f.promotes
  | .transition x d r f => x.promotes || d.promotes || r.promotes || f.promotes

/-- If no integer is used as a real, no real is an integer to the simulator. -/
theorem isInteger_eq_false {c : Construction} (h : c.promotes = false) : c.isInteger = false := by
  induction c with
  | apply op lhs rhs ihl ihr =>
      simp only [promotes, Bool.or_eq_false_iff] at h
      cases op <;> simp [isInteger, ihl h.1]
  | negate operand ih => exact ih h
  | abs operand ih => exact ih h
  | cast k operand ih =>
      simp only [promotes, Bool.or_eq_false_iff] at h
      cases k with
      | real =>
          cases hkind : operand.kind with
          | real => simp [isInteger, hkind, ih h.2]
          | integer => simp [hkind] at h
          | bool => simp [isInteger, hkind]
      | integer => rfl
      | bool => rfl
  | select k condition yes no ihc ihy ihn =>
      simp only [promotes, Bool.or_eq_false_iff] at h
      simp [isInteger, ihy h.1.2]
  | call₂ f x y ihx ihy =>
      simp only [promotes, Bool.or_eq_false_iff] at h
      cases f <;> simp [isInteger, ihx h.1]
  | _ => rfl

/-- If no integer is used as a real, no operation on reals is done to integers. -/
theorem overloaded_eq_nil {c : Construction} (h : c.promotes = false) : c.overloaded = [] := by
  induction c with
  | apply op lhs rhs ihl ihr =>
      simp only [promotes, Bool.or_eq_false_iff] at h
      simp [overloaded, isInteger_eq_false h.1, ihl h.1, ihr h.2]
  | negate operand ih =>
      have hoperand : operand.promotes = false := h
      simp [overloaded, isInteger_eq_false hoperand, ih hoperand]
  | invert operand ih => exact ih h
  | abs operand ih =>
      have hoperand : operand.promotes = false := h
      simp [overloaded, isInteger_eq_false hoperand, ih hoperand]
  | cast k operand ih =>
      simp only [promotes, Bool.or_eq_false_iff] at h
      exact ih h.2
  | select k condition yes no ihc ihy ihn =>
      simp only [promotes, Bool.or_eq_false_iff] at h
      obtain ⟨⟨hc, hy⟩, hn⟩ := h
      simp [overloaded, isInteger_eq_false hy, ihc hc, ihy hy, ihn hn]
  | call f x ih => exact ih h
  | call₂ f x y ihx ihy =>
      simp only [promotes, Bool.or_eq_false_iff] at h
      simp [overloaded, isInteger_eq_false h.1, ihx h.1, ihy h.2]
  | slew x maxRise maxFall ihx ihr ihf =>
      simp only [promotes, Bool.or_eq_false_iff] at h
      simp [overloaded, ihx h.1.1, ihr h.1.2, ihf h.2]
  | transition x delay rise fall ihx ihd ihr ihf =>
      simp only [promotes, Bool.or_eq_false_iff] at h
      simp [overloaded, ihx h.1.1.1, ihd h.1.1.2, ihr h.1.2, ihf h.2]
  | _ => rfl

/-! ### Literals -/

/-- Whether a construction is made of literal bools by connectives alone. -/
def settled : Construction → Bool
  | .bool _ => true
  | .apply .and a b | .apply (.arith .bitAnd) a b => a.settled && b.settled
  | .apply .or a b | .apply (.arith .bitOr) a b => a.settled && b.settled
  | .apply (.arith .bitXor) a b => a.settled && b.settled
  | .invert a => a.settled
  | _ => false

/-- What is settled is folded to a literal. -/
theorem exists_outline_eq {c : Construction} (h : c.settled = true) :
    ∃ b, c.outline = .ofBool b := by
  induction c with
  | bool b => exact ⟨b, rfl⟩
  | apply op lhs rhs ihl ihr =>
      have hoperands : lhs.settled = true ∧ rhs.settled = true := by
        unfold settled at h
        split at h <;> simp_all
      obtain ⟨a, ha⟩ := ihl hoperands.1
      obtain ⟨b, hb⟩ := ihr hoperands.2
      rw [outline, ha, hb]
      cases op with
      | arith op =>
          cases op with
          | bitAnd | bitOr | bitXor => cases a <;> cases b <;> exact ⟨_, rfl⟩
          | _ => cases h
      | and => cases a <;> cases b <;> exact ⟨_, rfl⟩
      | or => cases a <;> cases b <;> exact ⟨_, rfl⟩
      | pow => cases h
      | compare op => cases h
  | invert operand ih =>
      obtain ⟨b, hb⟩ := ih h
      exact ⟨!b, by rw [outline, hb]; rfl⟩
  | _ => cases h

/-! ### The text of a condition -/

variable {I : Interpretation}

/-- **The text of a condition is evaluated to what it is worth**, as 0 or 1, whatever was folded
and whichever comparison was mirrored on the way. The reals are held as they are written, which is
of no consequence if no integer is used as a real. If nothing but literal bools went into
the condition, it is one of the two literals. -/
theorem value_condition {c : Construction} (hkinded : c.wellKinded = true) (hbool : c.kind = .bool)
    (hnames : ∀ t ∈ c.names, Name.check t = .ok ())
    (htypes : ∀ p ∈ c.identifiers, I.Types p.1 p.2) (g : Strengths) :
    ∃ v t b, c.build = .ok v ∧ v.kind = .bool ∧
      readExpression g v.text = some t ∧ t.value I = some (.integer (I.bit b)) ∧
      c.worth I.written = some (.bool b) ∧
      (c.promotes = false → c.worth I = some (.bool b)) ∧
      (c.settled = true → v.text = (if b then "1" else "0") ∧ v.isConstant = true) := by
  obtain ⟨v, hbuild, hkind⟩ := exists_build hkinded
  obtain ⟨d, hd, hmeans⟩ := means_outline hbuild hnames htypes
  have hfollows := follows_build hbuild hnames
  obtain ⟨b, rfl⟩ := Worth.exists_bool
    ((kind_of_means hmeans hfollows).trans (hkind.trans hbool))
  refine ⟨v, _, b, hbuild, hkind.trans hbool, (read_build hbuild hnames g).1, hmeans.value_eq, hd,
    fun hpromotes => ?_, fun hsettled => ?_⟩
  · refine worth_promoted hd fun o ho => ?_
    rw [overloaded_eq_nil hpromotes] at ho
    cases ho
  · obtain ⟨a, ha⟩ := exists_outline_eq hsettled
    cases hmeans.truth a (by rw [ha]; rfl)
    cases Value.eq_of_truth (by rw [hfollows.outline_eq, ha]; rfl)
    exact ⟨by cases b <;> rfl, rfl⟩

/-- A literal on the left of a comparison, which a conjunction leaves as it is and an exclusive
disjunction negates. -/
theorem value_condition_folded :
    let c : Construction := .apply (.arith .bitXor) (.bool true)
      (.apply .and (.apply (.compare .lt) (.integer 3) (.identifier .integer "n")) (.bool true))
    let I := Interpretation.rational fun _ => .integer 5
    ∃ v t, c.build = .ok v ∧ v.text = "!( ( n )>( 3 ) )" ∧
      readExpression .standard v.text = some t ∧ t.value I = some (.integer 0) ∧
      c.worth I = some (.bool false) := by
  intro c I
  have htypes : ∀ p ∈ c.identifiers, I.Types p.1 p.2 := by
    intro p hp
    obtain rfl : p = (.integer, "n") := by simpa [c, identifiers] using hp
    exact .integer (n := (5 : ℤ)) rfl
  obtain ⟨v, t, b, hbuild, -, hread, hvalue, -, hworth, -⟩ :=
    value_condition (c := c) rfl rfl (by decide) htypes .standard
  have hdirect : c.worth I = some (.bool false) := rfl
  obtain rfl : b = false := by
    have hb := (hworth rfl).symm.trans hdirect
    cases hb
    rfl
  refine ⟨v, t, hbuild, ?_, hread, hvalue, hdirect⟩
  cases hbuild
  decide

end Construction

end Stimulus
