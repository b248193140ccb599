import Stimulus.Event
import Stimulus.Proofs.Grammar.Readable

/-!
# Crossings test the difference

An event compares a signal with a threshold by the sign of their difference. The two are written as
they are, with a minus sign between them, unless they have an operator at the top level that binds
no tighter than the minus sign. Whatever the two expressions are, the difference is read as the tree
of the one minus the tree of the other.

The exception is an expression with a string literal that ends in a backslash. Behind it the scan
finds no operators, so parentheses that are needed may be missing, and the difference is read as
something else.

## Main results

* `Crossing.read_difference`: the difference of a crossing.
* `Event.read_crossing`: the arguments of events that test it.
-/

namespace Stimulus

open Grammar

/-! ### The difference -/

/-- The operators that may stand on the left of a minus sign bind as strongly as it does. -/
theorem Grammar.allows_minuend :
    Allows .standard (Strengths.standard .sub) Grouping.minuend := by
  refine ⟨by decide, fun {o op} hop h => ?_⟩
  cases o <;> cases hop <;> revert h <;> decide

/-- The operators that may stand on the right of a minus sign bind more strongly than it does. -/
theorem Grammar.allows_subtrahend :
    Allows .standard (Strengths.standard .sub + 1) Grouping.subtrahend := by
  refine ⟨by decide, fun {o op} hop h => ?_⟩
  cases o <;> cases hop <;> revert h <;> decide

/-- The minus sign of a difference. -/
theorem Grammar.sealed_minus : Sealed " - " [.operator .minus] :=
  ((sealed_spaces (s := " ") (by decide)).append
    (sealed_operator (o := .minus) (s := "-") (.inl rfl) rfl)).append
    (sealed_spaces (s := " ") (by decide))

/-- **The difference of a crossing** is read as the signal minus the threshold. -/
theorem Crossing.parses_difference {c : Crossing} {x y : Tree}
    (hsignal : Parses (IsExpressionUnder .standard) c.signal.text x)
    (hthreshold : Parses (IsExpressionUnder .standard) c.threshold.text y) :
    Parses (IsExpressionUnder .standard) c.difference (.infixed .sub x y) := by
  obtain ⟨ts, hleft, hleftPlain, hx⟩ := Expr.binds_textIn hsignal allows_minuend
  obtain ⟨us, hright, hrightPlain, hy⟩ := Expr.binds_textIn hthreshold allows_subtrahend
  have hlexes := (hleft.append_sealed sealed_minus (by decide)).append_lexes hright
  rw [List.append_assoc, List.singleton_append] at hlexes
  refine ⟨_, hlexes, ?_, (hx.difference hy).isExpressionUnder⟩
  rw [List.forall_mem_append, List.forall_mem_cons]
  exact ⟨hleftPlain, trivial, hrightPlain⟩

/-! ### Events -/

namespace Event

/-- A crossing is written as a call. -/
theorem text_cross (c : Crossing) (edge : Edge) : (cross c edge).text
    = Expr.callText "cross"
      (c.difference :: Literal.integer edge.code :: c.tolerances.toList.map (·.text)) := by
  obtain ⟨signal, threshold, tolerances⟩ := c
  cases tolerances <;>
    simp [text, Crossing.toleranceText, Tolerances.toList, Expr.callText,
      String.intercalate_cons_cons, String.append_assoc]

/-- An event above a level is written as a call. -/
theorem text_above (c : Crossing) : (above c).text
    = Expr.callText "above" (c.difference :: c.tolerances.toList.map (·.text)) := by
  obtain ⟨signal, threshold, tolerances⟩ := c
  cases tolerances <;>
    simp [text, Crossing.toleranceText, Tolerances.toList, Expr.callText,
      String.intercalate_cons_cons, String.append_assoc]

/-- **Crossing events test the intended difference.** The signal, the threshold and the tolerances
have trees of their own, and the first argument of the event is read as the tree of the signal minus
the tree of the threshold. -/
theorem read_crossing {c : Crossing} (hsignal : c.signal.Readable .standard)
    (hthreshold : c.threshold.Readable .standard)
    (htolerances : ∀ e ∈ c.tolerances.toList, e.Readable .standard) (edge : Edge) :
    ∃ x y zs, readExpression .standard c.signal.text = some x ∧
      readExpression .standard c.threshold.text = some y ∧
      c.tolerances.toList.map (fun e => readExpression .standard e.text) = zs.map some ∧
      readExpression .standard (cross c edge).text
        = some (.call "cross" (.infixed .sub x y :: .ofInt edge.code :: zs)) ∧
      readExpression .standard (above c).text
        = some (.call "above" (.infixed .sub x y :: zs)) := by
  obtain ⟨x, hx⟩ := hsignal.hasTree
  obtain ⟨y, hy⟩ := hthreshold.hasTree
  have htexts : ∀ s ∈ c.tolerances.toList.map (·.text), HasTree .standard s := by
    rw [List.forall_mem_map]
    exact fun e he => (htolerances e he).hasTree
  obtain ⟨zs, hzs⟩ := exists_trees htexts
  have hdifference := Crossing.parses_difference hx hy
  have hcode := (Literal.spells_integer edge.code).operation.expression.parses.imp
    fun h => h .standard
  have hmore :
      c.tolerances.toList.map (fun e => readExpression .standard e.text) = zs.map some := by
    rw [← List.forall₂_eq_eq_eq, List.forall₂_map_right_iff, List.forall₂_map_left_iff]
    exact (List.forall₂_map_left_iff.mp hzs).imp fun _ _ hz => hz.read
  rw [text_cross, text_above]
  exact ⟨x, y, zs, hx.read, hy.read, hmore,
    (parses_callText (by decide) (by decide) (.cons hdifference (.cons hcode hzs))).read,
    (parses_callText (by decide) (by decide) (.cons hdifference hzs)).read⟩

/-- A file on the left, whose path has backslashes and quotes in it, a sum on the right, and a
tolerance. -/
theorem read_crossing_file :
    let c : Crossing := ⟨.ofInteger (.openFile "C:\\my \"log\"" (some "w")),
      .arith .add rfl (.ident "a") (.ident "b"), .time (.ident "tol")⟩
    (cross c .falling).text
        = "cross($fopen(\"C:\\\\my \\\"log\\\"\", \"w\") - ( ( a )+( b ) ), -1, tol)" ∧
      ∃ x y zs, readExpression .standard c.signal.text = some x ∧
        readExpression .standard c.threshold.text = some y ∧
        c.tolerances.toList.map (fun e => readExpression .standard e.text) = zs.map some ∧
        readExpression .standard (cross c .falling).text
          = some (.call "cross" (.infixed .sub x y :: .ofInt (-1) :: zs)) ∧
        readExpression .standard (above c).text
          = some (.call "above" (.infixed .sub x y :: zs)) := by
  intro c
  have hsignal : c.signal.Readable .standard := by
    rintro t ht
    simp only [Option.toList_some, List.mem_cons, List.not_mem_nil, or_false] at ht
    rcases ht with rfl | rfl <;> decide
  have hname {w : String} (h : Name.check w = .ok ()) :
      (Expr.ident (k := .real) w).Readable .standard := h
  have hthreshold : c.threshold.Readable .standard :=
    ⟨hname (w := "a") (by decide), hname (w := "b") (by decide)⟩
  have htolerances : ∀ e ∈ c.tolerances.toList, e.Readable .standard :=
    List.forall_mem_singleton.mpr (hname (w := "tol") (by decide))
  exact ⟨by decide, read_crossing hsignal hthreshold htolerances .falling⟩

/-- **A path that ends in a backslash** misleads the scan. The sum that is the threshold is not put
in parentheses, and one of its terms is added to the difference instead of being subtracted. -/
theorem cross_misread :
    let c : Crossing := ⟨.environment .time,
      .arith .add rfl (.ofInteger (.openFile "C:\\" none)) (.ofInteger (.integer 1)), .none⟩
    let time : Tree := .name "$abstime"
    let file : Tree := .call "$fopen" [.literal "C:\\\\"]
    let one : Tree := .number "1"
    (cross c .rising).text = "cross($abstime - ( $fopen(\"C:\\\\\") )+( 1 ), 1)" ∧
      readExpression .standard c.signal.text = some time ∧
      readExpression .standard c.threshold.text = some (.infixed .add file one) ∧
      readExpression .standard (cross c .rising).text
        = some (.call "cross" [.infixed .add (.infixed .sub time file) one, one]) ∧
      ∀ zs, readExpression .standard (cross c .rising).text
        ≠ some (.call "cross" (.infixed .sub time (.infixed .add file one) :: zs)) := by
  intro c time file one
  have htime : Lexes c.signal.text [.word "$abstime"] :=
    (lexes_word (w := "$abstime") (by decide)).of_eq (by decide)
  have hfile : Lexes (Expr.openFile "C:\\" none).text
      (.word "$fopen" :: parenthesised [.literal "C:\\\\"]) :=
    lexes_call (by decide) (by decide) (sealed_quote "C:\\").lexes
  have hsum : Lexes c.threshold.text _ :=
    lexes_binaryText .plus hfile (isNumber_natural 1).lexes
  have hminus : Sealed " - " [.operator .minus] := sealed_minus
  have hcomma : Sealed ", " [.mark .comma] := (IsComma.sealed (.inl rfl)).1
  have htext : (cross c .rising).text = "cross" ++ "("
      ++ (c.signal.text ++ " - " ++ c.threshold.text ++ ", " ++ toString 1) ++ ")" := by decide
  have hcross := lexes_call (f := "cross") (by decide) (by decide)
    ((((htime.append_sealed hminus (by decide)).append_lexes hsum).append_sealed hcomma
      (by decide)).append_lexes (isNumber_natural 1).lexes)
  rw [← htext] at hcross
  have hread : readExpression .standard (cross c .rising).text
      = some (.call "cross" [.infixed .add (.infixed .sub time file) one, one]) := by
    rw [readExpression, hcross.lex_eq]
    rfl
  refine ⟨by decide, ?_, ?_, hread, fun zs => ?_⟩
  · rw [readExpression, htime.lex_eq]
    rfl
  · rw [readExpression, hsum.lex_eq]
    rfl
  · rw [hread]
    intro h
    cases h

end Event

end Stimulus
