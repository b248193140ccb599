import Stimulus.Proofs.Grammar.Statement
import Stimulus.Proofs.Grammar.Reading
import Stimulus.Proofs.Sequence.Accepted
import Stimulus.Statement.Text

/-!
# Reading the layout back

The rule that lays out blocks is the same for all heads, and so is the way in which a block is read:
the tokens of the head, and behind them one statement that stands for the body. It is the null
statement for an empty body, the only child, or all children between `begin` and `end`.

A body of one child is a statement that must not stand in front of an `else`, for the child could
end in a conditional that has none. The first branch of a conditional with an alternative is the one
place where an `else` follows. There the child is enclosed, unless it is written on a single line.

## Main definitions

* `Statement.nodes`, what is to be read from the text of a statement
* `Layout.Prints`: a text whose tokens are a statement
* `Statement.Built`: what the checked constructors make of parts that can be read

## Main results

* `Layout.prints_block`: a block is its head and one statement for the body.
* `Statement.Spliced.prints_first`: an `else` may follow the first branch.
* `Statement.Built.read_render`: the text of a statement is read back as its tree.
-/

namespace Stimulus

open Build Grammar

/-! ### Nodes -/

/-- The tokens of a text. -/
def Grammar.tokensOf (text : String) : List Token :=
  (lex text.toList).getD []

/-- The head of a node. -/
def Head.node : Head → NodeHead
  | .raw text => .unknown (tokensOf text)
  | .onEvent event => .onEvent (tokensOf event.text)
  | .repeatLoop count => .repeatLoop (tokensOf count.text)
  | .whileLoop condition => .whileLoop (tokensOf condition.text)
  | .forLoop start condition next =>
    .forLoop (tokensOf start.text) (tokensOf condition.text) (tokensOf next.text)

mutual

/-- The nodes of a statement. Lists are spliced, and script steps are not statements. -/
def Statement.nodes : Statement → List Node
  | .command c => [.command (tokensOf c.text)]
  | .list items => nodesOf items
  | .block head body => [.block head.node (nodesOf body)]
  | .branch condition yes no => [.branch (tokensOf condition.text) (nodesOf yes) (nodesOf no)]
  | .select scrutinee arms => [.select (tokensOf scrutinee.text) (nodesOfArms arms)]
  | .step _ => []

/-- The nodes of a list of statements. -/
def nodesOf : List Statement → List Node
  | [] => []
  | s :: rest => s.nodes ++ nodesOf rest

/-- The nodes of the arms of a case. -/
def nodesOfArms : List Arm → List (Option (List Token) × List Node)
  | [] => []
  | .mk label body :: rest =>
    (label.map fun v => tokensOf v.text, nodesOf body) :: nodesOfArms rest

end

/-- A text alone has its tokens. -/
theorem Grammar.Lexes.tokensOf {text : String} {ts : List Token} (h : Lexes text ts) :
    tokensOf text = ts := by
  rw [Grammar.tokensOf, h.lex_eq]
  rfl

/-- The nodes of a list are those of its statements, one after the other. -/
theorem nodesOf_eq (items : List Statement) :
    nodesOf items = (items.map Statement.nodes).flatten := by
  induction items with
  | nil => rfl
  | cons s rest ih => rw [nodesOf, ih, List.map_cons, List.flatten_cons]

/-! ### Lines and blocks -/

namespace Layout

variable {d : Dialect} {g : Strengths} {text header : String} {ts hs : List Token}
  {children : List String} {xss : List (List Node)} {xs : List Node}

/-- A text of which the tokens are a statement, with the nodes of it. -/
def Prints (IsPart : List Token → List Node → Prop) (text : String) (xs : List Node) : Prop :=
  ∃ ts, Sealed text ts ∧ IsPart ts xs

/-- A line has the tokens of its text. -/
theorem sealed_line (depth : Nat) (h : Lexes text ts) : Sealed (line depth text) ts := by
  have hindent : Sealed (indent depth) [] := by
    refine sealed_spaces fun c hc => ?_
    rw [indent, String.toList_ofList] at hc
    rw [(List.mem_replicate.mp hc).2]
    rfl
  have hfeed : Sealed "\n" [] := sealed_spaces (by decide)
  exact ((hindent.append_lexes h).append_sealed hfeed (by decide)).of_eq (by simp)

/-- Statements one after the other. -/
theorem prints_join (h : List.Forall₂ (Prints (IsStatement d g)) children xss) :
    Prints (IsSequence d g) (String.join children) xss.flatten := by
  induction h with
  | nil => exact ⟨[], sealed_empty, isSequence_nil⟩
  | cons hchild _ ih =>
      obtain ⟨ts, hlexes, hread⟩ := hchild
      obtain ⟨us, hmore, hreadMore⟩ := ih
      rw [String.join_cons, List.flatten_cons]
      exact ⟨ts ++ us, hlexes.append hmore, hread.append hreadMore⟩

/-- A body of one statement is that statement, in front of all that it can stand in front of. -/
theorem prints_single (depth : Nat) {IsPart : List Token → List Node → Prop} {child : String}
    (h : Lexes header hs) (hchild : Prints IsPart child xs) :
    ∃ ts, Sealed (block depth false header [child]) (hs ++ ts) ∧ IsPart ts xs := by
  obtain ⟨ts, hlexes, hread⟩ := hchild
  exact ⟨ts, (sealed_line depth h).append hlexes, hread⟩

/-- A body between `begin` and `end`. -/
theorem prints_enclosed (depth : Nat) (h : Lexes header hs)
    (hchildren : List.Forall₂ (Prints (IsStatement d g)) children xss) :
    ∃ ts, Sealed (line depth (header ++ " begin") ++ String.join children ++ line depth "end")
      (hs ++ ts) ∧ IsEnclosed d g ts xss.flatten := by
  obtain ⟨ts, hlexes, hread⟩ := prints_join hchildren
  have hbegin : Lexes " begin" [.keyword .begin] :=
    (sealed_spaces (s := " ") (by decide)).append_lexes (lexes_word (w := "begin") (by decide))
  have hend : Lexes "end" [.keyword .finish] := lexes_word (by decide)
  have hblock := ((sealed_line depth (h.append hbegin (by decide))).append hlexes).append
    (sealed_line depth hend)
  exact ⟨_, hblock.of_eq (by simp), hread.enclosed⟩

/-- **A block** is its head and one statement that stands for the body. An `else` may follow it if
it has not one child only, or if that child has been enclosed. -/
theorem prints_block (depth : Nat) (force : Bool) (h : Lexes header hs)
    (hchildren : List.Forall₂ (Prints (IsStatement d g)) children xss) :
    ∃ ts, Sealed (block depth force header children) (hs ++ ts) ∧
      IsStatement d g ts xss.flatten ∧
      ((force = true ∨ children.length ≠ 1) → IsEnclosed d g ts xss.flatten) := by
  have henclosed := prints_enclosed depth h hchildren
  unfold block
  -- Without children, with one, and with more of them.
  split
  · cases hchildren
    have hsemicolon : Sealed ";" [.mark .semicolon] := sealed_mark (by decide) rfl
    exact ⟨_, sealed_line depth (h.append_sealed hsemicolon (by decide)).lexes,
      isEnclosed_null.isStatement, fun _ => isEnclosed_null⟩
  case h_2 child =>
      obtain - | ⟨hchild, hnil⟩ := hchildren
      cases hnil
      split
      · obtain ⟨ts, hlexes, hread⟩ := henclosed
        rw [String.join_cons, String.join_nil, String.append_empty] at hlexes
        exact ⟨ts, hlexes, hread.isStatement, fun _ => hread⟩
      case isFalse hforce =>
          obtain ⟨ts, hlexes, hread⟩ := prints_single depth h hchild
          refine ⟨ts, hlexes, ?_, fun hor => ?_⟩
          · simpa using hread
          · rcases hor with hor | hor
            · exact absurd hor hforce
            · exact absurd rfl hor
  · obtain ⟨ts, hlexes, hread⟩ := henclosed
    exact ⟨ts, hlexes, hread.isStatement, fun _ => hread⟩

end Layout

/-! ### Texts that can be read -/

namespace Grammar

/-- A text that is an expression. -/
def IsExpressionText (text : String) : Prop :=
  ∃ ts x, Lexes text ts ∧ IsExpression ts x

/-- A text that is an expression, and that in parentheses behind a reserved word is no unknown
head. -/
def IsGroupText (d : Dialect) (k : Keyword) (text : String) : Prop :=
  ∃ ts x, Lexes text ts ∧ IsExpression ts x ∧ Apart d (.keyword k :: parenthesised ts)

/-- A text that is a command and no unknown head. -/
def IsCommandText (d : Dialect) (text : String) : Prop :=
  ∃ ts, Lexes text ts ∧ ts ≠ [] ∧ (∀ t ∈ ts, isStructural t = false) ∧
    Apart d (ts ++ [.mark .semicolon])

end Grammar

/-- The text of an expression whose names can be read. -/
theorem Expr.Legible.isExpressionText {k : Kind} {e : Expr k} (h : e.Legible) :
    IsExpressionText e.text := by
  obtain ⟨ts, hlexes, hx⟩ := (e.reads_text h).expression.tokens
  exact ⟨ts, e.tree, hlexes, hx⟩

/-- In a dialect that leaves a reserved word alone every expression can stand behind the word. -/
theorem Grammar.IsExpressionText.isGroupText {d : Dialect} {k : Keyword} {text : String}
    (h : IsExpressionText text) (hd : ∀ ts, d (.keyword k :: ts) = none) :
    IsGroupText d k text := by
  obtain ⟨ts, x, hlexes, hx⟩ := h
  exact ⟨ts, x, hlexes, hx, fun rest => hd _⟩

/-- A head that can be read: its expressions are expressions, and the dialect knows it if and only
if it is trusted text. -/
def Head.Legible (d : Dialect) : Head → Prop
  | .raw text => ∃ ts, Lexes text ts ∧ opens ts = true ∧ ∀ rest, d (ts ++ rest) = some (ts, rest)
  | .onEvent event =>
    ∃ ts, Lexes event.text ts ∧ IsClosed ts ∧ Apart d (.mark .sign :: parenthesised ts)
  | .repeatLoop count => IsGroupText d .loop count.text
  | .whileLoop condition => IsGroupText d .while condition.text
  | .forLoop start condition next =>
    ∃ ts us vs x, Lexes start.text ts ∧ .mark .semicolon ∉ ts ∧ Lexes condition.text us ∧
      IsExpression us x ∧ Lexes next.text vs ∧ IsClosed vs ∧
      Apart d (.keyword .for :: parenthesised (counted ts us vs))

/-- A reserved word and a text in parentheses behind it. -/
theorem Grammar.lexes_group (k : Keyword) {text : String} {ts : List Token} (h : Lexes text ts) :
    Lexes (k.spelling ++ "( " ++ text ++ " )") (.keyword k :: parenthesised ts) := by
  have hk : Lexes k.spelling [.keyword k] := by
    refine (lexes_word (by cases k <;> decide)).of_eq ?_
    cases k <;> decide
  have hgroup := hk.append (sealed_operandText h).lexes separated_operandText
  rw [← String.append_assoc, ← String.append_assoc] at hgroup
  exact hgroup

/-- A head is read as the head of its node. -/
theorem Head.Legible.isHead {d : Dialect} {g : Strengths} {h : Head} (hh : h.Legible d) :
    ∃ ts, Lexes h.text ts ∧ IsHead d g ts h.node := by
  cases h with
  | raw text =>
      obtain ⟨ts, hlexes, hopens, hknown⟩ := hh
      refine ⟨ts, hlexes, ?_⟩
      rw [node, hlexes.tokensOf]
      exact isHead_unknown hopens hknown
  | onEvent event =>
      obtain ⟨ts, hlexes, hclosed, hapart⟩ := hh
      have hsign : Sealed "@" [.mark .sign] := sealed_mark (by decide) rfl
      have hhead := hsign.append_lexes (sealed_operandText hlexes).lexes
      rw [← String.append_assoc, ← String.append_assoc] at hhead
      refine ⟨_, hhead, ?_⟩
      rw [node, hlexes.tokensOf]
      exact isHead_onEvent hclosed hapart
  | repeatLoop count =>
      obtain ⟨ts, x, hlexes, hx, hapart⟩ := hh
      refine ⟨_, lexes_group .loop hlexes, ?_⟩
      rw [node, hlexes.tokensOf]
      exact isHead_repeatLoop hx hapart
  | whileLoop condition =>
      obtain ⟨ts, x, hlexes, hx, hapart⟩ := hh
      refine ⟨_, lexes_group .while hlexes, ?_⟩
      rw [node, hlexes.tokensOf]
      exact isHead_whileLoop hx hapart
  | forLoop start condition next =>
      obtain ⟨ts, us, vs, x, hstart, hplain, hcondition, hx, hnext, hclosed, hapart⟩ := hh
      have hsemicolon : Sealed "; " [.mark .semicolon] :=
        (sealed_mark (s := ";") (by decide) rfl).append (sealed_spaces (s := " ") (by decide))
      have hcounted : Lexes (start.text ++ "; " ++ condition.text ++ "; " ++ next.text)
          (counted ts us vs) := by
        have hfront := (hstart.append_sealed hsemicolon (by decide)).append_lexes hcondition
        exact ((hfront.append_sealed hsemicolon (by decide)).append_lexes hnext).of_eq
          (by simp [counted])
      have hhead : Lexes (text (.forLoop start condition next))
          (.keyword .for :: parenthesised (counted ts us vs)) := by
        have htext : text (.forLoop start condition next) = Keyword.for.spelling ++ "( "
            ++ (start.text ++ "; " ++ condition.text ++ "; " ++ next.text) ++ " )" := by
          simp only [text, String.append_assoc]
          rfl
        rw [htext]
        exact lexes_group .for hcounted
      refine ⟨_, hhead, ?_⟩
      rw [node, hstart.tokensOf, hcondition.tokensOf, hnext.tokensOf]
      exact isHead_forLoop hplain hx hclosed hapart

/-- Statements without lists and script steps, of which all parts can be read. -/
inductive Statement.Spliced (d : Dialect) : Statement → Prop
  | command {c : Command} (hc : IsCommandText d c.text) : Spliced d (.command c)
  | block {head : Head} {body : List Statement} (hhead : head.Legible d)
      (hbody : ∀ s ∈ body, Spliced d s) : Spliced d (.block head body)
  | branch {condition : Expr .bool} {yes no : List Statement}
      (hcondition : IsGroupText d .cond condition.text) (hyes : ∀ s ∈ yes, Spliced d s)
      (hno : ∀ s ∈ no, Spliced d s) : Spliced d (.branch condition yes no)
  | select {scrutinee : Value} {arms : List Arm}
      (hscrutinee : IsGroupText d .case scrutinee.text)
      (hlabels : ∀ a ∈ arms, ∀ v, a.label = some v → IsExpressionText v.text)
      (hbodies : ∀ a ∈ arms, ∀ s ∈ a.body, Spliced d s) : Spliced d (.select scrutinee arms)

namespace Statement.Spliced

variable {d : Dialect} {g : Strengths} {s : Statement} {items : List Statement}

/-- Such a statement is no list. -/
theorem leaves_eq (h : s.Spliced d) : s.leaves = [s] := by
  cases h <;> rfl

/-- The texts of such statements, none of which is left out. -/
theorem renderEach_eq (h : ∀ s ∈ items, s.Spliced d) (depth : Nat) :
    renderEach depth items = items.map (·.render depth) := by
  induction items with
  | nil => rfl
  | cons s rest ih =>
      rw [List.forall_mem_cons] at h
      have hs : s.isEmpty = false := by
        rw [isEmpty, h.1.leaves_eq]
        rfl
      rw [renderEach, if_neg (by simp [hs]), ih h.2, List.map_cons]

/-- The texts of children, each of which is read as its nodes. -/
theorem prints_children (h : ∀ s ∈ items, s.Spliced d) {depth : Nat}
    (hprints : ∀ s ∈ items, Layout.Prints (IsStatement d g) (s.render depth) s.nodes) :
    List.Forall₂ (Layout.Prints (IsStatement d g)) (renderEach depth items)
      (items.map Statement.nodes) := by
  rw [renderEach_eq h, List.forall₂_map_left_iff, List.forall₂_map_right_iff, List.forall₂_same]
  exact hprints

/-- **The first branch of a conditional with an alternative** is enclosed, unless it is a single
line, which needs no enclosing. -/
theorem prints_first {header : String} {hs : List Token} {depth : Nat} (hheader : Lexes header hs)
    (h : ∀ s ∈ items, s.Spliced d)
    (hprints : List.Forall₂ (Layout.Prints (IsStatement d g)) (renderEach (depth + 1) items)
      (items.map Statement.nodes))
    (hlines : ∀ s ∈ items, s.isSingleLine = true →
      Layout.Prints (IsEnclosed d g) (s.render (depth + 1)) s.nodes) :
    ∃ ts, Sealed (Layout.block depth (needsEnclosing items) header (renderEach (depth + 1) items))
      (hs ++ ts) ∧ IsEnclosed d g ts (items.map Statement.nodes).flatten := by
  have hblock := Layout.prints_block depth (needsEnclosing items) hheader hprints
  match items with
  | [] =>
      obtain ⟨ts, hsealed, -, henclosed⟩ := hblock
      exact ⟨ts, hsealed, henclosed (.inr (by simp [renderEach]))⟩
  | [only] =>
      rw [renderEach_eq h] at hblock ⊢
      -- A child of one line may stay without `begin` and `end`: no `else` can be taken by it.
      cases hline : only.isSingleLine with
      | false =>
          obtain ⟨ts, hsealed, -, henclosed⟩ := hblock
          exact ⟨ts, hsealed, henclosed (.inl (by simp [needsEnclosing, hline]))⟩
      | true =>
          have honly := hlines only List.mem_cons_self hline
          obtain ⟨ts, hsealed, hread⟩ := Layout.prints_single depth hheader honly
          refine ⟨ts, ?_, by simpa using hread⟩
          simpa [needsEnclosing, hline] using hsealed
  | s :: t :: rest =>
      obtain ⟨ts, hsealed, -, henclosed⟩ := hblock
      rw [renderEach_eq h] at henclosed
      exact ⟨ts, hsealed, henclosed (.inr (by simp))⟩

/-- The text in front of an arm. -/
theorem lexes_armHeader {label : Option Value}
    (h : ∀ v, label = some v → IsExpressionText v.text) :
    ∃ hs, Lexes (armHeader label) hs ∧ ∀ {ts us : List Token} {xs : List Node}
      {as : List (Option (List Token) × List Node)}, IsStatement d g ts xs → IsArms d g us as →
      IsArms d g (hs ++ (ts ++ us)) ((label.map fun v => tokensOf v.text, xs) :: as) := by
  have hcolon : Sealed ":" [.mark .colon] := sealed_mark (by decide) rfl
  cases label with
  | none =>
      have hdefault : Lexes "default" [.keyword .default] := lexes_word (by decide)
      refine ⟨_, (hdefault.append_sealed hcolon (by decide)).lexes, fun {ts us xs as} hts hus => ?_⟩
      have harm := IsArms.default hts hus
      exact harm
  | some v =>
      obtain ⟨ls, x, hlexes, hx⟩ := h v rfl
      refine ⟨_, (hlexes.append_sealed hcolon (by decide)).lexes, fun {ts us xs as} hts hus => ?_⟩
      have harm := IsArms.labelled hx hts hus
      rwa [Option.map_some, hlexes.tokensOf, List.append_assoc]

/-- The arms of a case are read up to the word that ends it. -/
theorem prints_arms {arms : List Arm} (depth : Nat)
    (hlabels : ∀ a ∈ arms, ∀ v, a.label = some v → IsExpressionText v.text)
    (hbodies : ∀ a ∈ arms, ∀ s ∈ a.body, s.Spliced d)
    (hprints : ∀ a ∈ arms, ∀ s ∈ a.body,
      Layout.Prints (IsStatement d g) (s.render (depth + 1)) s.nodes) {ending : String}
    (hending : Sealed ending [.keyword .endcase]) :
    ∃ ts, Sealed (renderArms depth arms ++ ending) ts ∧ IsArms d g ts (nodesOfArms arms) := by
  -- From the last arm to the first, since an arm ends where the next one starts.
  induction arms with
  | nil => exact ⟨_, sealed_empty.append hending, isArms_nil⟩
  | cons a rest ih =>
      obtain ⟨label, body⟩ := a
      rw [List.forall_mem_cons] at hlabels hbodies hprints
      obtain ⟨us, hrest, hreadRest⟩ := ih hlabels.2 hbodies.2 hprints.2
      obtain ⟨hs, hheader, harm⟩ := lexes_armHeader (d := d) (g := g) hlabels.1
      obtain ⟨ts, hblock, hread, -⟩ := Layout.prints_block depth false hheader
        (prints_children hbodies.1 hprints.1)
      have hread := harm hread hreadRest
      rw [← List.append_assoc] at hread
      rw [renderArms, nodesOfArms, nodesOf_eq, String.append_assoc]
      exact ⟨_, hblock.append hrest, hread⟩

/-- **The text of a statement** is read as its nodes. An `else` may follow a single line. -/
theorem prints (h : s.Spliced d) (depth : Nat) :
    Layout.Prints (IsStatement d g) (s.render depth) s.nodes ∧
      (s.isSingleLine = true → Layout.Prints (IsEnclosed d g) (s.render depth) s.nodes) := by
  induction h generalizing depth with
  | @command c hc =>
      obtain ⟨ts, hlexes, hne, hplain, hapart⟩ := hc
      have hsemicolon : Sealed ";" [.mark .semicolon] := sealed_mark (by decide) rfl
      have hline := Layout.sealed_line depth (hlexes.append_sealed hsemicolon (by decide)).lexes
      have hread := isEnclosed_command (g := g) hne hplain hapart
      rw [nodes, hlexes.tokensOf]
      exact ⟨⟨_, hline, hread.isStatement⟩, fun _ => ⟨_, hline, hread⟩⟩
  | @block head body hhead hbody ih =>
      obtain ⟨hs, hlexes, hread⟩ := hhead.isHead (g := g)
      have hchildren := prints_children hbody fun s hs => (ih s hs (depth + 1)).1
      obtain ⟨ts, hblock, hstatement, -⟩ := Layout.prints_block depth false hlexes hchildren
      refine ⟨⟨_, hblock, ?_⟩, fun h => by cases h⟩
      rw [nodes, nodesOf_eq]
      exact hstatement.block hread
  | @branch condition yes no hcondition hyes hno ihyes ihno =>
      refine ⟨?_, fun h => by cases h⟩
      obtain ⟨cs, x, hlexes, hx, hapart⟩ := hcondition
      have hheader : Lexes ("if( " ++ condition.text ++ " )")
          (.keyword .cond :: parenthesised cs) := lexes_group .cond hlexes
      have hyesChildren := prints_children hyes fun s hs => (ihyes s hs (depth + 1)).1
      have hnoChildren := prints_children hno fun s hs => (ihno s hs (depth + 1)).1
      rw [nodes, hlexes.tokensOf, nodesOf_eq, nodesOf_eq, render]
      cases hempty : (renderEach (depth + 1) no).isEmpty with
      | true =>
          -- Without an alternative nothing is enclosed, and no `else` follows.
          have hnone : no = [] := by
            rw [renderEach_eq hno, List.isEmpty_iff, List.map_eq_nil_iff] at hempty
            exact hempty
          obtain ⟨us, hblock, hread, -⟩ := Layout.prints_block depth false hheader hyesChildren
          rw [hnone]
          simp only [Bool.not_true, Bool.false_and, if_true, String.append_empty, List.map_nil,
            List.flatten_nil]
          exact ⟨_, hblock, hread.branch hx hapart⟩
      | false =>
          have helse : Lexes "else" [.keyword .otherwise] := lexes_word (by decide)
          obtain ⟨vs, halternative, hreadNo, -⟩ := Layout.prints_block depth false helse hnoChildren
          obtain ⟨us, hblock, hread⟩ := prints_first hheader hyes hyesChildren
            (fun s hs => (ihyes s hs (depth + 1)).2)
          refine ⟨_, (hblock.append halternative).of_eq ?_, hread.alternative hx hapart hreadNo⟩
          simp
  | @select scrutinee arms hscrutinee hlabels hbodies ih =>
      refine ⟨?_, fun h => by cases h⟩
      obtain ⟨cs, x, hlexes, hx, hapart⟩ := hscrutinee
      have hheader : Lexes ("case( " ++ scrutinee.text ++ " )")
          (.keyword .case :: parenthesised cs) := lexes_group .case hlexes
      have hending : Sealed (Layout.line depth "endcase") [.keyword .endcase] :=
        Layout.sealed_line depth (lexes_word (by decide))
      obtain ⟨ts, harms, hread⟩ := prints_arms (depth + 1) hlabels hbodies
        (fun a ha s hs => (ih a ha s hs (depth + 2)).1) hending
      rw [nodes, hlexes.tokensOf, render, String.append_assoc]
      exact ⟨_, (Layout.sealed_line depth hheader).append harms,
        (isEnclosed_select hx hapart hread).isStatement⟩

end Statement.Spliced

/-! ### Checked statements -/

/-- Statements that are put together by the checked constructors from parts that can be read. Script
steps are not among them. -/
inductive Statement.Built (d : Dialect) : Statement → Prop
  | command {c : Command} (hc : IsCommandText d c.text) : Built d (.command c)
  | ofList {items : List Statement} (h : ∀ s ∈ items, Built d s) : Built d (.ofList items)
  | block {header : String} {items : List Statement} {s : Statement}
      (hheader : (Head.raw header).Legible d) (h : ∀ s ∈ items, Built d s)
      (hs : Statement.block? header items = .ok s) : Built d s
  | onEvent {event : Event} {items : List Statement} {s : Statement}
      (hevent : (Head.onEvent event).Legible d) (h : ∀ s ∈ items, Built d s)
      (hs : Statement.onEvent? event items = .ok s) : Built d s
  | repeatLoop {count : Expr .integer} {items : List Statement} {s : Statement}
      (hcount : (Head.repeatLoop count).Legible d) (h : ∀ s ∈ items, Built d s)
      (hs : Statement.repeat? count items = .ok s) : Built d s
  | whileLoop {condition : Expr .bool} {items : List Statement} {s : Statement}
      (hcondition : (Head.whileLoop condition).Legible d) (h : ∀ s ∈ items, Built d s)
      (hs : Statement.while? condition items = .ok s) : Built d s
  | forLoop {start next : Command} {condition : Expr .bool} {items : List Statement} {s : Statement}
      (hhead : (Head.forLoop start condition next).Legible d) (h : ∀ s ∈ items, Built d s)
      (hs : Statement.for? (.command start) condition (.command next) items = .ok s) : Built d s
  | conditional {condition : Expr .bool} {items : List Statement} {c : Conditional}
      (hcondition : IsGroupText d .cond condition.text) (h : ∀ s ∈ items, Built d s)
      (hc : Conditional.new? condition items = .ok c) : Built d c.statement
  | otherwise {c c' : Conditional} {items : List Statement} (hc : Built d c.statement)
      (h : ∀ s ∈ items, Built d s) (hc' : c.otherwise? items = .ok c') : Built d c'.statement
  | caseTable {scrutinee : Value} (hscrutinee : IsGroupText d .case scrutinee.text) :
      Built d (CaseTable.new scrutinee).statement
  | arm {c c' : CaseTable} {label : Value} {items : List Statement} (hc : Built d c.statement)
      (hlabel : IsExpressionText label.text) (h : ∀ s ∈ items, Built d s)
      (hc' : c.arm? label items = .ok c') : Built d c'.statement
  | defaultArm {c c' : CaseTable} {items : List Statement} (hc : Built d c.statement)
      (h : ∀ s ∈ items, Built d s) (hc' : c.defaultArm? items = .ok c') : Built d c'.statement

namespace Statement

variable {d : Dialect} {g : Strengths} {s : Statement} {items : List Statement}

/-- A statement that is spliced, or a list of such statements. -/
def IsSpliced (d : Dialect) (s : Statement) : Prop :=
  s.Spliced d ∨ ∃ items, s = .list items ∧ ∀ t ∈ items, t.Spliced d

/-- The leaves of spliced statements are spliced. -/
theorem spliced_leavesOf (h : ∀ s ∈ items, s.IsSpliced d) : ∀ t ∈ leavesOf items, t.Spliced d := by
  intro t ht
  obtain ⟨s, hs, ht⟩ := mem_leavesOf.mp ht
  rcases h s hs with hs | ⟨parts, rfl, hparts⟩
  · rw [hs.leaves_eq, List.mem_singleton] at ht
    rwa [ht]
  · rw [leaves, leavesOf_eq fun u hu => (hparts u hu).leaves_eq] at ht
    exact hparts t ht

/-- One more arm of a case. -/
theorem Spliced.addArm {scrutinee : Value} {arms : List Arm} {label : Option Value}
    (h : Spliced d (.select scrutinee arms))
    (hlabel : ∀ v, label = some v → IsExpressionText v.text)
    (hbody : ∀ s ∈ items, s.Spliced d) :
    Spliced d (.select scrutinee (arms ++ [.mk label items])) := by
  cases h with
  | select hscrutinee hlabels hbodies =>
      refine .select hscrutinee ?_ ?_
      · rw [List.forall_mem_append, List.forall_mem_singleton]
        exact ⟨hlabels, hlabel⟩
      · rw [List.forall_mem_append, List.forall_mem_singleton]
        exact ⟨hbodies, hbody⟩

/-- **What the checked constructors make** is spliced. -/
theorem Built.isSpliced (h : s.Built d) : s.IsSpliced d := by
  induction h with
  | command hc => exact .inl (.command hc)
  | ofList _ ih => exact .inr ⟨_, rfl, spliced_leavesOf ih⟩
  | block hheader _ hs ih =>
      rw [of_childrenOf hs]
      exact .inl (.block hheader (spliced_leavesOf ih))
  | onEvent hevent _ hs ih =>
      rw [of_childrenOf hs]
      exact .inl (.block hevent (spliced_leavesOf ih))
  | repeatLoop hcount _ hs ih =>
      rw [of_childrenOf hs]
      exact .inl (.block hcount (spliced_leavesOf ih))
  | whileLoop hcondition _ hs ih =>
      rw [of_childrenOf hs]
      exact .inl (.block hcondition (spliced_leavesOf ih))
  | forLoop hhead _ hs ih =>
      rw [of_childrenOf hs]
      exact .inl (.block hhead (spliced_leavesOf ih))
  | conditional hcondition _ hc ih =>
      rw [Conditional.new?_ok hc]
      exact .inl (.branch hcondition (spliced_leavesOf ih) fun s hs => absurd hs List.not_mem_nil)
  | otherwise _ _ hc' ihc ih =>
      rw [of_childrenOf hc']
      obtain (hc | ⟨_, ⟨⟩, _⟩) := ihc
      cases hc with
      | branch hcondition hyes _ => exact .inl (.branch hcondition hyes (spliced_leavesOf ih))
  | caseTable hscrutinee =>
      exact .inl (.select hscrutinee (fun a ha => absurd ha List.not_mem_nil)
        fun a ha => absurd ha List.not_mem_nil)
  | arm _ hlabel _ hc' ihc ih =>
      rw [CaseTable.arm?_ok hc']
      obtain (hc | ⟨_, ⟨⟩, _⟩) := ihc
      refine .inl (hc.addArm ?_ (spliced_leavesOf ih))
      rintro v ⟨⟩
      exact hlabel
  | defaultArm _ _ hc' ihc ih =>
      rw [CaseTable.defaultArm?_ok hc']
      obtain (hc | ⟨_, ⟨⟩, _⟩) := ihc
      refine .inl (hc.addArm ?_ (spliced_leavesOf ih))
      rintro v ⟨⟩

/-- **The text of a statement is read back as its tree.** Every `else` is with its own `if`, and
every head and every arm governs its own children. -/
theorem Built.read_render (h : s.Built d) (g : Strengths) (depth : Nat) :
    readStatements d g (s.render depth) = some s.nodes := by
  obtain ⟨ts, hsealed, hread⟩ : Layout.Prints (IsSequence d g) (s.render depth) s.nodes := by
    rcases h.isSpliced with hs | ⟨items, rfl, hitems⟩
    · obtain ⟨ts, hsealed, hread⟩ := (hs.prints depth).1
      refine ⟨ts, hsealed, ?_⟩
      simpa using hread.append isSequence_nil
    · rw [render, nodes, nodesOf_eq]
      exact Layout.prints_join (Spliced.prints_children hitems fun t ht =>
        ((hitems t ht).prints depth).1)
  exact readStatements_eq hsealed.lexes.lex_eq hread

/-- A conditional without an alternative is the only child of a loop, which is the only child of a
conditional that has one. The loop is enclosed, and the alternative goes to the outer
conditional. -/
theorem read_render_nested :
    let d : Dialect := fun ts => match ts with
      | .word "analog" :: rest => some ([.word "analog"], rest)
      | _ => none
    let built : Except Fault Statement := do
      let inner ← Conditional.new? (.ident "a") [raw "$stop"]
      let loop ← while? (.ident "b") [inner.statement]
      let outer ← Conditional.new? (.ident "c") [loop]
      let outer ← outer.otherwise? [raw "$finish"]
      block? "analog" [outer.statement]
    ∃ s, built = .ok s ∧
      s.render 0 = "analog\n    if( c ) begin\n        while( b )\n            if( a )\n"
        ++ "                $stop;\n    end\n    else\n        $finish;\n" ∧
      readStatements d .standard (s.render 0) = some [.block (.unknown [.word "analog"])
        [.branch [.word "c"]
          [.block (.whileLoop [.word "b"]) [.branch [.word "a"] [.command [.word "$stop"]] []]]
          [.command [.word "$finish"]]]] := by
  intro d built
  have hlexes {w : String} (hword : IsWord w) (hname : Token.ofWord w = .word w) :
      Lexes w [.word w] := (lexes_word hword).of_eq (by rw [hname])
  have hraw {w : String} (h : Lexes w [.word w]) (hd : ∀ rest, d (.word w :: rest) = none) :
      (raw w).Built d :=
    .command ⟨[.word w], h, by simp, by simp [isStructural], fun rest => hd _⟩
  have hcondition {w : String} (k : Keyword) (h : Name.check w = .ok ()) :
      IsGroupText d k (Expr.ident (k := .bool) w).text := by
    have hlegible : (Expr.ident (k := .bool) w).Legible := by
      simpa [Expr.Legible, Expr.texts] using h
    exact hlegible.isExpressionText.isGroupText fun ts => rfl
  have hanalog := hlexes (w := "analog") (by decide) (by decide)
  have ha := hlexes (w := "a") (by decide) (by decide)
  have hb := hlexes (w := "b") (by decide) (by decide)
  have hc := hlexes (w := "c") (by decide) (by decide)
  have hstop := hlexes (w := "$stop") (by decide) (by decide)
  have hfinish := hlexes (w := "$finish") (by decide) (by decide)
  have hinner := Built.conditional (hcondition .cond (w := "a") (by decide))
    (List.forall_mem_singleton.mpr (hraw hstop fun rest => rfl)) rfl
  have hloop := Built.whileLoop (hcondition .while (w := "b") (by decide))
    (List.forall_mem_singleton.mpr hinner) rfl
  have houter := Built.conditional (hcondition .cond (w := "c") (by decide))
    (List.forall_mem_singleton.mpr hloop) rfl
  have hboth := Built.otherwise houter
    (List.forall_mem_singleton.mpr (hraw hfinish fun rest => rfl)) rfl
  have hblock := Built.block ⟨_, hanalog, rfl, fun rest => rfl⟩
    (List.forall_mem_singleton.mpr hboth) rfl
  refine ⟨_, rfl, by decide, (Built.read_render hblock .standard 0).trans ?_⟩
  rw [← hanalog.tokensOf, ← ha.tokensOf, ← hb.tokensOf, ← hc.tokensOf, ← hstop.tokensOf,
    ← hfinish.tokensOf]
  rfl

end Statement

end Stimulus
