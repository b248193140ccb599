import Stimulus.Proofs.Rounding.Wrapping
import Stimulus.Proofs.SideFiles.Reading

/-!
# The parts of a text

A text that is divided by banners consists of **parts**, each of which starts with an empty line and
a heading. A reader finds a part by its heading and takes the lines up to the next empty one. This
works only if no other line is empty or looks like a heading, and lines are wrapped before they are
read: a line may come out as several ones, and each of them has to be told from a heading.

It can be, since wrapping does not change the front of a line up to the first comma, and lines that
it starts are indented. So a part is read back as its wrapped lines, whatever the column.

## Main definitions

* `Text.wrapped`: the lines that wrapping makes of a line.
* `Text.OneLine`, `Text.Firm`: texts that are one line, and lines that wrapping leaves alone.
* `Text.title?`, `Text.contentOf`: how headings and the lines below them are read.
* `Text.Part`: a heading and the lines below it.
* `Text.Plain`: lines of which wrapping makes neither headings nor empty lines.

## Main results

* `Text.wrapped_eq`: lines that have no place for a break.
* `Text.Opening.plain`, `Text.Firm.plain`: how plain lines can be told.
* `Text.legible_of_length`: titles that can be read from their headings.
* `Text.contentOf_wrapLines`: the parts of a wrapped text are read back.
-/

namespace Stimulus.Text

variable {column : Nat} {line title : String}

/-! ### Lines that are wrapped -/

/-- Lines in a row, each of which is ended. -/
def ended (ls : List String) : String :=
  String.join (ls.map (· ++ "\n"))

/-- More lines are ended one after the other. -/
theorem ended_append (ls ms : List String) : ended (ls ++ ms) = ended ls ++ ended ms := by
  rw [ended, List.map_append, String.join_append, ended, ended]

/-- The first of the lines. -/
theorem ended_cons (l : String) (ls : List String) : ended (l :: ls) = l ++ "\n" ++ ended ls := by
  rw [ended, List.map_cons, String.join_cons, ended]

/-- The lines that wrapping makes of a line. -/
def wrapped (column : Nat) (line : String) : List String :=
  lines (softWrap column line ++ "\n")

/-- A text that is **one line**: it has no line feed, and no carriage return at its end. -/
structure OneLine (line : String) : Prop where
  feed : '\n' ∉ line.toList
  ending : line.toList.getLast? ≠ some '\r'

/-- One line with an end is one line. -/
theorem OneLine.lines_eq (h : OneLine line) : lines (line ++ "\n") = [line] := by
  have hfeed : "\n".toList = ['\n'] := rfl
  have hread := @linesAfter_line [] _ [] h.feed
  rw [List.append_nil, endLine_reverse h.ending] at hread
  rw [lines, String.toList_append, hfeed, hread, linesAfter, List.isEmpty_nil, if_pos rfl,
    List.map_singleton, String.ofList_toList]

/-- What ends like one line is one line if there are no line feeds in front of the end. -/
theorem OneLine.append {front back : String} (hback : OneLine back) (hne : back.toList ≠ [])
    (hfront : '\n' ∉ front.toList) : OneLine (front ++ back) where
  feed := by
    rw [String.toList_append, List.mem_append, not_or]
    exact ⟨hfront, hback.feed⟩
  ending := by
    rw [String.toList_append, List.getLast?_append_of_ne_nil _ hne]
    exact hback.ending

/-- Lines are wrapped one after the other. -/
theorem lines_wrapLines_ended {ls : List String} (h : ∀ l ∈ ls, OneLine l) (back : String) :
    lines (wrapLines column (ended ls ++ back))
      = ls.flatMap (wrapped column) ++ lines (wrapLines column back) := by
  have hfeed (l : String) : (l ++ "\n").toList.getLast? = some '\n' := by simp
  induction ls with
  | nil => rw [ended, List.map_nil, String.join_nil, String.empty_append, List.flatMap_nil,
      List.nil_append]
  | cons l ls ih =>
      rw [List.forall_mem_cons] at h
      have hline : wrapLines column (l ++ "\n") = softWrap column l ++ "\n" := by
        rw [wrapLines, h.1.lines_eq]
        simp
      have hsplit : ended (l :: ls) ++ back = l ++ "\n" ++ (ended ls ++ back) := by
        rw [ended_cons, String.append_assoc]
      rw [hsplit, wrapLines_append column (hfeed l), hline, lines_append (hfeed _), ih h.2,
        List.flatMap_cons, List.append_assoc]
      rfl

/-! ### Lines without a place for a break -/

/-- A line without closing parentheses stays as it is. -/
theorem Wrap.go_eq_of_paren {m : Wrap.Margin} {s : Wrap.State} {l : List Char}
    (hdue : s.due = false) (hlast : s.last ≠ some ')') (h : ')' ∉ l) : Wrap.go m s l = l := by
  induction l generalizing s with
  | nil => rfl
  | cons c l ih =>
      rw [List.mem_cons, not_or] at h
      have hnext : (s.next m c).due = false := by
        simp [Wrap.State.next, hlast]
      rw [Wrap.go, if_neg (by simp [hdue]), ih hnext (fun hc => h.1 (Option.some.inj hc).symm) h.2]

/-- **A line without a place for a break** stays one line. -/
theorem wrapped_eq (h : OneLine line) (hunbroken : ',' ∉ line.toList ∨ ')' ∉ line.toList) :
    wrapped column line = [line] := by
  have hwrap : softWrap column line = line := by
    rcases hunbroken with hcomma | hparen
    · exact softWrap_eq hcomma
    · unfold softWrap
      split
      · rfl
      · dsimp only
        rw [Wrap.go_eq_of_paren rfl (by simp [Wrap.State.start]) hparen, String.ofList_toList]
  rw [wrapped, hwrap, h.lines_eq]

/-! ### Lines that are broken -/

/-- The text up to the first comma is copied. -/
theorem Wrap.go_append {m : Wrap.Margin} {s : Wrap.State} {front : List Char} (hs : s.due = false)
    (h : ',' ∉ front) (l : List Char) :
    ∃ s', s'.due = false ∧ Wrap.go m s (front ++ l) = front ++ Wrap.go m s' l := by
  induction front generalizing s with
  | nil => exact ⟨s, hs, rfl⟩
  | cons c front ih =>
      rw [List.mem_cons, not_or] at h
      have hnext : (s.next m c).due = false := by
        rw [Bool.eq_false_iff]
        exact fun hdue => h.1 (Wrap.eq_comma_of_due hdue).symm
      obtain ⟨s', hs', heq⟩ := ih hnext h.2
      exact ⟨s', hs', by rw [List.cons_append, Wrap.go, if_neg (by simp [hs]), heq]; rfl⟩

/-- **The lines of a wrapped text** go on from what stands in front of it, or they start with the
blanks of a continuation. If a break is due, then what has been copied last is a comma. -/
theorem Wrap.mem_linesAfter_go {m : Wrap.Margin} (hm : '\n' ∉ m.continuation) {s : Wrap.State}
    {l before : List Char} (hdue : s.due = true → before.head? = some ',') (hfeed : '\n' ∉ l)
    (hbefore : l = [] → before.head? ≠ some '\r') (hend : l.getLast? ≠ some '\r') {x : List Char}
    (hx : x ∈ linesAfter before (Wrap.go m s l ++ ['\n'])) :
    before.reverse <+: x ∨ m.continuation <+: x := by
  have hended {before : List Char} (h : before.head? ≠ some '\r') :
      endLine before = before.reverse := by
    simpa using @endLine_reverse before.reverse (by rwa [List.getLast?_reverse])
  induction l generalizing s before with
  | nil =>
      rw [Wrap.go, List.nil_append, linesAfter, if_pos rfl, hended (hbefore rfl)] at hx
      obtain rfl : x = before.reverse := by simpa [linesAfter] using hx
      exact .inl (List.prefix_refl _)
  | cons c l ih =>
      rw [List.mem_cons, not_or] at hfeed
      have hlast (before : List Char) : l = [] → (c :: before).head? ≠ some '\r' := by
        rintro rfl
        exact hend
      have hend' : l.getLast? ≠ some '\r' := by
        cases l with
        | nil => simp
        | cons d l => rwa [List.getLast?_cons_cons] at hend
      have hnext (s : Wrap.State) (before : List Char) :
          (s.next m c).due = true → (c :: before).head? = some ',' :=
        fun h => congrArg some (Wrap.eq_comma_of_due h)
      rw [Wrap.go] at hx
      split at hx
      case isTrue h =>
          split at hx
          case isTrue hblank =>
              exact ih hdue hfeed.2 (fun _ => by rw [hdue h]; decide) hend' hx
          case isFalse hblank =>
              rw [List.cons_append, List.cons_append, linesAfter, if_pos rfl,
                hended (by rw [hdue h]; decide), List.mem_cons, List.append_assoc,
                linesAfter_append_of_notMem hm, List.append_nil, List.cons_append, linesAfter,
                if_neg (Ne.symm hfeed.1)] at hx
              rcases hx with rfl | hx
              · exact .inl (List.prefix_refl _)
              · have := ih (hnext _ m.continuation.reverse) hfeed.2 (hlast _) hend' hx
                refine .inr (this.elim (fun h => ?_) id)
                rw [List.reverse_cons, List.reverse_reverse] at h
                exact (List.prefix_append _ _).trans h
      case isFalse h =>
          rw [List.cons_append, linesAfter, if_neg (Ne.symm hfeed.1)] at hx
          have := ih (hnext s before) hfeed.2 (hlast _) hend' hx
          refine this.imp_left fun h => ?_
          rw [List.reverse_cons] at h
          exact (List.prefix_append _ _).trans h

/-- How a line may start: not with a blank, and without a comma. -/
structure Opening (first : String) : Prop where
  ne_nil : first.toList ≠ []
  blank : ∀ c ∈ first.toList.head?, isBlank c = false
  comma : ',' ∉ first.toList

/-- **The lines that wrapping makes** start like the line itself, as far as there is no comma, or
with a blank. -/
theorem Opening.mem_wrapped {first rest : String} (hfirst : Opening first)
    (h : OneLine (first ++ rest)) {l : String} (hl : l ∈ wrapped column (first ++ rest)) :
    first.toList <+: l.toList ∨ l.toList.head? = some ' ' := by
  rw [wrapped, softWrap] at hl
  split at hl
  case isTrue =>
      rw [h.lines_eq, List.mem_singleton] at hl
      rw [hl, String.toList_append]
      exact .inl (List.prefix_append _ _)
  case isFalse =>
      have hfeed := h.feed
      have hending := h.ending
      have hblanks : (first ++ rest).toList.takeWhile isBlank = [] := by
        obtain ⟨c, front, hcons⟩ := List.exists_cons_of_ne_nil hfirst.ne_nil
        have hc := hfirst.blank c (by rw [hcons]; rfl)
        rw [String.toList_append, hcons, List.cons_append,
          List.takeWhile_cons_of_neg (by simp [hc])]
      rw [hblanks, List.nil_append] at hl
      rw [String.toList_append] at hfeed hending hl
      rw [List.mem_append, not_or] at hfeed
      obtain ⟨x, hx, rfl⟩ := List.mem_map.mp hl
      obtain ⟨s, hs, hgo⟩ := Wrap.go_append (s := .start)
        (m := ⟨column, .replicate 4 ' ', (String.ofList (.replicate 4 ' ')).utf8ByteSize⟩)
        rfl hfirst.comma rest.toList
      rw [String.toList_append, String.toList_ofList, hgo, List.append_assoc,
        linesAfter_append_of_notMem hfeed.1, List.append_nil] at hx
      have hmargin : '\n' ∉ List.replicate 4 ' ' := by decide
      have hstarts := Wrap.mem_linesAfter_go hmargin (fun hdue => absurd hdue (by simp [hs]))
        hfeed.2 (fun hnil => ?_) ?_ hx
      · rw [String.toList_ofList]
        rw [List.reverse_reverse] at hstarts
        refine hstarts.imp_right fun ⟨rest, hrest⟩ => ?_
        rw [← hrest]
        rfl
      · rwa [hnil, List.append_nil, ← List.head?_reverse] at hending
      · rw [List.getLast?_append] at hending
        intro hlast
        exact hending (by rw [hlast, Option.some_or])

/-! ### Headings -/

/-- The line of a banner. -/
def heading (title : String) : String :=
  String.ofList (banner title).toList.dropLast

/-- A banner is its line with a line feed. -/
theorem banner_eq (title : String) : banner title = heading title ++ "\n" := by
  have hfeed : "\n".toList = ['\n'] := rfl
  have hend : ("*/\n".toList).getLast? = some '\n' := by decide
  have hlast : '\n' ∈ (banner title).toList.getLast? := by
    simp only [banner, String.toList_append, List.getLast?_append, hend, Option.some_or]
    rfl
  refine String.toList_inj.mp ?_
  rw [heading, String.toList_append, String.toList_ofList, hfeed,
    List.dropLast_append_getLast? _ hlast]

/-- What stands behind the first blank. -/
def behindBlank (cs : List Char) : List Char :=
  (cs.dropWhile (· != ' ')).drop 1

/-- The title of a heading: what stands between the first and the last blank of a comment that
starts with a dash. -/
def title? (line : String) : Option String :=
  match line.toList with
  | '/' :: '*' :: '-' :: rest =>
    if ' ' ∈ rest then some (String.ofList (behindBlank (behindBlank rest).reverse).reverse)
    else none
  | _ => none

/-- What stands behind the first blank. -/
theorem behindBlank_append {front : List Char} (h : ' ' ∉ front) (back : List Char) :
    behindBlank (front ++ ' ' :: back) = back := by
  have hfront : ∀ c ∈ front, (c != ' ') = true := by
    intro c hc
    rw [bne_iff_ne]
    rintro rfl
    exact h hc
  rw [behindBlank, List.dropWhile_append_of_pos hfront, List.dropWhile_cons_of_neg (by decide),
    List.drop_succ_cons, List.drop_zero]

/-- A line that does not start with dashes in a comment is not a heading. -/
theorem title?_eq_none (h : ∀ rest, line.toList ≠ '/' :: '*' :: '-' :: rest) :
    title? line = none := by
  unfold title?
  split
  case h_1 rest hline => exact absurd hline (h rest)
  case h_2 => rfl

/-- What a reader takes for the contents of a part: the lines below its heading up to the first
empty one. -/
def contentOf (title : String) (ls : List String) : List String :=
  ((ls.dropWhile fun l => title? l != some title).drop 1).takeWhile (· != "")

/-- The lines above a heading. -/
def above (title : String) (ls : List String) : List String :=
  ls.takeWhile fun l => title? l != some title

/-- A line is **plain** if wrapping makes neither headings nor empty lines of it. -/
structure Plain (line : String) : Prop extends OneLine line where
  plain : ∀ column, ∀ l ∈ wrapped column line, title? l = none ∧ l ≠ ""

/-- **A plain line** can be told by how it starts, if it does not start like a heading. -/
theorem Opening.plain {first rest : String} (hfirst : Opening first)
    (htitle : ¬ first.toList.take 3 <+: ['/', '*', '-']) (h : OneLine (first ++ rest)) :
    Plain (first ++ rest) where
  toOneLine := h
  plain column l hl := by
    rcases hfirst.mem_wrapped h hl with hstarts | hblank
    · refine ⟨title?_eq_none fun more heq => htitle ?_, ?_⟩
      · rw [heq] at hstarts
        have htake := hstarts.take 3
        rwa [List.take_succ_cons, List.take_succ_cons, List.take_succ_cons, List.take_zero] at htake
      · rintro rfl
        exact hfirst.ne_nil (List.prefix_nil.mp hstarts)
    · refine ⟨title?_eq_none fun more heq => ?_, ?_⟩
      · rw [heq] at hblank
        cases hblank
      · rintro rfl
        cases hblank

/-- A line that wrapping leaves alone, and that is neither a heading nor empty. -/
structure Firm (line : String) : Prop extends OneLine line where
  unbroken : ',' ∉ line.toList ∨ ')' ∉ line.toList
  no_title : title? line = none
  ne_empty : line ≠ ""

/-- Firm lines are plain. -/
theorem Firm.plain {line : String} (h : Firm line) : Plain line where
  toOneLine := h.toOneLine
  plain column l hl := by
    rw [wrapped_eq h.toOneLine h.unbroken, List.mem_singleton] at hl
    rw [hl]
    exact ⟨h.no_title, h.ne_empty⟩

/-- Firm lines stay as they are. -/
theorem flatMap_wrapped_eq {ls : List String} (h : ∀ l ∈ ls, Firm l) (column : Nat) :
    ls.flatMap (wrapped column) = ls := by
  rw [List.flatMap_congr fun l hl => wrapped_eq (h l hl).toOneLine (h l hl).unbroken,
    List.flatMap_singleton']

/-! ### Parts -/

/-- A part of a text: its title, and the lines below the heading. -/
structure Part where
  title : String
  content : List String

namespace Part

/-- The lines of a part. -/
def lines (p : Part) : List String :=
  "" :: heading p.title :: p.content

/-- A part whose lines are wrapped. -/
def wrap (column : Nat) (p : Part) : Part :=
  ⟨p.title, p.content.flatMap (wrapped column)⟩

end Part

/-- A part is **clear** if its title can be read from its heading, and there is neither an empty
line nor another heading in it. -/
structure Part.Clear (p : Part) : Prop where
  heading : title? (heading p.title) = some p.title
  content : ∀ l ∈ p.content, title? l = none ∧ l ≠ ""

/-- An empty line is not a heading. -/
theorem title?_empty : title? "" = none := by
  decide

section

variable {front : List String} {ps : List Part} (hfront : ∀ l ∈ front, title? l = none)
  (hps : ∀ p ∈ ps, p.Clear)

include hfront hps

/-- **The contents of a part** are found below its heading. -/
theorem contentOf_parts (title : String) :
    contentOf title (front ++ ps.flatMap Part.lines ++ [""])
      = ((ps.find? (·.title == title)).map (·.content)).getD [] := by
  have hskip {ls : List String} (h : ∀ l ∈ ls, title? l = none) (rest : List String) :
      (ls ++ rest).dropWhile (fun l => title? l != some title)
        = rest.dropWhile fun l => title? l != some title :=
    List.dropWhile_append_of_pos fun l hl => by rw [h l hl]; rfl
  rw [contentOf, List.append_assoc, hskip hfront]
  induction ps with
  | nil => rfl
  | cons p ps ih =>
      rw [List.forall_mem_cons] at hps
      obtain ⟨⟨hheading, hcontent⟩, hps⟩ := hps
      rw [List.flatMap_cons, Part.lines, List.append_assoc, List.cons_append, List.cons_append,
        List.dropWhile_cons_of_pos (by rw [title?_empty]; rfl)]
      by_cases heq : p.title = title
      · -- The next part, or the end, starts with an empty line.
        have hends : (ps.flatMap Part.lines ++ [""]).takeWhile (· != "") = [] := by
          cases ps <;> rfl
        rw [List.dropWhile_cons_of_neg (by simp [hheading, ← heq]), List.drop_succ_cons,
          List.drop_zero, List.takeWhile_append_of_pos (fun l hl => by simp [(hcontent l hl).2]),
          hends, List.append_nil, List.find?_cons_of_pos (by simp [heq])]
        rfl
      · rw [List.dropWhile_cons_of_pos (by simp [hheading, heq]),
          hskip fun l hl => (hcontent l hl).1, ih hps, List.find?_cons_of_neg (by simp [heq])]

/-- The parts above the heading of another one. -/
theorem above_parts {last : String} (hne : ∀ p ∈ ps, p.title ≠ last)
    (hlast : title? (heading last) = some last) (back : List String) :
    above last (front ++ ps.flatMap Part.lines ++ "" :: heading last :: back)
      = front ++ ps.flatMap Part.lines ++ [""] := by
  have hother : ∀ l ∈ front ++ ps.flatMap Part.lines ++ [""], (title? l != some last) = true := by
    rw [List.forall_mem_append, List.forall_mem_append, List.forall_mem_flatMap,
      List.forall_mem_singleton, title?_empty]
    refine ⟨⟨fun l hl => by rw [hfront l hl]; rfl, fun p hp => ?_⟩, rfl⟩
    rw [Part.lines, List.forall_mem_cons, List.forall_mem_cons, title?_empty, (hps p hp).heading]
    refine ⟨rfl, by simpa using hne p hp, fun l hl => ?_⟩
    rw [((hps p hp).content l hl).1]
    rfl
  rw [above, List.append_cons, List.takeWhile_append_of_pos hother,
    List.takeWhile_cons_of_neg (by simp [hlast]), List.append_nil]

end

/-! ### Parts of a wrapped text -/

/-- A title is **legible** if its heading is one line that has no place for a break, and from which
it can be read. -/
structure Legible (title : String) : Prop extends OneLine (heading title) where
  unbroken : ',' ∉ (heading title).toList
  title?_eq : title? (heading title) = some title

/-- The characters of a heading whose title leaves room for dashes on both sides. -/
theorem exists_toList_heading (h : title.length ≤ 70) :
    ∃ j k, (heading title).toList = '/' :: '*' :: '-' :: (List.replicate j '-' ++ ' ' ::
      (title.toList ++ ' ' :: (List.replicate k '-' ++ ['*', '/']))) := by
  have hblank : " ".length = 1 := by decide
  have hwidth : bannerWidth = 78 := rfl
  obtain ⟨j, hj⟩ : ∃ j, (bannerWidth - 4 - (" " ++ title ++ " ").length) / 2 = j + 1 := by
    refine ⟨_, (Nat.sub_add_cancel ?_).symm⟩
    rw [String.length_append, String.length_append]
    omega
  have hopen : "/*".toList = ['/', '*'] := rfl
  have hspace : " ".toList = [' '] := rfl
  have hclose : "*/\n".toList = ['*', '/'] ++ ['\n'] := rfl
  refine ⟨j, bannerWidth - 4 - (" " ++ title ++ " ").length - (j + 1), ?_⟩
  rw [heading, String.toList_ofList, banner, hj]
  simp only [String.toList_append, hopen, hspace, hclose, run, String.toList_ofList]
  rw [← List.append_assoc, List.dropLast_concat, List.replicate_succ]
  simp only [List.append_assoc, List.cons_append, List.nil_append]

/-- **A title is legible** if it is not too long, and there are neither line feeds nor commas in
it. -/
theorem legible_of_length (hlength : title.length ≤ 70)
    (hplain : ∀ c ∈ title.toList, c ≠ '\n' ∧ c ≠ ',') : Legible title := by
  obtain ⟨j, k, hchars⟩ := exists_toList_heading hlength
  have hother {c : Char} (htitle : c ∉ title.toList) (hc : c ∉ ['/', '*', '-', ' ']) :
      c ∉ (heading title).toList := by
    simp only [List.mem_cons, List.not_mem_nil, or_false, not_or] at hc
    obtain ⟨hslash, hstar, hdash, hspace⟩ := hc
    rw [hchars]
    simp [hslash, hstar, hdash, hspace, htitle]
  refine ⟨⟨hother (fun h => (hplain _ h).1 rfl) (by decide), ?_⟩,
    hother (fun h => (hplain _ h).2 rfl) (by decide), ?_⟩
  · have hend : (heading title).toList.getLast? = some '/' := by
      rw [hchars]
      simp [List.getLast?_append, List.getLast?_cons]
    rw [hend]
    decide
  · have hdashes (n : Nat) : ' ' ∉ List.replicate n '-' :=
      fun h => absurd (List.mem_replicate.mp h).2 (by decide)
    have hback : ' ' ∉ (List.replicate k '-' ++ ['*', '/']).reverse := by
      rw [List.mem_reverse, List.mem_append, not_or]
      exact ⟨hdashes k, by decide⟩
    rw [title?, hchars]
    change (if ' ' ∈ List.replicate j '-' ++ ' ' :: _ then _ else none) = some title
    rw [if_pos (by simp), behindBlank_append (hdashes j), List.reverse_append, List.reverse_cons,
      List.append_assoc, List.singleton_append, behindBlank_append hback, List.reverse_reverse,
      String.ofList_toList]

/-- A heading stays one line. -/
theorem Legible.wrapped_eq (h : Legible title) : wrapped column (heading title) = [heading title] :=
  Text.wrapped_eq h.toOneLine (.inl h.unbroken)

/-- An empty line is one line, also if it is wrapped. -/
theorem oneLine_empty : OneLine "" :=
  ⟨by decide, by decide⟩

/-- A part that can be read after its lines have been wrapped. -/
structure Part.Sound (p : Part) : Prop where
  title : Legible p.title
  content : ∀ l ∈ p.content, Plain l

/-- A sound part is one of single lines. -/
theorem Part.Sound.oneLine {p : Part} (h : p.Sound) : ∀ l ∈ p.lines, OneLine l :=
  List.forall_mem_cons.mpr ⟨oneLine_empty, List.forall_mem_cons.mpr
    ⟨h.title.toOneLine, fun l hl => (h.content l hl).toOneLine⟩⟩

/-- Wrapping makes a clear part of a sound one. -/
theorem Part.Sound.clear {p : Part} (h : p.Sound) (column : Nat) : (p.wrap column).Clear where
  heading := h.title.title?_eq
  content l hl := by
    obtain ⟨line, hline, hl⟩ := List.mem_flatMap.mp hl
    exact (h.content line hline).plain column l hl

/-- The lines of a part are wrapped apart from its heading. -/
theorem Part.Sound.flatMap_lines {p : Part} (h : p.Sound) (column : Nat) :
    p.lines.flatMap (wrapped column) = (p.wrap column).lines := by
  rw [Part.lines, List.flatMap_cons, List.flatMap_cons, h.title.wrapped_eq,
    Text.wrapped_eq oneLine_empty (.inl (by decide))]
  rfl

/-- **The parts of a wrapped text** are read back, as far as they stand above a given heading. -/
theorem contentOf_wrapLines {last : String} {front : List String} {ps : List Part}
    (hfront : ∀ l ∈ front, Plain l) (hps : ∀ p ∈ ps, p.Sound) (hne : ∀ p ∈ ps, p.title ≠ last)
    (hlast : Legible last) (column : Nat) (title : String) (back : String) :
    contentOf title (above last (lines (wrapLines column
        (ended (front ++ ps.flatMap Part.lines) ++ ("\n" ++ banner last ++ back)))))
      = ((ps.find? (·.title == title)).map (·.content.flatMap (wrapped column))).getD [] := by
  have hone : ∀ l ∈ front ++ ps.flatMap Part.lines ++ ["", heading last], OneLine l := by
    rw [List.forall_mem_append, List.forall_mem_append, List.forall_mem_flatMap,
      List.forall_mem_cons, List.forall_mem_singleton]
    exact ⟨⟨fun l hl => (hfront l hl).toOneLine, fun p hp => (hps p hp).oneLine⟩, oneLine_empty,
      hlast.toOneLine⟩
  have htext : ended (front ++ ps.flatMap Part.lines) ++ ("\n" ++ banner last ++ back)
      = ended (front ++ ps.flatMap Part.lines ++ ["", heading last]) ++ back := by
    rw [ended_append _ ["", _], ended_cons, ended_cons, banner_eq]
    simp [ended, String.append_assoc]
  have hfront' : ∀ l ∈ front.flatMap (wrapped column), title? l = none := by
    rw [List.forall_mem_flatMap]
    exact fun line hline l hl => ((hfront line hline).plain column l hl).1
  have hps' : ∀ p ∈ ps.map (Part.wrap column), p.Clear := by
    rw [List.forall_mem_map]
    exact fun p hp => (hps p hp).clear column
  have hne' : ∀ p ∈ ps.map (Part.wrap column), p.title ≠ last := by
    rw [List.forall_mem_map]
    exact hne
  have hparts : (ps.flatMap Part.lines).flatMap (wrapped column)
      = (ps.map (Part.wrap column)).flatMap Part.lines := by
    rw [List.flatMap_assoc, List.flatMap_map]
    exact List.flatMap_congr fun p hp => (hps p hp).flatMap_lines column
  have hends : ["", heading last].flatMap (wrapped column) = ["", heading last] := by
    rw [List.flatMap_cons, List.flatMap_singleton, hlast.wrapped_eq,
      wrapped_eq oneLine_empty (.inl (by decide))]
    rfl
  rw [htext, lines_wrapLines_ended hone, List.flatMap_append, List.flatMap_append, hparts, hends,
    List.append_assoc, List.cons_append, List.singleton_append,
    above_parts hfront' hps' hne' hlast.title?_eq, contentOf_parts hfront' hps', List.find?_map,
    Option.map_map]
  rfl

end Stimulus.Text
