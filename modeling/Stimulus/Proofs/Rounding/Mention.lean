import Mathlib.Data.List.Infix
import Stimulus.Expr.Text
import Stimulus.Name
import Stimulus.Proofs.Characters

/-!
# Mentions of the rounding function

A text **mentions** the rounding function where its name stands as a word of its own: neither the
character in front of it nor the one after it continues it to a longer name. So `MARK_rtoi` is no
mention, and `_rtoi(x)` is one.

Mentions are told apart at every place where one text is joined to another one and either of the
two has a character there that no name is made of (`mentionsAt_append`). All else about mentions in
texts that are put together follows from this one fact. What the texts of a module have in common is
that each of their mentions is a call. `Rounds` says so, and also whether there is a call at all.

## Main results

* `mentionsAt_append`: the mentions in two texts that are joined.
* `Closed.append`: whether two texts that are joined call the rounding function.
-/

namespace Stimulus

/-! ### Mentions -/

/-- A text mentions the rounding function after `before` and in front of `after`. -/
structure MentionsAt (before after text : List Char) : Prop where
  text_eq : text = before ++ (Expr.roundName.toList ++ after)
  starts : ∀ c ∈ before.getLast?, Name.isRest c = false
  ends : ∀ c ∈ after.head?, Name.isRest c = false

/-- A text mentions the rounding function somewhere. -/
def Mentions (text : String) : Prop :=
  ∃ before after, MentionsAt before after text.toList

/-- A text calls the rounding function somewhere. -/
def CallsRounding (text : String) : Prop :=
  ∃ before after, MentionsAt before ('(' :: after) text.toList

/-- No name goes on beyond the end of the text, whatever follows it. -/
def ApartRight (text : List Char) : Prop :=
  ∀ c ∈ text.getLast?, Name.isRest c = false

/-- No name goes on into the text, whatever is in front of it. -/
def ApartLeft (text : List Char) : Prop :=
  ∀ c ∈ text.head?, Name.isRest c = false

instance (text : List Char) : Decidable (ApartRight text) :=
  inferInstanceAs (Decidable (∀ c ∈ text.getLast?, Name.isRest c = false))

instance (text : List Char) : Decidable (ApartLeft text) :=
  inferInstanceAs (Decidable (∀ c ∈ text.head?, Name.isRest c = false))

/-- What follows an apart text decides whether both are apart together. -/
theorem ApartRight.append {s t : List Char} (hs : ApartRight s) (ht : ApartRight t) :
    ApartRight (s ++ t) := by
  rcases List.eq_nil_or_concat t with rfl | ⟨t, c, rfl⟩
  · rwa [List.append_nil]
  · intro d hd
    exact ht d (by simpa using hd)

/-- Only the text on the right decides, if it is not empty. -/
theorem ApartRight.append_right {s t : List Char} (ht : ApartRight t) (hne : t ≠ []) :
    ApartRight (s ++ t) := by
  intro c hc
  rw [List.getLast?_append_of_ne_nil _ hne] at hc
  exact ht c hc

/-- Only the text on the left decides, if it is not empty. -/
theorem ApartLeft.append_left {s t : List Char} (hs : ApartLeft s) (hne : s ≠ []) :
    ApartLeft (s ++ t) := by
  intro c hc
  rw [List.head?_append_of_ne_nil _ hne] at hc
  exact hs c hc

/-- The name of the rounding function is a name. -/
theorem isRest_of_mem_roundName {c : Char} (h : c ∈ Expr.roundName.toList) :
    Name.isRest c = true := by
  revert c
  decide

/-- A text that is apart on its right ends in no part of the name of the rounding function. -/
theorem ApartRight.eq_nil {s p q : List Char} (h : ApartRight (s ++ p))
    (hname : Expr.roundName.toList = p ++ q) : p = [] := by
  rcases List.eq_nil_or_concat p with rfl | ⟨p, c, rfl⟩
  · rfl
  · have hc : Name.isRest c = true :=
      isRest_of_mem_roundName (by simp [hname])
    have : Name.isRest c = false := h c (by simp)
    rw [hc] at this
    cases this

/-- A text that is apart on its left starts with no part of the name of the rounding function. -/
theorem ApartLeft.eq_nil {t p q : List Char} (h : ApartLeft (q ++ t))
    (hname : Expr.roundName.toList = p ++ q) : q = [] := by
  cases q with
  | nil => rfl
  | cons c q =>
      have hc : Name.isRest c = true :=
        isRest_of_mem_roundName (by simp [hname])
      have : Name.isRest c = false := h c rfl
      rw [hc] at this
      cases this

/-- **Mentions in joined texts.** If either of two texts is apart from the other one, a mention in
both together lies in one of them. -/
theorem mentionsAt_append {s t before after : List Char} (h : ApartRight s ∨ ApartLeft t) :
    MentionsAt before after (s ++ t) ↔
      (∃ rest, after = rest ++ t ∧ MentionsAt before rest s) ∨
        ∃ rest, before = s ++ rest ∧ MentionsAt rest after t := by
  constructor
  · rintro ⟨heq, hstarts, hends⟩
    -- The name starts in the second text, or else it starts in the first one and ends somewhere.
    rcases List.append_eq_append_iff.mp heq with ⟨p, hbefore, ht⟩ | ⟨p, hs, hname⟩
    · refine .inr ⟨p, hbefore, ht, fun c hc => hstarts c ?_, hends⟩
      rw [hbefore, List.getLast?_append, Option.mem_def.mp hc]
      rfl
    · rcases List.append_eq_append_iff.mp hname with ⟨q, hp, hafter⟩ | ⟨q, hp, ht⟩
      · refine .inl ⟨q, hafter, by rw [hs, hp], hstarts, fun c hc => hends c ?_⟩
        rw [hafter, List.head?_append, Option.mem_def.mp hc]
        rfl
      -- The name would stand across the joint, but nothing of it is on the side that is apart.
      · rcases h with h | h
        · obtain rfl : p = [] := ApartRight.eq_nil (hs ▸ h) hp
          rw [List.nil_append] at hp
          refine .inr ⟨[], ?_, ?_, by simp, hends⟩
          · rw [hs, List.append_nil, List.append_nil]
          · rw [ht, hp, List.nil_append]
        · obtain rfl : q = [] := ApartLeft.eq_nil (ht ▸ h) hp
          rw [List.append_nil] at hp
          refine .inl ⟨[], ?_, ?_, hstarts, by simp⟩
          · rw [ht, List.nil_append, List.nil_append]
          · rw [hs, hp, List.append_nil]
  · rintro (⟨rest, rfl, heq, hstarts, hends⟩ | ⟨rest, rfl, heq, hstarts, hends⟩)
    · refine ⟨by rw [heq]; simp only [List.append_assoc], hstarts, ?_⟩
      cases rest with
      | cons c rest => exact hends
      | nil =>
          rcases h with h | h
          · rw [heq, List.append_nil] at h
            exact absurd (h.eq_nil (List.append_nil _).symm) (by decide)
          · exact h
    · refine ⟨by rw [heq, List.append_assoc], ?_, hends⟩
      rcases List.eq_nil_or_concat rest with rfl | ⟨rest, c, rfl⟩
      · rcases h with h | h
        · rwa [List.append_nil]
        · rw [heq, List.nil_append] at h
          exact absurd (h.eq_nil (List.nil_append _).symm) (by decide)
      · intro d hd
        exact hstarts d (by simpa using hd)

/-! ### Texts whose mentions are calls -/

/-- Every mention of the rounding function in a text is a call. -/
def OnlyCalls (text : List Char) : Prop :=
  ∀ before after, MentionsAt before after text → ∃ rest, after = '(' :: rest

/-- A text that is shorter than the name mentions nothing. -/
theorem onlyCalls_of_length {text : List Char} (h : text.length < 5) : OnlyCalls text := by
  intro before after hat
  have hlength := congrArg List.length hat.text_eq
  have hname : Expr.roundName.toList.length = 5 := rfl
  simp only [List.length_append, hname] at hlength
  omega

/-- Mentions stay calls when texts are joined. -/
theorem OnlyCalls.append {s t : List Char} (hs : OnlyCalls s) (ht : OnlyCalls t)
    (h : ApartRight s ∨ ApartLeft t) : OnlyCalls (s ++ t) := by
  intro before after hat
  rw [mentionsAt_append h] at hat
  rcases hat with ⟨rest, rfl, hat⟩ | ⟨rest, rfl, hat⟩
  · obtain ⟨more, rfl⟩ := hs _ _ hat
    exact ⟨more ++ t, rfl⟩
  · exact ht _ _ hat

/-- Every mention of the rounding function in a text is a call, and there is one if `calls`. -/
structure Rounds (calls : Bool) (text : String) : Prop where
  onlyCalls : OnlyCalls text.toList
  calls_iff : calls = true ↔ Mentions text

/-- A text of which no name goes on beyond its end, and whose mentions are calls. -/
structure Closed (calls : Bool) (text : String) : Prop extends Rounds calls text where
  right : ApartRight text.toList

/-- A text that mentions nothing and keeps whatever is around it apart. -/
structure Gap (text : String) : Prop extends Closed false text where
  left : ApartLeft text.toList
  ne_nil : text.toList ≠ []

variable {b c : Bool} {s t k : String}

/-- A text rounds without calls if it mentions nothing. -/
theorem rounds_false_iff : Rounds false t ↔ ¬ Mentions t := by
  constructor
  · intro h hmention
    exact absurd (h.calls_iff.mpr hmention) (by decide)
  · intro h
    refine ⟨fun before after hat => absurd ⟨before, after, hat⟩ h, ?_⟩
    simpa using h

namespace Rounds

/-- The same fact about an equal truth value. -/
theorem of_eq (h : Rounds b t) (hb : b = c) : Rounds c t :=
  hb ▸ h

/-- A text whose mentions are calls has calls if it has mentions. -/
theorem callsRounding_iff (h : Rounds b t) : CallsRounding t ↔ b = true := by
  rw [h.calls_iff]
  constructor
  · rintro ⟨before, after, hat⟩
    exact ⟨before, _, hat⟩
  · rintro ⟨before, after, hat⟩
    obtain ⟨rest, rfl⟩ := h.onlyCalls before after hat
    exact ⟨before, rest, hat⟩

/-- **Joined texts** round if both do and one is apart from the other one. -/
theorem append (hs : Rounds b s) (ht : Rounds c t)
    (h : ApartRight s.toList ∨ ApartLeft t.toList) : Rounds (b || c) (s ++ t) := by
  constructor
  · rw [String.toList_append]
    exact hs.onlyCalls.append ht.onlyCalls h
  · rw [Bool.or_eq_true, hs.calls_iff, ht.calls_iff]
    simp only [Mentions, String.toList_append, mentionsAt_append h]
    constructor
    · rintro (⟨before, after, hat⟩ | ⟨before, after, hat⟩)
      · exact ⟨before, _, .inl ⟨after, rfl, hat⟩⟩
      · exact ⟨_, after, .inr ⟨before, rfl, hat⟩⟩
    · rintro ⟨before, after, ⟨rest, -, hat⟩ | ⟨rest, -, hat⟩⟩
      · exact .inl ⟨before, rest, hat⟩
      · exact .inr ⟨rest, after, hat⟩

/-- A text that mentions nothing makes no difference. -/
theorem append_quiet (hs : Rounds b s) (ht : Rounds false t)
    (h : ApartRight s.toList ∨ ApartLeft t.toList) : Rounds b (s ++ t) :=
  (hs.append ht h).of_eq b.or_false

/-- A gap closes a text. -/
theorem gap (hs : Rounds b s) (hk : Gap k) : Closed b (s ++ k) where
  toRounds := hs.append_quiet hk.toRounds (.inr hk.left)
  right := by
    rw [String.toList_append]
    exact hk.right.append_right hk.ne_nil

end Rounds

namespace Closed

/-- A closed text may be followed by any other one. -/
theorem append (hs : Closed b s) (ht : Rounds c t) : Rounds (b || c) (s ++ t) :=
  hs.toRounds.append ht (.inl hs.right)

/-- A closed text that is followed by a closed one. -/
theorem append_closed (hs : Closed b s) (ht : Closed c t) : Closed (b || c) (s ++ t) where
  toRounds := hs.append ht.toRounds
  right := by
    rw [String.toList_append]
    exact hs.right.append ht.right

/-- The same fact about an equal truth value. -/
theorem of_eq (h : Closed b t) (hb : b = c) : Closed c t :=
  hb ▸ h

end Closed

/-- Two gaps in a row. -/
theorem Gap.append_gap (hs : Gap s) (hk : Gap k) : Gap (s ++ k) where
  toClosed := hs.toRounds.gap hk
  left := by
    rw [String.toList_append]
    exact hs.left.append_left hs.ne_nil
  ne_nil := by
    rw [String.toList_append]
    exact fun h => hs.ne_nil (List.append_eq_nil_iff.mp h).1

/-! ### Texts that mention nothing -/

/-- A text in which the name does not occur mentions nothing. -/
theorem rounds_of_notInfix (h : ¬ Expr.roundName.toList <:+: t.toList) : Rounds false t := by
  refine rounds_false_iff.mpr ?_
  rintro ⟨before, after, heq, -, -⟩
  exact h ⟨before, after, by rw [heq, List.append_assoc]⟩

/-- A text in which an underscore does not occur mentions nothing. -/
theorem rounds_of_notMem (h : '_' ∉ t.toList) : Rounds false t :=
  rounds_of_notInfix fun hname => h (hname.subset (by decide))

/-- A name other than that of the rounding function mentions nothing. -/
theorem rounds_of_name (h : ∀ c ∈ t.toList, Name.isRest c = true) (hne : t ≠ Expr.roundName) :
    Rounds false t := by
  refine rounds_false_iff.mpr ?_
  rintro ⟨before, after, heq, hstarts, hends⟩
  have hbefore : before = [] := by
    rcases List.eq_nil_or_concat before with hnil | ⟨l, c, rfl⟩
    · exact hnil
    · have := h c (by simp [heq])
      rw [hstarts c (by simp)] at this
      cases this
  have hafter : after = [] := by
    cases after with
    | nil => rfl
    | cons c l =>
        have := h c (by simp [heq])
        rw [hends c rfl] at this
        cases this
  refine hne (String.toList_inj.mp ?_)
  rw [heq, hbefore, hafter, List.nil_append, List.append_nil]

/-- A fixed text that is closed. -/
theorem closed_of (h : ¬ Expr.roundName.toList <:+: t.toList ∧ ApartRight t.toList) :
    Closed false t :=
  ⟨rounds_of_notInfix h.1, h.2⟩

/-- A fixed text that is a gap. -/
theorem gap_of (h : ¬ Expr.roundName.toList <:+: k.toList ∧ ApartRight k.toList ∧
    ApartLeft k.toList ∧ k.toList ≠ []) : Gap k :=
  ⟨closed_of ⟨h.1, h.2.1⟩, h.2.2.1, h.2.2.2⟩

/-! ### Lists of texts -/

/-- Every text of a list satisfies `P`, and one of the truth values that go with them is the first
argument. -/
inductive Each (P : Bool → String → Prop) : Bool → List String → Prop
  | nil : Each P false []
  | cons {b c : Bool} {t : String} {ts : List String} :
      P b t → Each P c ts → Each P (b || c) (t :: ts)

namespace Each

variable {P : Bool → String → Prop} {ts : List String}

/-- The same fact about an equal truth value. -/
theorem of_eq (h : Each P b ts) (hb : b = c) : Each P c ts :=
  hb ▸ h

/-- The texts of the members of a list. -/
theorem map {α : Type} {f : α → String} {g : α → Bool} {l : List α}
    (h : ∀ a ∈ l, P (g a) (f a)) : Each P (l.any g) (l.map f) := by
  induction l with
  | nil => exact .nil
  | cons a l ih =>
      exact .cons (h a List.mem_cons_self) (ih fun d hd => h d (List.mem_cons_of_mem _ hd))

/-- Texts that mention nothing. -/
theorem quiet {α : Type} {f : α → String} {l : List α} (h : ∀ a ∈ l, P false (f a)) :
    Each P false (l.map f) :=
  (Each.map (g := fun _ => false) h).of_eq (List.any_eq_false.mpr fun _ _ => Bool.false_ne_true)

/-- A list of one text. -/
theorem singleton (h : P b t) : Each P b [t] :=
  (Each.cons h .nil).of_eq b.or_false

/-- Texts with a gap between each two of them. -/
theorem intercalate (hk : Gap k) (h : Each Rounds b ts) :
    Rounds b (String.intercalate k ts) := by
  induction h with
  | nil => exact rounds_of_notMem (t := "") (by decide)
  | @cons b c t ts ht hts ih =>
      cases ts with
      | nil =>
          cases hts
          rw [String.intercalate_singleton]
          exact ht.of_eq b.or_false.symm
      | cons u us =>
          rw [String.intercalate_cons_cons]
          exact (ht.gap hk).append ih

/-- Closed texts one after the other. -/
theorem join (h : Each Closed b ts) : Closed b (String.join ts) := by
  induction h with
  | nil => exact closed_of (by decide)
  | cons ht _ ih =>
      rw [String.join_cons]
      exact ht.append_closed ih

end Each

end Stimulus
