import Mathlib.Data.List.Nodup
import Stimulus.Name

/-!
# Claiming names

A name that is claimed was not taken before and is taken afterwards, whether the user chose it or
it was numbered. For numbered names this rests on counting: among one number more than there are
names taken, some number is free.

## Main results

* `Namespace.of_claim_ok`: what a successful claim says.
* `Namespace.fresh_spec`: the next numbered name has the first free number after the latest one.
* `Namespace.Enters`: the ways in which a name gets taken, and what they have in common.
-/

namespace Stimulus

/-- Different numbers have different anonymous names. -/
theorem Name.anonymous_inj {a b : Nat} (h : Name.anonymous a = Name.anonymous b) : a = b := by
  have hd : Nat.toDigits 10 a = Nat.toDigits 10 b := by
    have := congrArg String.toList h
    simpa [Name.anonymous] using this
  rw [← Nat.ofDigitChars_ten_toDigits (n := a), hd, Nat.ofDigitChars_ten_toDigits]

/-- The names that are accepted. -/
theorem Name.check_eq_ok {name : String} :
    Name.check name = .ok () ↔ Name.isIdentifier name = true ∧ name ∉ Name.reserved := by
  unfold Name.check
  split
  case isTrue h =>
      simp only [Bool.not_eq_true'] at h
      simp [h]
  case isFalse h =>
      simp only [Bool.not_eq_true', Bool.not_eq_false] at h
      split
      case isTrue hreserved => simpa [h] using hreserved
      case isFalse hreserved => simpa [h] using hreserved

/-- An identifier has a first character, and the others may stand in a name. -/
theorem Name.exists_cons {name : String} (h : Name.isIdentifier name = true) :
    ∃ c rest, name.toList = c :: rest ∧ Name.isStart c = true ∧ rest.all Name.isRest = true := by
  unfold Name.isIdentifier at h
  cases hname : name.toList with
  | nil =>
      rw [hname] at h
      cases h
  | cons c rest =>
      rw [hname] at h
      obtain ⟨hstart, hrest⟩ := Bool.and_eq_true_iff.mp h
      exact ⟨c, rest, rfl, hstart, hrest⟩

/-- A first character and others that may stand in a name make an identifier. -/
theorem Name.isIdentifier_of_cons {name : String} {c : Char} {rest : List Char}
    (hname : name.toList = c :: rest) (hstart : Name.isStart c = true)
    (hrest : rest.all Name.isRest = true) : Name.isIdentifier name = true := by
  unfold Name.isIdentifier
  rw [hname]
  exact Bool.and_eq_true_iff.mpr ⟨hstart, hrest⟩

/-- An identifier is made of the characters of names. -/
theorem Name.isRest_of_isIdentifier {name : String} (h : Name.isIdentifier name = true) {c : Char}
    (hc : c ∈ name.toList) : Name.isRest c = true := by
  obtain ⟨d, rest, hname, hstart, hrest⟩ := Name.exists_cons h
  rw [hname, List.mem_cons] at hc
  rcases hc with rfl | hc
  · simp [Name.isRest, hstart]
  · exact List.all_eq_true.mp hrest c hc

/-- The digits of a natural may stand in a name. -/
theorem Name.isRest_of_mem_toString {n : Nat} {c : Char} (hc : c ∈ (toString n).toList) :
    Name.isRest c = true := by
  have hdigit : c.isDigit = true :=
    Nat.isDigit_of_mem_toDigits (b := 10) (n := n) (by decide) (by decide) (by simpa using hc)
  simp [Name.isRest, hdigit]

/-- An identifier with a number behind it is accepted if it starts with an underscore, which no
reserved word does. -/
theorem Name.check_numbered {front : String} (n : Nat) (h : Name.isIdentifier front = true)
    (hstart : front.toList.head? = some '_') : Name.check (front ++ toString n) = .ok () := by
  obtain ⟨c, rest, hfront, hc, hrest⟩ := Name.exists_cons h
  have hlist : (front ++ toString n).toList = c :: (rest ++ (toString n).toList) := by
    rw [String.toList_append, hfront, List.cons_append]
  refine Name.check_eq_ok.mpr ⟨Name.isIdentifier_of_cons hlist hc ?_, fun hmem => ?_⟩
  · rw [List.all_append, hrest, Bool.true_and, List.all_eq_true]
    exact fun d hd => Name.isRest_of_mem_toString hd
  · have hreserved : ∀ w ∈ Name.reserved, w.toList.head? ≠ some '_' := by decide
    rw [hfront] at hstart
    exact hreserved _ hmem (by rw [hlist]; exact hstart)

namespace Namespace

/-- A successful claim is one of an identifier that is neither reserved nor taken, and it takes
that identifier. -/
theorem of_claim_ok {s s' : Namespace} {name : String} (h : s.claim name = .ok s') :
    Name.isIdentifier name = true ∧ name ∉ Name.reserved ∧ name ∉ s.taken
      ∧ s' = { s with taken := name :: s.taken } := by
  unfold claim at h
  cases hc : Name.check name with
  | error f => rw [hc] at h; cases h
  | ok u =>
      rw [hc] at h
      change (if s.taken.contains name then _ else _) = _ at h
      obtain ⟨hident, hreserved⟩ := Name.check_eq_ok.mp hc
      split at h
      · cases h
      case isFalse htaken =>
          cases h
          exact ⟨hident, hreserved, by simpa using htaken, rfl⟩

/-- A name that is accepted and free can be claimed. -/
theorem claim_of_free {s : Namespace} {name : String} (hcheck : Name.check name = .ok ())
    (hfree : name ∉ s.taken) : s.claim name = .ok { s with taken := name :: s.taken } := by
  rw [claim, hcheck]
  change (if s.taken.contains name then _ else _) = _
  rw [if_neg (by simpa using hfree)]

/-- The search for a free number passes taken numbers only, and it ends at a free one or after all
its tries. -/
theorem firstFree_spec (taken : List String) (n tries : Nat) :
    (∀ k, n ≤ k → k < firstFree taken n tries → Name.anonymous k ∈ taken) ∧
      (Name.anonymous (firstFree taken n tries) ∉ taken ∨
        firstFree taken n tries = n + tries) := by
  induction tries generalizing n with
  | zero =>
      refine ⟨fun k hk hlt => ?_, .inr rfl⟩
      simp only [firstFree] at hlt
      omega
  | succ tries ih =>
      rw [firstFree]
      split
      case isTrue h =>
          obtain ⟨hpassed, hend⟩ := ih (n + 1)
          refine ⟨fun k hk hlt => ?_, hend.imp_right fun h => by omega⟩
          rcases Nat.eq_or_lt_of_le hk with rfl | hk
          · simpa using h
          · exact hpassed k hk hlt
      case isFalse h =>
          refine ⟨fun k hk hlt => ?_, .inl (by simpa using h)⟩
          omega

/-- The next numbered name is not taken. -/
theorem fresh_notMem (s : Namespace) : s.fresh.1 ∉ s.taken := by
  intro hmem
  obtain ⟨hpassed, hend⟩ := firstFree_spec s.taken (s.counter + 1) s.taken.length
  rcases hend with hfree | hend
  · exact hfree hmem
  -- All numbers that were tried are taken, and so is the last one: these are too many.
  · let tried := (List.range (s.taken.length + 1)).map fun i => Name.anonymous (s.counter + 1 + i)
    have hnodup : tried.Nodup := by
      refine List.Nodup.map_on ?_ List.nodup_range
      intro a _ b _ hab
      have := Name.anonymous_inj hab
      omega
    have hsub : tried ⊆ s.taken := by
      intro name hname
      obtain ⟨i, hi, rfl⟩ := List.mem_map.mp hname
      rcases Nat.lt_or_ge i s.taken.length with hlt | hge
      · exact hpassed _ (by omega) (by omega)
      · obtain rfl : i = s.taken.length := by
          have := List.mem_range.mp hi
          omega
        rw [← hend]
        exact hmem
    have := hnodup.length_le_of_subset hsub
    simp only [tried, List.length_map, List.length_range] at this
    omega

/-- The next numbered name is taken afterwards. -/
theorem fresh_taken (s : Namespace) : s.fresh.2.taken = s.fresh.1 :: s.taken :=
  rfl

/-- The search for a free number goes on for as many numbers as it has tries at most. -/
theorem le_firstFree (taken : List String) (n tries : Nat) :
    n ≤ firstFree taken n tries ∧ firstFree taken n tries ≤ n + tries := by
  induction tries generalizing n with
  | zero => exact ⟨Nat.le_refl _, Nat.le_refl _⟩
  | succ tries ih =>
      rw [firstFree]
      split
      · obtain ⟨hge, hle⟩ := ih (n + 1)
        omega
      · omega

/-- **The next number** is the first one after the latest number whose name is free. It is found
after at most one try more than there are names taken. -/
theorem fresh_spec (s : Namespace) :
    ∃ n, s.fresh = (Name.anonymous n, ⟨Name.anonymous n :: s.taken, n⟩) ∧
      s.counter < n ∧ n ≤ s.counter + s.taken.length + 1 ∧ Name.anonymous n ∉ s.taken ∧
      ∀ k, s.counter < k → k < n → Name.anonymous k ∈ s.taken := by
  obtain ⟨hge, hle⟩ := le_firstFree s.taken (s.counter + 1) s.taken.length
  obtain ⟨hpassed, -⟩ := firstFree_spec s.taken (s.counter + 1) s.taken.length
  refine ⟨_, rfl, hge, by omega, s.fresh_notMem, fun k hk hlt => hpassed k hk hlt⟩

/-! ### Entries -/

/-- The ways in which a name gets taken: it is claimed, or it is numbered. -/
inductive Enters (s : Namespace) : String → Namespace → Prop where
  | claimed {name : String} {s' : Namespace} : s.claim name = .ok s' → s.Enters name s'
  | numbered : s.Enters s.fresh.1 s.fresh.2

namespace Enters

variable {s s' : Namespace} {name : String}

/-- A name that enters is accepted. -/
theorem check (h : s.Enters name s') : Name.check name = .ok () := by
  cases h with
  | claimed h =>
      obtain ⟨hident, hreserved, -⟩ := of_claim_ok h
      exact Name.check_eq_ok.mpr ⟨hident, hreserved⟩
  | numbered => exact Name.check_numbered _ (by decide) (by decide)

/-- A name that enters was free. -/
theorem notMem (h : s.Enters name s') : name ∉ s.taken := by
  cases h with
  | claimed h => exact (of_claim_ok h).2.2.1
  | numbered => exact s.fresh_notMem

/-- A name that enters is taken afterwards, and no other name is. -/
theorem taken_eq (h : s.Enters name s') : s'.taken = name :: s.taken := by
  cases h with
  | claimed h => rw [(of_claim_ok h).2.2.2]
  | numbered => exact s.fresh_taken

/-- Names that are taken stay taken. -/
theorem subset (h : s.Enters name s') : s.taken ⊆ s'.taken := by
  rw [h.taken_eq]
  exact List.subset_cons_self _ _

/-- Numbers do not fall. -/
theorem counter_le (h : s.Enters name s') : s.counter ≤ s'.counter := by
  cases h with
  | claimed h =>
      obtain ⟨-, -, -, rfl⟩ := of_claim_ok h
      exact Nat.le_refl _
  | numbered =>
      obtain ⟨n, hfresh, hlt, -⟩ := s.fresh_spec
      rw [hfresh]
      exact Nat.le_of_lt hlt

end Enters

end Namespace

end Stimulus
