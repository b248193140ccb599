import Stimulus.Proofs.Rounding.Kept

/-!
# Names that are made

Names that the caller did not choose mention the rounding function in no case: they are identifiers
other than its name. So a module whose construction succeeded holds no text that mentions the
function, if the caller gave no such text.

## Main results

* `Operation.derived`: an operation enters texts that the caller gave, and names that it declares
  itself, which are not that of the function.
* `Module.allTexts_after`: the texts of a module mention nothing if those of its history do not.
-/

namespace Stimulus

open Build

/-! ### Identifiers -/

/-- An identifier other than the name of the rounding function mentions nothing. -/
theorem not_mentions_of_identifier {name : String} (h : Name.isIdentifier name = true)
    (hne : name ≠ Expr.roundName) : ¬ Mentions name :=
  rounds_false_iff.mp (rounds_of_name (fun _ hc => Name.isRest_of_isIdentifier h hc) hne)

/-- A numbered name that starts with an underscore and a dollar sign mentions nothing. -/
theorem not_mentions_numbered {front : String} (n : Nat)
    (hfront : (∀ c ∈ front.toList, Name.isRest c = true) ∧ ['_', '$'] <+: front.toList) :
    ¬ Mentions (front ++ toString n) := by
  obtain ⟨hrest, more, hmore⟩ := hfront
  refine rounds_false_iff.mp (rounds_of_name (fun c hc => ?_) fun heq => ?_)
  · rw [String.toList_append, List.mem_append] at hc
    exact hc.elim (hrest c) Name.isRest_of_mem_toString
  · have hlist := congrArg String.toList heq
    rw [String.toList_append, ← hmore] at hlist
    injection hlist with _ hlist
    injection hlist with hdollar
    exact absurd hdollar (by decide)

/-- Anonymous names mention nothing. -/
theorem Name.not_mentions_anonymous (n : Nat) : ¬ Mentions (Name.anonymous n) :=
  not_mentions_numbered n (by decide)

/-- The names of the variables that control a sequence mention nothing. -/
theorem SequenceControl.not_mentions_names (c : SequenceControl) :
    ∀ t ∈ c.names, ¬ Mentions t := by
  simp only [names, List.forall_mem_cons]
  exact ⟨not_mentions_numbered _ (by decide), not_mentions_numbered _ (by decide),
    not_mentions_numbered _ (by decide), not_mentions_numbered _ (by decide),
    List.forall_mem_nil _⟩

/-! ### Names of devices -/

/-- A name that ends in a dollar sign is not that of the rounding function. -/
theorem ne_roundName_of_dollar (front : String) : front ++ "$" ≠ Expr.roundName := by
  intro h
  have hlast := congrArg (·.toList.getLast?) h
  rw [String.toList_append, List.getLast?_append_of_ne_nil _ (by decide)] at hlast
  exact absurd hlast (by decide)

/-- The name of a part of a device is not that of the rounding function. -/
@[simp] theorem Net.owned_ne (pin : Net) (part : String) : pin.owned part ≠ Expr.roundName :=
  ne_roundName_of_dollar _

/-- The name of a part of a switch is not that of the rounding function. -/
@[simp] theorem Switch.owned_ne (first second : Net) (part : String) :
    Switch.owned first second part ≠ Expr.roundName := by
  unfold Switch.owned Net.owned
  rw [← String.append_assoc]
  exact ne_roundName_of_dollar _

/-- The name of the net of a marker is not that of the rounding function. -/
@[simp] theorem Marker.port_ne (tag : String) : "MARK_" ++ tag ≠ Expr.roundName := by
  intro h
  have hlist := congrArg String.toList h
  rw [String.toList_append] at hlist
  injection hlist with hfirst
  exact absurd hfirst (by decide)

/-- The name of the variable of a marker is not that of the rounding function. -/
@[simp] theorem Marker.state_ne (tag : String) : "_$markSt_" ++ tag ≠ Expr.roundName := by
  intro h
  have hlist := congrArg String.toList h
  rw [String.toList_append] at hlist
  injection hlist with _ hlist
  injection hlist with hdollar
  exact absurd hdollar (by decide)

/-! ### Texts of devices -/

/-- The texts that registrations are made with. -/
def textsOfRegistrations (rs : List Registration) : List String :=
  rs.flatMap (·.texts)

/-- The names that registrations claim. -/
def claimedBy (rs : List Registration) : List String :=
  rs.flatMap (·.claimed)

/-- What a device is installed with: its texts are names that it declares or that the caller gave,
and it declares no function. -/
structure Registration.Derived (given : List String) (rs : List Registration) : Prop where
  texts : textsOfRegistrations rs ⊆ claimedBy rs ++ given
  claimed : ∀ x ∈ claimedBy rs, x ∈ given ∨ x ≠ Expr.roundName

namespace Registration.Derived

/-- Registrations that give the texts of the caller as they are. -/
theorem of_texts {r : Registration} {given : List String} (h : r.texts ⊆ given)
    (hclaimed : r.claimed ⊆ given) : Derived given [r] where
  texts := by
    simpa [textsOfRegistrations] using List.Subset.trans h (List.subset_append_right _ _)
  claimed x hx := .inl (hclaimed (by simpa [claimedBy] using hx))

/-- Devices on the nets of a list. -/
theorem flatMap {pins : List Net} {f : Net → List Registration} {given : List String}
    (h : ∀ pin ∈ pins, Derived given (f pin)) : Derived given (pins.flatMap f) where
  texts t ht := by
    obtain ⟨r, hr, ht⟩ := List.mem_flatMap.mp ht
    obtain ⟨pin, hpin, hr⟩ := List.mem_flatMap.mp hr
    have hmem := (h pin hpin).texts (List.mem_flatMap.mpr ⟨r, hr, ht⟩)
    rcases List.mem_append.mp hmem with hclaimed | hgiven
    · obtain ⟨r, hr, ht⟩ := List.mem_flatMap.mp hclaimed
      refine List.mem_append_left _ (List.mem_flatMap.mpr ⟨r, ?_, ht⟩)
      exact List.mem_flatMap.mpr ⟨pin, hpin, hr⟩
    · exact List.mem_append_right _ hgiven
  claimed x hx := by
    obtain ⟨r, hr, hx⟩ := List.mem_flatMap.mp hx
    obtain ⟨pin, hpin, hr⟩ := List.mem_flatMap.mp hr
    exact (h pin hpin).claimed x (List.mem_flatMap.mpr ⟨r, hr, hx⟩)

end Registration.Derived

section Forms

variable (name : String) (x : Float) (branch : Branch) (value : Expr .real)

/-- A quantity is registered with its name. -/
@[simp] theorem texts_quantity : (Registration.quantity name x).texts = [name] :=
  rfl

/-- A quantity claims its name. -/
@[simp] theorem claimed_quantity : (Registration.quantity name x).claimed = [name] :=
  rfl

/-- A flag is registered with its name. -/
@[simp] theorem texts_flag : (Registration.flag name).texts = [name] :=
  rfl

/-- A flag claims its name. -/
@[simp] theorem claimed_flag : (Registration.flag name).claimed = [name] :=
  rfl

/-- A contribution is registered with the texts of its branch and of its value. -/
@[simp] theorem texts_contribution :
    (Registration.contribution branch value).texts = branch.texts ++ value.texts :=
  rfl

/-- A contribution claims nothing. -/
@[simp] theorem claimed_contribution : (Registration.contribution branch value).claimed = [] :=
  rfl

/-- A net is registered with its name. -/
@[simp] theorem texts_net (width : Nat) (direction : Direction) :
    (Registration.net name width direction).texts = [name] :=
  rfl

/-- A net claims its name. -/
@[simp] theorem claimed_net (width : Nat) (direction : Direction) :
    (Registration.net name width direction).claimed = [name] :=
  rfl

/-- A statement of the prologue is registered with its texts. -/
@[simp] theorem texts_prologue (s : Statement) : (Registration.prologue s).texts = s.texts :=
  rfl

/-- A statement of the prologue claims nothing. -/
@[simp] theorem claimed_prologue (s : Statement) : (Registration.prologue s).claimed = [] :=
  rfl

/-- The tag of a marker is not written. -/
@[simp] theorem texts_marker (tag : String) : (Registration.marker tag).texts = [] :=
  rfl

/-- A marker claims nothing for its tag. -/
@[simp] theorem claimed_marker (tag : String) : (Registration.marker tag).claimed = [] :=
  rfl

/-- A scalar net is declared under its own name. -/
@[simp] theorem Net.given_scalar : (Net.scalar name).given = name :=
  rfl

/-- A value whose steps are smoothed is written with the names of both times. -/
@[simp] theorem texts_smooth (owned : String → String) :
    ((Edges.ownedBy owned).smooth value).texts = value.texts ++ [owned "rise", owned "fall"] := by
  simp [Edges.smooth, Edges.ownedBy, Expr.texts, Variable.expr]

end Forms

section Devices

open Registration (Derived)

variable (d : DeviceDefaults) (pin domain : Net)

/-- A source. -/
theorem Source.derived (nature : Nature) :
    Derived [pin.given] (Source.registrations d (⟨nature, ·, none⟩) pin) := by
  constructor
  · simp [textsOfRegistrations, claimedBy, Source.registrations, Edges.registrations, Expr.texts,
      Branch.texts]
  · simp [claimedBy, Source.registrations, Edges.registrations]

/-- A source-measure unit. -/
theorem SourceMeasure.derived : Derived [pin.given] (SourceMeasure.registrations d pin) := by
  constructor
  · simp [textsOfRegistrations, claimedBy, SourceMeasure.registrations, SourceMeasure.regulator,
      SourceMeasure.half, Net.potential, Expr.add, Expr.sub, Expr.mul, Expr.div, Expr.texts,
      Branch.flow, Branch.potential, Branch.texts]
  · simp [claimedBy, SourceMeasure.registrations]

/-- A digital output. -/
theorem DigitalOutput.derived :
    Derived [pin.given, domain.given] (DigitalOutput.registrations d pin domain) := by
  constructor
  · simp [textsOfRegistrations, claimedBy, DigitalOutput.registrations, Edges.registrations,
      Net.potential, Net.flow, Expr.mul, Expr.texts, Branch.flow, Branch.potential, Branch.texts]
  · simp [claimedBy, DigitalOutput.registrations, Edges.registrations]

/-- A digital input. -/
theorem DigitalInput.derived :
    Derived [pin.given, domain.given] (DigitalInput.registrations d pin) := by
  constructor
  · simp [textsOfRegistrations, claimedBy, DigitalInput.registrations, Net.potential, Expr.mul,
      Expr.texts, Branch.flow, Branch.potential, Branch.texts]
  · simp [claimedBy, DigitalInput.registrations]

/-- A bidirectional pin. -/
theorem DigitalPin.derived :
    Derived [pin.given, domain.given] (DigitalPin.registrations d pin domain) := by
  constructor
  · simp [textsOfRegistrations, claimedBy, DigitalPin.registrations, DigitalInput.registrations,
      Edges.registrations, Net.potential, Expr.mul, Expr.div, Expr.texts, Branch.flow,
      Branch.flowBetween, Branch.potential, Branch.potentialBetween, Branch.texts]
  · simp [claimedBy, DigitalPin.registrations, DigitalInput.registrations, Edges.registrations]

/-- What a clock does when its timer expires is written with the names of its variables. -/
theorem Clock.texts_tick :
    textsOf (Clock.ofNets pin domain).tick = [pin.owned "out", pin.owned "value",
      pin.owned "out", pin.owned "isOn", pin.owned "out", pin.owned "time",
      pin.owned "halfPeriod"] :=
  rfl

/-- A clock. -/
theorem Clock.derived :
    Derived [pin.given, domain.given] (Clock.registrations d pin domain) := by
  constructor
  · simp [textsOfRegistrations, claimedBy, Clock.registrations, Statement.texts, Head.texts,
      Event.after, Event.texts, Schedule.toList, Clock.texts_tick, DigitalOutput.registrations,
      Edges.registrations, Net.potential, Net.flow, Expr.mul, Expr.texts, Branch.flow,
      Branch.potential, Branch.texts]
  · simp [claimedBy, Clock.registrations, DigitalOutput.registrations, Edges.registrations]

/-- A switch. -/
theorem Switch.derived (first second : Net) :
    Derived [first.given, second.given] (Switch.registrations d first second) := by
  constructor
  · simp [textsOfRegistrations, claimedBy, Switch.registrations, Edges.registrations, Expr.mul,
      Expr.texts, Branch.flowBetween, Branch.potentialBetween, Branch.texts]
  · simp [claimedBy, Switch.registrations, Edges.registrations]

/-- A marker. -/
theorem Marker.derived (tag : String) : Derived [tag] (Marker.registrations tag) := by
  constructor
  · simp [textsOfRegistrations, claimedBy, Marker.registrations, Expr.texts, Branch.potential,
      Branch.texts]
  · simp [claimedBy, Marker.registrations]

/-- Devices on the bits of a bus. -/
theorem Bus.derived_bits {f : Net → List Registration} {given : List String} (wires : Bus)
    (h : ∀ pin : Net, pin.given = wires.name → Derived given (f pin)) :
    Derived given (wires.bits.flatMap f) := by
  refine .flatMap fun pin hpin => h pin ?_
  obtain ⟨i, -, rfl⟩ := List.mem_map.mp hpin
  rfl

/-- **An operation** makes no text that mentions the rounding function. -/
theorem Operation.derived (o : Operation) : Derived o.texts (o.registrations d) := by
  cases o with
  | marker tag => exact Marker.derived tag
  | voltageSource pin => exact Source.derived d pin .potential
  | currentSource pin => exact Source.derived d pin .flow
  | sourceMeasure pin => exact SourceMeasure.derived d pin
  | digitalOutput pin domain => exact DigitalOutput.derived d pin domain
  | digitalInput pin domain => exact DigitalInput.derived d pin domain
  | digitalPin pin domain => exact DigitalPin.derived d pin domain
  | clock pin domain => exact Clock.derived d pin domain
  | «switch» first second => exact Switch.derived d first second
  | outputBus wires domain =>
      refine Bus.derived_bits wires fun pin hpin => ?_
      rw [texts, ← hpin]
      exact DigitalOutput.derived d pin domain
  | inputBus wires domain =>
      refine Bus.derived_bits wires fun pin hpin => ?_
      rw [texts, ← hpin]
      exact DigitalInput.derived d pin domain
  | pinBus wires domain =>
      refine Bus.derived_bits wires fun pin hpin => ?_
      rw [texts, ← hpin]
      exact DigitalPin.derived d pin domain
  | _ => exact .of_texts (List.Subset.refl _) (by simp [Registration.claimed, texts])

end Devices

/-! ### Histories -/

/-- What is derived from texts that do not mention the rounding function, and has claimed
identifiers, does not mention it either. -/
theorem Registration.Derived.not_mentions {given : List String} {rs : List Registration}
    (h : Derived given rs) (hgiven : ∀ t ∈ given, ¬ Mentions t)
    (hclaimed : ∀ r ∈ rs, ∀ x ∈ r.claimed, Name.isIdentifier x = true) :
    ∀ r ∈ rs, ∀ t ∈ r.texts, ¬ Mentions t := by
  intro r hr t ht
  rcases List.mem_append.mp (h.texts (List.mem_flatMap.mpr ⟨r, hr, ht⟩)) with hmem | hmem
  · obtain ⟨s, hs, hname⟩ := List.mem_flatMap.mp hmem
    rcases h.claimed t hmem with hg | hne
    · exact hgiven t hg
    · exact not_mentions_of_identifier (hclaimed s hs t hname) hne
  · exact hgiven t hmem

namespace Module

/-- **A module** whose construction has succeeded holds no text that mentions the rounding
function, if no text given by the caller mentions it. -/
theorem allTexts_after {options : Options} {present name : String} {m : Module}
    (h : Module.new? options present name = .ok m) {history : List Operation}
    (hgiven : ∀ o ∈ history, ∀ t ∈ o.texts, ¬ Mentions t)
    (hfault : (m.after history).fault = none) :
    (m.after history).AllTexts (¬ Mentions ·) := by
  have hrun := after_ok hfault
  have hclaimed := Registration.isIdentifier_of_runAll hrun
  have hm := eq_of_new? h
  refine Registration.runAll_allTexts Name.not_mentions_anonymous
    SequenceControl.not_mentions_names hrun ?_ ?_ fun r hr => ?_
  · rw [hm]
    exact .nil
  · rw [hm]
    constructor <;> exact List.forall_mem_nil _
  · obtain ⟨o, ho, hro⟩ := List.mem_flatMap.mp hr
    refine (o.derived _).not_mentions (hgiven o ho) (fun s hs => hclaimed s ?_) r hro
    exact List.mem_flatMap.mpr ⟨o, ho, hs⟩

end Module

end Stimulus
