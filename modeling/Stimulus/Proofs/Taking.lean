import Stimulus.Proofs.Naming
import Stimulus.Proofs.Poisoning
import Stimulus.Proofs.Rounding.Devices

/-!
# The names that devices take

A device fails for no other reason than a name: what it registers beside its names is always
accepted. So a device can be installed exactly if its names are vacant, and a series of devices
exactly if all their names are different, as long as nobody else takes one of them. Everybody else
takes the names that he chose, and **hidden** names, which start with an underscore and a dollar
sign.

## Main definitions

* `Name.Hidden`, `Takes`: the names that a step takes.
* `Namespace.Vacant`: names that can be claimed one after the other.
* `Module.Installs`: every device of a history is installed.

## Main results

* `Operation.build_takes`: an operation takes names that it registers, and hidden ones.
* `Operation.installs_iff`: a device is installed exactly if its names are vacant.
* `Module.installs_iff`: all devices of a history are installed exactly if their names are vacant.
-/

namespace Stimulus

open Build

/-! ### Hidden names -/

/-- A name is **hidden** if it starts with an underscore and a dollar sign. -/
def Name.Hidden (name : String) : Prop :=
  ['_', '$'] <+: name.toList

/-- What is put behind a hidden name is hidden. -/
theorem Name.Hidden.append {front : String} (h : Hidden front) (rest : String) :
    Hidden (front ++ rest) := by
  rw [Hidden, String.toList_append]
  exact List.IsPrefix.trans h (List.prefix_append _ _)

/-- Anonymous names are hidden. -/
theorem Name.hidden_anonymous (n : Nat) : Hidden (anonymous n) :=
  Hidden.append ⟨[], rfl⟩ _

/-- The names of the variables that control a sequence are hidden. -/
theorem SequenceControl.hidden_names (c : SequenceControl) : ∀ x ∈ c.names, Name.Hidden x := by
  simp only [names, List.forall_mem_cons]
  exact ⟨.append ⟨_, rfl⟩ _, .append ⟨_, rfl⟩ _, .append ⟨_, rfl⟩ _, .append ⟨_, rfl⟩ _,
    List.forall_mem_nil _⟩

/-! ### The names that a step takes -/

/-- From one module to another one names are taken, and none is given back. The new ones are
`chosen` or hidden. -/
structure Takes (chosen : List String) (m m' : Module) : Prop where
  keeps : m.names.taken ⊆ m'.names.taken
  new : ∀ x ∈ m'.names.taken, x ∈ m.names.taken ∨ x ∈ chosen ∨ Name.Hidden x

namespace Takes

variable {chosen : List String} {m m' : Module}

/-- Nothing is taken while the names stay as they are. -/
theorem of_eq (h : m'.names = m.names) : Takes chosen m m' := by
  constructor
  · rw [h]
    exact List.Subset.refl _
  · intro x hx
    rw [h] at hx
    exact .inl hx

/-- A single name is taken. -/
theorem of_enters {name : String} (h : m.names.Enters name m'.names)
    (hname : name ∈ chosen ∨ Name.Hidden name) : Takes chosen m m' := by
  refine ⟨h.subset, fun x hx => ?_⟩
  rw [h.taken_eq] at hx
  rcases List.mem_cons.mp hx with rfl | hx
  · exact .inr hname
  · exact .inl hx

/-- What two steps in a row take. -/
theorem trans {m₁ m₂ m₃ : Module} (h : Takes chosen m₁ m₂) (h' : Takes chosen m₂ m₃) :
    Takes chosen m₁ m₃ := by
  refine ⟨List.Subset.trans h.keeps h'.keeps, fun x hx => ?_⟩
  rcases h'.new x hx with hx | hx
  · exact h.new x hx
  · exact .inr hx

/-- More names are chosen. -/
theorem mono {more : List String} (h : Takes chosen m m') (hsub : chosen ⊆ more) :
    Takes more m m' :=
  ⟨h.keeps, fun x hx => (h.new x hx).imp_right (Or.imp_left (hsub ·))⟩

/-- Composed steps take what their parts take. -/
theorem composes (chosen : List String) : Composes fun m _ m' => Takes chosen m m' :=
  ⟨fun _ => .of_eq rfl, .trans, fun _ _ => .of_eq rfl⟩

/-- A named variable takes its name. -/
theorem namedVariable {k : Kind} {name : String} (initial : Expr k)
    (hname : name ∈ chosen ∨ Name.Hidden name) :
    Relates (fun m _ m' => Takes chosen m m') (Module.namedVariable name initial) :=
  (composes chosen).namedVariable fun _ _ hclaim => .of_enters (.claimed hclaim) hname

/-- An anonymous variable takes a hidden name. -/
theorem anonymousVariable {k : Kind} (initial : Expr k) :
    Relates (fun m _ m' => Takes chosen m m') (Module.anonymousVariable initial) :=
  fun _ => .of_enters .numbered (.inr (Name.hidden_anonymous _))

/-- A sequence takes hidden names. -/
theorem sequence (guard : Expr .bool) (items : List Statement) :
    Relates (fun m _ m' => Takes chosen m m') (Module.sequence guard items) := by
  intro m
  have hR := composes chosen
  let control : SequenceControl := ⟨m.sequences + 1⟩
  have hcontrol : Relates (fun m _ m' => Takes chosen m m') control.declare :=
    hR.declareControl control fun v initial hv =>
      namedVariable initial (.inr (control.hidden_names v.name hv))
  refine hR.sequence guard items hcontrol (fun _ _ => .of_eq rfl) (fun _ _ _ => .of_eq rfl)
    (fun index event m => ?_) (anonymousVariable _) fun _ => hR.add fun _ => .of_eq rfl
  rw [RelatesAt, Module.registerSignal_eq]
  exact .of_eq rfl

end Takes

/-- A registration takes the name that it claims, and hidden ones. -/
theorem Registration.build_takes (r : Registration) :
    Relates (fun m _ m' => Takes r.claimed m m') r.build := by
  have hR := Takes.composes r.claimed
  cases r with
  | net name width direction =>
      unfold build Module.declareNet
      refine relates_ite (hR.relates_fail _) (hR.claim_bind fun m names hclaim => ?_)
      exact .of_enters (.claimed hclaim) (.inl (List.mem_singleton_self name))
  | parameter name default =>
      refine hR.relates_bind (hR.claim_bind fun m names hclaim => ?_) fun _ => hR.relates_pure _
      exact .of_enters (.claimed hclaim) (.inl (List.mem_singleton_self name))
  | anonymous initial =>
      exact hR.relates_bind (Takes.anonymousVariable _) fun _ => hR.relates_pure _
  | named name initial =>
      refine hR.relates_bind (Takes.namedVariable _ ?_) fun _ => hR.relates_pure _
      exact .inl (List.mem_singleton_self name)
  | prologue s => exact hR.add fun _ => .of_eq rfl
  | body s => exact hR.add fun _ => .of_eq rfl
  | epilogue s => exact hR.add fun _ => .of_eq rfl
  | sequence guard items =>
      exact hR.relates_bind (Takes.sequence guard items) fun _ => hR.relates_pure _
  | marker tag => exact relates_modify fun m => .of_eq rfl

/-- A run of registrations takes the names that they claim, and hidden ones. -/
theorem Registration.runAll_takes (rs : List Registration) :
    Relates (fun m _ m' => Takes (claimedBy rs) m m') (runAll rs) := by
  refine runAll_relates (Takes.composes _) fun r hr => r.build_takes.mono fun m f m' h => ?_
  exact h.mono fun x hx => List.mem_flatMap.mpr ⟨r, hr, hx⟩

/-- **An operation takes** names that it registers and hidden ones, be it successful or not. -/
theorem Operation.build_takes (o : Operation) (m : Module) :
    Takes (claimedBy (o.registrations m.options.devices)) m (m.after [o]) := by
  refine Module.after_singleton ?_
  rw [o.build_eq]
  exact Registration.runAll_takes _ m

/-! ### Vacant names -/

/-- Names are **vacant** if they can be claimed one after the other: they are different, accepted
and not taken. -/
structure Namespace.Vacant (s : Namespace) (names : List String) : Prop where
  nodup : names.Nodup
  accepted : ∀ x ∈ names, Name.check x = .ok ()
  free : ∀ x ∈ names, x ∉ s.taken

/-- Some names and further ones are vacant if the further ones are vacant once the others are
taken. -/
theorem Namespace.vacant_append {s s' : Namespace} {xs ys : List String}
    (h : ∀ x, x ∈ s'.taken ↔ x ∈ xs ∨ x ∈ s.taken) :
    s.Vacant (xs ++ ys) ↔ s.Vacant xs ∧ s'.Vacant ys := by
  constructor
  · rintro ⟨hnodup, haccepted, hfree⟩
    obtain ⟨hx, hy, hne⟩ := List.nodup_append.mp hnodup
    rw [List.forall_mem_append] at haccepted hfree
    refine ⟨⟨hx, haccepted.1, hfree.1⟩, ⟨hy, haccepted.2, fun y hmem htaken => ?_⟩⟩
    rcases (h y).mp htaken with hxs | htaken
    · exact hne y hxs y hmem rfl
    · exact hfree.2 y hmem htaken
  · rintro ⟨hxs, hys⟩
    refine ⟨List.nodup_append.mpr ⟨hxs.nodup, hys.nodup, ?_⟩, ?_, ?_⟩
    · rintro x hx _ hy rfl
      exact hys.free x hy ((h x).mpr (.inl hx))
    · exact List.forall_mem_append.mpr ⟨hxs.accepted, hys.accepted⟩
    · refine List.forall_mem_append.mpr ⟨hxs.free, fun y hy htaken => ?_⟩
      exact hys.free y hy ((h y).mpr (.inr htaken))

/-- The first ones of vacant names are vacant. -/
theorem Namespace.Vacant.of_append_left {s : Namespace} {xs ys : List String}
    (h : s.Vacant (xs ++ ys)) : s.Vacant xs where
  nodup := h.nodup.of_append_left
  accepted x hx := h.accepted x (List.mem_append_left ys hx)
  free x hx := h.free x (List.mem_append_left ys hx)

/-- A single name is vacant if it is accepted and not taken. -/
theorem Namespace.vacant_singleton {s : Namespace} {name : String} :
    s.Vacant [name] ↔ Name.check name = .ok () ∧ name ∉ s.taken := by
  constructor
  · intro h
    exact ⟨h.accepted name (List.mem_singleton_self _), h.free name (List.mem_singleton_self _)⟩
  · rintro ⟨haccepted, hfree⟩
    exact ⟨List.nodup_singleton _, List.forall_mem_singleton.mpr haccepted,
      List.forall_mem_singleton.mpr hfree⟩

/-- No names are vacant. -/
theorem Namespace.vacant_nil (s : Namespace) : s.Vacant [] :=
  ⟨List.nodup_nil, List.forall_mem_nil _, List.forall_mem_nil _⟩

/-- The first registration claims its name, and so do the others. -/
theorem claimedBy_cons (r : Registration) (rs : List Registration) :
    claimedBy (r :: rs) = r.claimed ++ claimedBy rs :=
  List.flatMap_cons

/-! ### Steps that succeed -/

/-- A step **succeeds** at a module. -/
def Build.Succeeds {α : Type} (x : Build α) (m : Module) : Prop :=
  ∃ a m', x m = .ok a m'

/-- A composed step whose second part never fails succeeds exactly if its first part does. -/
theorem Build.succeeds_bind {α β : Type} {x : Build α} {f : α → Build β} (hf : ∀ a, Total (f a))
    (m : Module) : (x >>= f).Succeeds m ↔ x.Succeeds m := by
  constructor
  · rintro ⟨b, m', h⟩
    obtain ⟨a, m₁, hx, -⟩ := bind_ok.mp h
    exact ⟨a, m₁, hx⟩
  · rintro ⟨a, m₁, hx⟩
    obtain ⟨b, m', hb⟩ := hf a m₁
    exact ⟨b, m', bind_ok.mpr ⟨a, m₁, hx, hb⟩⟩

/-- Claiming a name succeeds exactly if the name is vacant. -/
theorem Module.succeeds_claim {m : Module} {name : String} :
    (Module.claim name).Succeeds m ↔ m.names.Vacant [name] := by
  rw [Namespace.vacant_singleton, Build.Succeeds, Module.claim,
    bind_of_ok (get_ok.mpr ⟨rfl, rfl⟩)]
  constructor
  · rintro ⟨u, m', h⟩
    obtain ⟨names, _, he, -⟩ := bind_ok.mp h
    obtain ⟨hident, hreserved, hfree, -⟩ := Namespace.of_claim_ok (ofExcept_ok.mp he).1
    exact ⟨Name.check_eq_ok.mpr ⟨hident, hreserved⟩, hfree⟩
  · rintro ⟨hcheck, hfree⟩
    rw [Namespace.claim_of_free hcheck hfree]
    exact ⟨_, _, rfl⟩

namespace Registration

/-- A registration is **plain** if nothing but its name can be refused: it declares a net of some
width or a named variable, or it adds a statement without script steps. -/
def isPlain : Registration → Bool
  | .net _ width _ => width != 0
  | .named _ _ => true
  | .prologue s => !s.hasScriptStep
  | .epilogue s => !s.hasScriptStep
  | _ => false

/-- A plain registration succeeds exactly if its name is vacant. -/
theorem succeeds_build {r : Registration} (hr : r.isPlain = true) {m : Module} :
    r.build.Succeeds m ↔ m.names.Vacant r.claimed := by
  cases r with
  | net name width direction =>
      have hwidth : width ≠ 0 := bne_iff_ne.mp hr
      rw [build, Module.declareNet, if_neg hwidth, succeeds_bind fun _ => total_modify _]
      exact Module.succeeds_claim
  | named name initial =>
      have hdeclare (_ : Unit) : Total (Module.declareVariable name initial.expr) :=
        fun m => ⟨_, _, rfl⟩
      rw [build, Module.namedVariable, succeeds_bind fun _ => total_pure _, succeeds_bind hdeclare]
      exact Module.succeeds_claim
  | prologue s =>
      have hs : s.hasScriptStep = false := by simpa [isPlain] using hr
      refine iff_of_true ?_ m.names.vacant_nil
      rw [build, Module.addPrologue, Module.checkSection, hs]
      exact ⟨_, _, rfl⟩
  | epilogue s =>
      have hs : s.hasScriptStep = false := by simpa [isPlain] using hr
      refine iff_of_true ?_ m.names.vacant_nil
      rw [build, Module.addEpilogue, Module.checkSection, hs]
      exact ⟨_, _, rfl⟩
  | _ => cases hr

/-- A plain registration that succeeds takes its name and nothing else. -/
theorem taken_of_build {r : Registration} (hr : r.isPlain = true) {m m' : Module} {u : Unit}
    (h : r.build m = .ok u m') : m'.names.taken = r.claimed ++ m.names.taken := by
  cases r with
  | net name width direction => exact (Module.declareNet_ok h).2.1
  | named name initial =>
      obtain ⟨_, _, hdeclare, h⟩ := bind_ok.mp h
      obtain ⟨-, rfl⟩ := pure_ok.mp h
      exact (Module.namedVariable_ok hdeclare).2.2.1
  | prologue s =>
      obtain ⟨-, rfl⟩ := Module.addPrologue_ok h
      rfl
  | epilogue s =>
      obtain ⟨-, rfl⟩ := Module.addEpilogue_ok h
      rfl
  | _ => cases hr

/-- A run of plain registrations that succeeds takes their names and nothing else. -/
theorem mem_taken_of_runAll {rs : List Registration} (hrs : ∀ r ∈ rs, r.isPlain = true)
    {m m' : Module} {u : Unit} (h : runAll rs m = .ok u m') (x : String) :
    x ∈ m'.names.taken ↔ x ∈ claimedBy rs ∨ x ∈ m.names.taken := by
  induction rs generalizing m with
  | nil =>
      obtain ⟨-, rfl⟩ := pure_ok.mp h
      simp [claimedBy]
  | cons r rs ih =>
      rw [List.forall_mem_cons] at hrs
      obtain ⟨_, m₁, hbuild, hrest⟩ := bind_ok.mp h
      rw [ih hrs.2 hrest, taken_of_build hrs.1 hbuild, claimedBy_cons, List.mem_append,
        List.mem_append, or_left_comm, or_assoc]

/-- **A run of plain registrations** succeeds exactly if their names are vacant. -/
theorem succeeds_runAll {rs : List Registration} (hrs : ∀ r ∈ rs, r.isPlain = true) {m : Module} :
    (runAll rs).Succeeds m ↔ m.names.Vacant (claimedBy rs) := by
  induction rs generalizing m with
  | nil => exact iff_of_true ⟨(), m, rfl⟩ m.names.vacant_nil
  | cons r rs ih =>
      rw [List.forall_mem_cons] at hrs
      have htaken {u : Unit} {m₁ : Module} (h : r.build m = .ok u m₁) (x : String) :
          x ∈ m₁.names.taken ↔ x ∈ r.claimed ∨ x ∈ m.names.taken := by
        rw [taken_of_build hrs.1 h, List.mem_append]
      rw [claimedBy_cons]
      constructor
      · rintro ⟨u, m', h⟩
        obtain ⟨_, m₁, hbuild, hrest⟩ := bind_ok.mp h
        rw [Namespace.vacant_append (htaken hbuild)]
        exact ⟨(succeeds_build hrs.1).mp ⟨_, m₁, hbuild⟩, (ih hrs.2).mp ⟨u, m', hrest⟩⟩
      · intro h
        have hfirst : m.names.Vacant r.claimed := h.of_append_left
        obtain ⟨_, m₁, hbuild⟩ := (succeeds_build hrs.1).mpr hfirst
        rw [Namespace.vacant_append (htaken hbuild)] at h
        obtain ⟨u, m', hrest⟩ := (ih hrs.2).mpr h.2
        exact ⟨u, m', bind_ok.mpr ⟨_, m₁, hbuild, hrest⟩⟩

end Registration

/-! ### Devices -/

namespace Operation

/-- Whether an operation installs devices on nets. -/
def isDevice : Operation → Bool
  | .voltageSource _ => true
  | .currentSource _ => true
  | .sourceMeasure _ => true
  | .digitalOutput _ _ => true
  | .digitalInput _ _ => true
  | .digitalPin _ _ => true
  | .clock _ _ => true
  | .switch _ _ => true
  | .outputBus _ _ => true
  | .inputBus _ _ => true
  | .pinBus _ _ => true
  | _ => false

/-- What devices register is plain. -/
theorem isPlain_registrations {o : Operation} (ho : o.isDevice = true) (d : DeviceDefaults) :
    ∀ r ∈ o.registrations d, r.isPlain = true := by
  have bits {wires : Bus} {f : Net → List Registration}
      (h : ∀ pin, (f pin).all (·.isPlain) = true) :
      ∀ r ∈ wires.bits.flatMap f, r.isPlain = true := by
    intro r hr
    obtain ⟨pin, -, hr⟩ := List.mem_flatMap.mp hr
    exact List.all_eq_true.mp (h pin) r hr
  cases o with
  | voltageSource pin => exact List.all_eq_true.mp rfl
  | currentSource pin => exact List.all_eq_true.mp rfl
  | sourceMeasure pin => exact List.all_eq_true.mp rfl
  | digitalOutput pin domain => exact List.all_eq_true.mp rfl
  | digitalInput pin domain => exact List.all_eq_true.mp rfl
  | digitalPin pin domain => exact List.all_eq_true.mp rfl
  | clock pin domain => exact List.all_eq_true.mp rfl
  | «switch» first second => exact List.all_eq_true.mp rfl
  | outputBus wires domain => exact bits fun _ => rfl
  | inputBus wires domain => exact bits fun _ => rfl
  | pinBus wires domain => exact bits fun _ => rfl
  | _ => cases ho

/-- **A device** is installed exactly if its names are vacant. -/
theorem succeeds_iff {o : Operation} (ho : o.isDevice = true) {m : Module} :
    o.build.Succeeds m ↔ m.names.Vacant (claimedBy (o.registrations m.options.devices)) := by
  rw [o.build_eq]
  exact Registration.succeeds_runAll (isPlain_registrations ho _)

/-- A device that is installed takes its names. -/
theorem mem_taken_of_succeeds {o : Operation} (ho : o.isDevice = true) {m : Module}
    (h : o.build.Succeeds m) (x : String) :
    x ∈ (m.after [o]).names.taken ↔
      x ∈ claimedBy (o.registrations m.options.devices) ∨ x ∈ m.names.taken := by
  obtain ⟨u, m', h⟩ := h
  rw [Module.after, h]
  rw [o.build_eq, deviceDefaults_bind_apply] at h
  exact Registration.mem_taken_of_runAll (isPlain_registrations ho _) h x

end Operation

/-! ### Series of devices -/

/-- The names that the devices of a history register. -/
def deviceNames (d : DeviceDefaults) (history : List Operation) : List String :=
  claimedBy (Module.registrations d (history.filter (·.isDevice)))

/-- The names of a device stand in front of those of the devices after it. -/
theorem deviceNames_cons {o : Operation} (ho : o.isDevice = true) (d : DeviceDefaults)
    (rest : List Operation) :
    deviceNames d (o :: rest) = claimedBy (o.registrations d) ++ deviceNames d rest := by
  rw [deviceNames, List.filter_cons_of_pos ho, Module.registrations, List.flatMap_cons, claimedBy,
    List.flatMap_append]
  rfl

/-- What is not a device has no names of devices. -/
theorem deviceNames_cons_other {o : Operation} (ho : o.isDevice = false) (d : DeviceDefaults)
    (rest : List Operation) : deviceNames d (o :: rest) = deviceNames d rest := by
  rw [deviceNames, List.filter_cons_of_neg (by simp [ho]), deviceNames]

namespace Module

/-- Every device of a history is **installed**, whatever else fails. -/
def Installs (m : Module) (history : List Operation) : Prop :=
  ∀ before o rest, history = before ++ o :: rest → o.isDevice = true →
    o.build.Succeeds (m.after before)

/-- The devices of a history are installed if the first one is, and then the others. -/
theorem installs_cons {m : Module} {o : Operation} {rest : List Operation} :
    m.Installs (o :: rest) ↔
      (o.isDevice = true → o.build.Succeeds m) ∧ (m.after [o]).Installs rest := by
  constructor
  · intro h
    refine ⟨h [] o rest rfl, fun before p more hrest hp => ?_⟩
    rw [← after_cons]
    exact h (o :: before) p more (by rw [hrest, List.cons_append]) hp
  · rintro ⟨hfirst, hrest⟩ before p more hsplit hp
    rcases List.cons_eq_append_iff.mp hsplit with ⟨rfl, hcons⟩ | ⟨before, rfl, rfl⟩
    · obtain ⟨rfl, -⟩ := List.cons.inj hcons
      exact hfirst hp
    · rw [after_cons]
      exact hrest before p more rfl hp

/-- Devices that are installed have different names, and none was taken. -/
theorem Installs.vacant {m : Module} {history : List Operation} (h : m.Installs history) :
    m.names.Vacant (deviceNames m.options.devices history) := by
  induction history generalizing m with
  | nil => exact m.names.vacant_nil
  | cons o rest ih =>
      obtain ⟨hfirst, hrest⟩ := installs_cons.mp h
      have hvacant := ih hrest
      rw [options_after] at hvacant
      cases ho : o.isDevice with
      | true =>
          rw [deviceNames_cons ho,
            Namespace.vacant_append (Operation.mem_taken_of_succeeds ho (hfirst ho))]
          exact ⟨(Operation.succeeds_iff ho).mp (hfirst ho), hvacant⟩
      | false =>
          rw [deviceNames_cons_other ho]
          refine ⟨hvacant.nodup, hvacant.accepted, fun x hx htaken => hvacant.free x hx ?_⟩
          exact (o.build_takes m).keeps htaken

/-- Names that nobody else takes stay vacant. -/
theorem vacant_after {m : Module} {names : List String} (h : m.names.Vacant names) (o : Operation)
    (hhidden : ∀ x ∈ names, ¬ Name.Hidden x)
    (hother : ∀ x ∈ claimedBy (o.registrations m.options.devices), x ∉ names) :
    (m.after [o]).names.Vacant names := by
  refine ⟨h.nodup, h.accepted, fun x hx htaken => ?_⟩
  rcases (o.build_takes m).new x htaken with htaken | hclaimed | hname
  · exact h.free x hx htaken
  · exact hother x hclaimed hx
  · exact hhidden x hx hname

/-- **A series of devices** is installed exactly if the names of all of them are vacant, as long as
none is hidden and nothing else in the history registers one of them. -/
theorem installs_iff {m : Module} {history : List Operation}
    (hhidden : ∀ x ∈ deviceNames m.options.devices history, ¬ Name.Hidden x)
    (hother : ∀ o ∈ history, o.isDevice = false →
      ∀ x ∈ claimedBy (o.registrations m.options.devices),
        x ∉ deviceNames m.options.devices history) :
    m.Installs history ↔ m.names.Vacant (deviceNames m.options.devices history) := by
  refine ⟨Installs.vacant, fun h => ?_⟩
  induction history generalizing m with
  | nil => exact fun before o rest hsplit => absurd hsplit (by simp)
  | cons o rest ih =>
      have hrest := ih (m := m.after [o])
      rw [options_after] at hrest
      rw [List.forall_mem_cons] at hother
      cases ho : o.isDevice with
      | true =>
          rw [deviceNames_cons ho] at h hhidden hother
          rw [List.forall_mem_append] at hhidden
          have hfirst := (Operation.succeeds_iff ho).mpr h.of_append_left
          rw [Namespace.vacant_append (Operation.mem_taken_of_succeeds ho hfirst)] at h
          refine installs_cons.mpr ⟨fun _ => hfirst, hrest hhidden.2 (fun p hp hpo x hx => ?_) h.2⟩
          exact fun hname => hother.2 p hp hpo x hx (List.mem_append_right _ hname)
      | false =>
          rw [deviceNames_cons_other ho] at h hhidden hother
          refine installs_cons.mpr ⟨fun h => absurd h (by simp [ho]), ?_⟩
          exact hrest hhidden hother.2 (vacant_after h o hhidden (hother.1 ho))

end Module

end Stimulus
