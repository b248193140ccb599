import Stimulus.Proofs.History

/-!
# What devices register

The devices differ in their equations, but what they enter into a module is much the same:
declarations, contributions to branches between a few nets, and, for a clock, one block in the
prologue.

## Main definitions

* `Expr.branches`, `Command.branches`: the branches whose potential or flow is accessed.
* `Operation.terminals`: the nets between which the device of an operation contributes.

## Main results

* `Operation.serves`: every registration of a device declares something, contributes between its
  terminals or adds a block of commands to the prologue.
-/

namespace Stimulus

/-! ### Accesses -/

/-- The nets of a branch. -/
def Branch.nets (b : Branch) : List Net :=
  b.positive :: b.negative.toList

/-- The branches that an expression accesses, in the order in which they are written. -/
def Expr.branches : {k : Kind} → Expr k → List Branch
  | _, .raw _ => []
  | _, .ident _ => []
  | _, .real _ => []
  | _, .integer _ => []
  | _, .bool _ => []
  | _, .arith _ _ a b => a.branches ++ b.branches
  | _, .compare _ _ a b => a.branches ++ b.branches
  | _, .connect _ a b => a.branches ++ b.branches
  | _, .neg _ a => a.branches
  | _, .complement a => a.branches
  | _, .not a => a.branches
  | _, .abs _ a => a.branches
  | _, .call _ x => x.branches
  | _, .call₂ _ x y => x.branches ++ y.branches
  | _, .slew x r f => x.branches ++ r.branches ++ f.branches
  | _, .transition x d r f => x.branches ++ d.branches ++ r.branches ++ f.branches
  | _, .power a b => a.branches ++ b.branches
  | _, .round x => x.branches
  | _, .ofInteger n => n.branches
  | _, .indicator c => c.branches
  | _, .select c a b => c.branches ++ a.branches ++ b.branches
  | _, .access b => [b]
  | _, .environment _ => []
  | _, .analysis _ => []
  | _, .openFile _ _ => []

/-- The branches that a command accesses. A contribution accesses the branch it drives. -/
def Command.branches : Command → List Branch
  | .assign _ value => value.expr.branches
  | .contribute branch value => branch :: value.branches
  | .print _ file _ arguments =>
    file.toList.flatMap (·.branches) ++ arguments.flatMap (·.expr.branches)
  | .closeFile file => file.branches
  | .boundStep step => step.branches
  | _ => []

section Branches

variable (a b : Expr .real) (pin other : Net)

/-- A sum accesses what its operands access. -/
@[simp] theorem Expr.branches_add : (a.add b).branches = a.branches ++ b.branches := rfl

/-- A difference accesses what its operands access. -/
@[simp] theorem Expr.branches_sub : (a.sub b).branches = a.branches ++ b.branches := rfl

/-- A product accesses what its operands access. -/
@[simp] theorem Expr.branches_mul : (a.mul b).branches = a.branches ++ b.branches := rfl

/-- A quotient accesses what its operands access. -/
@[simp] theorem Expr.branches_div : (a.div b).branches = a.branches ++ b.branches := rfl

/-- The value of a variable accesses nothing. -/
@[simp] theorem Variable.branches_expr {k : Kind} (v : Variable k) : v.expr.branches = [] := rfl

/-- Smoothing accesses nothing more. -/
@[simp] theorem Edges.branches_smooth (e : Edges) : (e.smooth a).branches = a.branches := by
  simp [smooth, Expr.branches]

/-- The potential of a net is accessed. -/
@[simp] theorem Net.branches_potential : pin.potential.branches = [.potential pin] := rfl

/-- The flow of a net is accessed. -/
@[simp] theorem Net.branches_flow : pin.flow.branches = [.flow pin] := rfl

/-- A contribution accesses its branch and what its value accesses. -/
@[simp] theorem Branch.branches_contribute (branch : Branch) :
    (branch.contribute a).branches = branch :: a.branches := rfl

/-- The potential of a net is between the net and ground. -/
@[simp] theorem Branch.nets_potential : (Branch.potential pin).nets = [pin] := rfl

/-- The flow of a net is between the net and ground. -/
@[simp] theorem Branch.nets_flow : (Branch.flow pin).nets = [pin] := rfl

/-- The potential between two nets is between them. -/
@[simp] theorem Branch.nets_potentialBetween :
    (Branch.potentialBetween pin other).nets = [pin, other] := rfl

/-- The flow between two nets is between them. -/
@[simp] theorem Branch.nets_flowBetween :
    (Branch.flowBetween pin other).nets = [pin, other] := rfl

end Branches

/-- A command whose accesses are all between some nets. -/
def Command.Between (nets : List Net) (c : Command) : Prop :=
  ∀ b ∈ c.branches, ∀ n ∈ b.nets, n ∈ nets

/-! ### Registrations of devices -/

/-- A registration **serves** a device between some nets: it declares something, contributes to a
branch between them, or adds a block of plain statements that runs when an event happens. -/
inductive Registration.Serves (nets : List Net) : Registration → Prop
  | declaration {r : Registration} (h : r.placed = []) : Serves nets r
  | contribution {branch : Branch} {value : Expr .real}
      (h : (branch.contribute value).Between nets) : Serves nets (.contribution branch value)
  | tick {event : Event} {items : List Statement}
      (h : ∀ s ∈ items, s.hasScriptStep = false ∧ s.hasEventBlock = false) :
      Serves nets (.prologue (.block (.onEvent event) items))

/-- What serves a device between some nets serves one between more. -/
theorem Registration.Serves.mono {nets more : List Net} {r : Registration} (h : r.Serves nets)
    (hsub : nets ⊆ more) : r.Serves more := by
  cases h with
  | declaration h => exact .declaration h
  | contribution h => exact .contribution fun b hb n hn => hsub (h b hb n hn)
  | tick h => exact .tick h

/-- The net of the driver of a bidirectional pin. -/
def Net.driver (pin : Net) : Net :=
  .scalar (pin.owned "aux")

section Devices

variable (d : DeviceDefaults)

/-- The times of an output are declared. -/
theorem Edges.serves (nets : List Net) (owned : String → String) :
    ∀ r ∈ Edges.registrations d owned, r.Serves nets := by
  simp only [Edges.registrations, List.forall_mem_cons]
  exact ⟨.declaration rfl, .declaration rfl, List.forall_mem_nil _⟩

/-- A source contributes to a branch of its net. -/
theorem Source.serves {branch : Net → Branch} {pin : Net} (hbranch : (branch pin).nets = [pin]) :
    ∀ r ∈ Source.registrations d branch pin, r.Serves [pin] := by
  simp only [Source.registrations, List.cons_append, List.forall_mem_cons,
    List.forall_mem_append]
  refine ⟨.declaration rfl, Edges.serves d _ _, .contribution ?_, List.forall_mem_nil _⟩
  simp [Command.Between, Expr.branches, hbranch]

/-- A source-measure unit contributes to the flow of its net. -/
theorem SourceMeasure.serves (pin : Net) :
    ∀ r ∈ SourceMeasure.registrations d pin, r.Serves [pin] := by
  simp only [SourceMeasure.registrations, List.forall_mem_cons]
  refine ⟨.declaration rfl, .declaration rfl, .declaration rfl, .declaration rfl,
    .declaration rfl, .declaration rfl, .declaration rfl, .declaration rfl, .contribution ?_,
    .contribution ?_, .contribution ?_, List.forall_mem_nil _⟩
  all_goals simp [Command.Between, Expr.branches, SourceMeasure.regulator, SourceMeasure.half]

/-- A digital output contributes to the potential of its net. -/
theorem DigitalOutput.serves (pin domain : Net) :
    ∀ r ∈ DigitalOutput.registrations d pin domain, r.Serves [pin, domain] := by
  simp only [DigitalOutput.registrations, List.cons_append, List.forall_mem_cons,
    List.forall_mem_append]
  refine ⟨.declaration rfl, Edges.serves d _ _, .contribution ?_, .contribution ?_,
    List.forall_mem_nil _⟩
  all_goals simp [Command.Between, Expr.branches]

/-- A digital input contributes to the flow of its net. -/
theorem DigitalInput.serves (pin : Net) :
    ∀ r ∈ DigitalInput.registrations d pin, r.Serves [pin] := by
  simp only [DigitalInput.registrations, List.forall_mem_singleton]
  refine .contribution ?_
  simp [Command.Between, Expr.branches]

/-- A bidirectional pin contributes to branches of its net and of its driver. -/
theorem DigitalPin.serves (pin domain : Net) :
    ∀ r ∈ DigitalPin.registrations d pin domain, r.Serves [pin, domain, pin.driver] := by
  simp only [DigitalPin.registrations, List.cons_append, List.nil_append, List.forall_mem_cons,
    List.forall_mem_append]
  refine ⟨.declaration rfl, .declaration rfl, .declaration rfl,
    ⟨Edges.serves d _ _, .contribution ?_, .contribution ?_, List.forall_mem_nil _⟩,
    fun r hr => (DigitalInput.serves d pin r hr).mono (by simp)⟩
  all_goals simp [Command.Between, Expr.branches, Net.driver]

/-- A clock is a digital output with a block in the prologue. -/
theorem Clock.serves (pin domain : Net) :
    ∀ r ∈ Clock.registrations d pin domain, r.Serves [pin, domain] := by
  simp only [Clock.registrations, List.forall_mem_append, List.forall_mem_cons]
  refine ⟨DigitalOutput.serves d pin domain, .declaration rfl, .declaration rfl,
    .declaration rfl, .declaration rfl, .tick ?_, List.forall_mem_nil _⟩
  simp only [Clock.tick, List.forall_mem_cons]
  exact ⟨⟨rfl, rfl⟩, ⟨rfl, rfl⟩, ⟨rfl, rfl⟩, List.forall_mem_nil _⟩

/-- A switch contributes to the flow between its nets. -/
theorem Switch.serves (first second : Net) :
    ∀ r ∈ Switch.registrations d first second, r.Serves [first, second] := by
  simp only [Switch.registrations, List.cons_append, List.forall_mem_cons,
    List.forall_mem_append]
  refine ⟨.declaration rfl, Edges.serves d _ _, .contribution ?_, List.forall_mem_nil _⟩
  simp [Command.Between, Expr.branches]

/-- A marker contributes to the potential of its own net. -/
theorem Marker.serves (tag : String) :
    ∀ r ∈ Marker.registrations tag, r.Serves [.scalar ("MARK_" ++ tag)] := by
  simp only [Marker.registrations, List.forall_mem_cons]
  refine ⟨.declaration rfl, .declaration rfl, .contribution ?_, .declaration rfl,
    List.forall_mem_nil _⟩
  simp [Command.Between, Expr.branches]

end Devices

/-! ### Operations -/

namespace Operation

/-- The nets between which the device of an operation contributes, if it installs one. -/
def terminals : Operation → List Net
  | .marker tag => [.scalar ("MARK_" ++ tag)]
  | .voltageSource pin => [pin]
  | .currentSource pin => [pin]
  | .sourceMeasure pin => [pin]
  | .digitalOutput pin domain => [pin, domain]
  | .digitalInput pin _ => [pin]
  | .digitalPin pin domain => [pin, domain, pin.driver]
  | .clock pin domain => [pin, domain]
  | .switch first second => [first, second]
  | .outputBus wires domain => wires.bits.flatMap fun pin => [pin, domain]
  | .inputBus wires _ => wires.bits
  | .pinBus wires domain => wires.bits.flatMap fun pin => [pin, domain, pin.driver]
  | _ => []

/-- The statement that an operation hands over to a section, if it does. -/
def placed : Operation → List (Section × Statement)
  | .addPrologue s => [(.prologue, s)]
  | .addBody s => [(.body, s)]
  | .addEpilogue s => [(.epilogue, s)]
  | _ => []

/-- The registrations of the devices on some nets serve each of them. -/
theorem serves_flatMap {pins : List Net} {registrations : Net → List Registration}
    (nets : Net → List Net) (h : ∀ pin, ∀ r ∈ registrations pin, r.Serves (nets pin)) :
    ∀ r ∈ pins.flatMap registrations, r.Serves (pins.flatMap nets) := by
  intro r hr
  obtain ⟨pin, hpin, hr⟩ := List.mem_flatMap.mp hr
  exact (h pin r hr).mono fun n hn => List.mem_flatMap.mpr ⟨pin, hpin, hn⟩

/-- **What operations register.** A registration of an operation adds the statement that the
operation was given, or it serves the device that the operation installs. -/
theorem serves (o : Operation) (d : DeviceDefaults) :
    ∀ r ∈ o.registrations d, r.placed = o.placed ∨ r.Serves o.terminals := by
  cases o with
  | marker tag => exact fun r hr => .inr (Marker.serves tag r hr)
  | voltageSource pin => exact fun r hr => .inr (Source.serves d rfl r hr)
  | currentSource pin => exact fun r hr => .inr (Source.serves d rfl r hr)
  | sourceMeasure pin => exact fun r hr => .inr (SourceMeasure.serves d pin r hr)
  | digitalOutput pin domain => exact fun r hr => .inr (DigitalOutput.serves d pin domain r hr)
  | digitalInput pin domain => exact fun r hr => .inr (DigitalInput.serves d pin r hr)
  | digitalPin pin domain => exact fun r hr => .inr (DigitalPin.serves d pin domain r hr)
  | clock pin domain => exact fun r hr => .inr (Clock.serves d pin domain r hr)
  | «switch» first second => exact fun r hr => .inr (Switch.serves d first second r hr)
  | outputBus wires domain =>
      exact fun r hr => .inr (serves_flatMap _ (DigitalOutput.serves d · domain) r hr)
  | inputBus wires domain =>
      intro r hr
      have := serves_flatMap (fun pin => [pin]) (DigitalInput.serves d ·) r hr
      rw [List.flatMap_singleton'] at this
      exact .inr this
  | pinBus wires domain =>
      exact fun r hr => .inr (serves_flatMap _ (DigitalPin.serves d · domain) r hr)
  | _ => exact List.forall_mem_singleton.mpr (.inl rfl)

end Operation

end Stimulus
