import Stimulus.Proofs.Declaring
import Stimulus.Proofs.Sequence.Registering

/-!
# Registrations

A **registration** enters one thing into a module: a net, a parameter, a variable, a statement of a
section, a sequence or the tag of a marker. Everything a user can do is made of registrations, so
what all registrations keep is kept by everything.

## Main results

* `Registration.build_relates_of`: what holds of the single changes that registrations make holds
  of the registrations, as far as statements are concerned under a condition on these.
* `Registration.build_relates`: the same without a condition.
* `tolerates_options`, `tolerates_header`, `tolerates_fault`: registrations leave the options, the
  name and the stamp alone, and they leave a fault behind exactly if they fail.
* `tolerates_initialised`: registrations keep the assignments of initial values in step with the
  variables.
* `tolerates_persist`, `tolerates_orderly`: registrations leave the shared blocks where they are,
  and they keep them in order.
-/

namespace Stimulus

open Build

/-! ### Registrations -/

/-- What enters one thing into a module. -/
inductive Registration where
  | net (name : String) (width : Nat) (direction : Direction)
  | parameter (name : String) (default : Value)
  | anonymous (initial : Value)
  | named (name : String) (initial : Value)
  | prologue (s : Statement)
  | body (s : Statement)
  | epilogue (s : Statement)
  | sequence (guard : Expr .bool) (items : List Statement)
  /-- Notes the tag of a marker. -/
  | marker (tag : String)

namespace Registration

/-- The construction step of a registration. -/
def build : Registration → Build Unit
  | .net name width direction => Module.declareNet name width direction
  | .parameter name default => do
    let _ ← Module.parameter name default.expr
    return ()
  | .anonymous initial => do
    let _ ← Module.anonymousVariable initial.expr
    return ()
  | .named name initial => do
    let _ ← Module.namedVariable name initial.expr
    return ()
  | .prologue s => Module.addPrologue s
  | .body s => Module.addBody s
  | .epilogue s => Module.addEpilogue s
  | .sequence guard items => do
    let _ ← Module.sequence guard items
    return ()
  | .marker tag => modify fun m => { m with markers := m.markers ++ [tag] }

/-- Runs registrations until one of them fails. -/
def runAll : List Registration → Build Unit
  | [] => pure ()
  | r :: rest => do
    r.build
    runAll rest

/-- Several lists of registrations run one after the other. -/
theorem runAll_append (xs ys : List Registration) :
    runAll (xs ++ ys) = (do runAll xs; runAll ys) := by
  induction xs with
  | nil => simp only [List.nil_append, runAll, pure_bind]
  | cons x xs ih => simp only [List.cons_append, runAll, ih, bind_assoc]

end Registration

/-! ### What registrations are made of -/

/-- A relation that composed steps inherit, that holds of every declaration together with the entry
of its name, and that holds of the addition of a statement to a section if the two have the
property `S`, is one that **admits** registration. The driver and the runner of a sequence have to
have the property. -/
structure Admits (S : Section → Statement → Prop) (R : Module → Option Fault → Module → Prop) :
    Prop extends Composes R where
  net : ∀ m names (d : NetDeclaration), 0 < d.width → m.names.Enters d.name names →
    R m none { m with names, nets := m.nets ++ [d] }
  parameter : ∀ m names (p : ParameterDeclaration), m.names.Enters p.name names →
    R m none { m with names, parameters := m.parameters ++ [p] }
  «variable» : ∀ m names (v : VariableDeclaration), m.names.Enters v.name names →
    R m none (m.withVariable names v)
  prologue : ∀ m s, S .prologue s → R m none { m with prologue := m.prologue ++ [.statement s] }
  signal : ∀ m index event, R m none { m with prologue := registered index m.prologue event }
  body : ∀ m s, S .body s → R m none { m with body := m.body ++ [s] }
  epilogue : ∀ m s, S .epilogue s → R m none { m with epilogue := m.epilogue ++ [s] }
  sequences : ∀ m sequences, R m none { m with sequences }
  markers : ∀ m markers, R m none { m with markers }
  driver : ∀ (control : SequenceControl) tolerance,
    S .prologue (.block (.onEvent (control.timer tolerance)) [control.resumeOn 0])
  runner : ∀ {guard loop guarded}, Conditional.new? guard [loop] = .ok guarded →
    guarded.statement.hasScriptStep = false → S .body guarded.statement

namespace Build.Composes

variable {R : Module → Option Fault → Module → Prop} (hR : Composes R)

include hR

/-- Claiming a name is related, and so is what is entered under it. -/
theorem claim_bind {α : Type} {name : String} {f : Unit → Build α}
    (h : ∀ m names, m.names.claim name = .ok names →
      match f () { m with names } with
      | .ok _ m' => R m none m'
      | .error cause m' => R m (some cause) m') :
    Relates R (Module.claim name >>= f) := by
  intro m
  cases hnames : m.names.claim name with
  | ok names =>
      have hclaim : Module.claim name m = .ok () { m with names } := by
        unfold Module.claim
        rw [bind_of_ok (get_ok.mpr ⟨rfl, rfl⟩), hnames]
        rfl
      rw [RelatesAt, bind_of_ok hclaim]
      exact h m names hnames
  | error cause =>
      have hclaim : Module.claim name m
          = .error cause { m with fault := m.fault.or (some cause) } := by
        unfold Module.claim
        rw [bind_of_ok (get_ok.mpr ⟨rfl, rfl⟩), hnames]
        rfl
      rw [RelatesAt, bind_of_error hclaim]
      exact hR.fail m cause

/-- Declaring a named variable is related if the entry of its name and its own entry are. -/
theorem namedVariable {k : Kind} {name : String} {initial : Expr k}
    (h : ∀ m names, m.names.claim name = .ok names →
      R m none (m.withVariable names ⟨name, ⟨k, initial⟩⟩)) :
    Relates R (Module.namedVariable name initial) :=
  hR.claim_bind h

/-- Adding a statement after the check of its section is related if its addition is. -/
theorem add {part : Section} {s : Statement} {change : Module → Module}
    (hchange : ∀ m, R m none (change m)) :
    Relates R (do Module.checkSection part s; modify change) :=
  hR.relates_bind (relates_ite (hR.relates_fail _) (hR.relates_pure _)) fun _ =>
    relates_modify hchange

/-- Compiling a sequence is related, whatever its script is, if the steps that it consists of
are. -/
theorem sequence (guard : Expr .bool) (items : List Statement) {m : Module}
    (hcontrol : Relates R (SequenceControl.mk (m.sequences + 1)).declare)
    (hsequences : ∀ m sequences, R m none { m with sequences })
    (hdriver : ∀ m (control : SequenceControl) tolerance, R m none { m with prologue := m.prologue
      ++ [.statement (.block (.onEvent (control.timer tolerance)) [control.resumeOn 0])] })
    (hsignal : ∀ index event, Relates R (Module.registerSignal index event))
    (hcounter : Relates R (Module.anonymousVariable (.integer 0)))
    (hrunner : ∀ {loop guarded}, Conditional.new? guard [loop] = .ok guarded →
      Relates R (Module.addBody guarded.statement)) :
    RelatesAt R (Module.sequence guard items) m := by
  rw [Module.sequence, RelatesAt, bind_of_ok (get_ok.mpr ⟨rfl, rfl⟩)]
  refine hR.relatesAt_bind (hcontrol m) fun _ => ?_
  refine hR.relates_bind (relates_modify fun m => hsequences m _) fun _ => ?_
  refine hR.relates_get_bind fun m => ?_
  refine hR.relates_bind (relates_modify fun m => hdriver m _ _) fun _ => ?_
  refine hR.relates_bind ?_ fun f => ?_
  · exact Sequence.compileAll_relates hR (hsignal _) hcounter _ _ _
  · refine hR.relates_bind (hR.relates_ofExcept _) fun loop => ?_
    refine hR.relates_ofExcept_bind fun guarded hguarded => ?_
    exact hR.relates_bind (hrunner hguarded) fun _ => hR.relates_pure _

end Build.Composes

namespace Admits

variable {S : Section → Statement → Prop} {R : Module → Option Fault → Module → Prop}
  (hR : Admits S R)

include hR

/-- Declaring a net is related. -/
theorem declareNet (name : String) (width : Nat) (direction : Direction) :
    Relates R (Module.declareNet name width direction) := by
  unfold Module.declareNet
  split
  · exact hR.relates_fail _
  case isFalse hwidth =>
      exact hR.claim_bind fun m names hclaim =>
        hR.net m names ⟨name, width, direction⟩ (Nat.pos_of_ne_zero hwidth) (.claimed hclaim)

/-- Declaring a parameter is related. -/
theorem declareParameter {k : Kind} (name : String) (default : Expr k) :
    Relates R (Module.parameter name default) :=
  hR.claim_bind fun m names hclaim => hR.parameter m names ⟨name, ⟨k, default⟩⟩ (.claimed hclaim)

/-- Declaring an anonymous variable is related. -/
theorem anonymousVariable {k : Kind} (initial : Expr k) :
    Relates R (Module.anonymousVariable initial) :=
  fun m => hR.«variable» m _ ⟨_, ⟨k, initial⟩⟩ .numbered

/-- Declaring a named variable is related. -/
theorem namedVariable {k : Kind} (name : String) (initial : Expr k) :
    Relates R (Module.namedVariable name initial) :=
  hR.toComposes.namedVariable fun m names hclaim =>
    hR.«variable» m names ⟨name, ⟨k, initial⟩⟩ (.claimed hclaim)

/-- Adding a statement after the check of its section is related if the statement may be added
when it passes. -/
theorem add {part : Section} {s : Statement} {change : Module → Module}
    (hchange : s.hasScriptStep = false → ∀ m, R m none (change m)) :
    Relates R (do Module.checkSection part s; modify change) := by
  unfold Module.checkSection
  split
  · exact fun m => hR.fail m _
  case isFalse hs =>
      exact hR.relates_bind (hR.relates_pure _) fun _ =>
        relates_modify (hchange (Bool.eq_false_iff.mpr hs))

/-- Registering a signal is related. -/
theorem registerSignal (index : Nat) (event : Event) :
    Relates R (Module.registerSignal index event) := by
  intro m
  rw [RelatesAt, Module.registerSignal_eq]
  exact hR.signal m index event

/-- Declaring the variables that control a sequence is related. -/
theorem declareControl (control : SequenceControl) : Relates R control.declare := by
  refine hR.relates_bind (hR.namedVariable _ _) fun _ => ?_
  refine hR.relates_bind (hR.namedVariable _ _) fun _ => ?_
  refine hR.relates_bind (hR.namedVariable _ _) fun _ => ?_
  exact hR.relates_bind (hR.namedVariable _ _) fun _ => hR.relates_pure _

/-- Compiling a sequence is related, whatever its script is. -/
theorem sequence (guard : Expr .bool) (items : List Statement) :
    Relates R (Module.sequence guard items) :=
  fun _ => hR.toComposes.sequence guard items (hR.declareControl _) hR.sequences
    (fun m control tolerance => hR.prologue m _ (hR.driver control tolerance)) hR.registerSignal
    (hR.anonymousVariable _) fun hguarded => hR.add fun hs m => hR.body m _ (hR.runner hguarded hs)

end Admits

/-- The statement that a registration adds to a section, if it does. -/
def Registration.placed : Registration → List (Section × Statement)
  | .prologue s => [(.prologue, s)]
  | .body s => [(.body, s)]
  | .epilogue s => [(.epilogue, s)]
  | _ => []

/-- A relation that admits registration holds of every registration whose statement has the
property, or is refused. -/
theorem Registration.build_relates_of {S : Section → Statement → Prop}
    {R : Module → Option Fault → Module → Prop} (hR : Admits S R) (r : Registration)
    (hr : ∀ p ∈ r.placed, p.2.hasScriptStep = false → S p.1 p.2) : Relates R r.build := by
  cases r with
  | net name width direction => exact hR.declareNet name width direction
  | parameter name default =>
      exact hR.relates_bind (hR.declareParameter name _) fun _ => hR.relates_pure _
  | anonymous initial =>
      exact hR.relates_bind (hR.anonymousVariable _) fun _ => hR.relates_pure _
  | named name initial =>
      exact hR.relates_bind (hR.namedVariable name _) fun _ => hR.relates_pure _
  | prologue s => exact hR.add fun hs m => hR.prologue m s (hr _ List.mem_cons_self hs)
  | body s => exact hR.add fun hs m => hR.body m s (hr _ List.mem_cons_self hs)
  | epilogue s => exact hR.add fun hs m => hR.epilogue m s (hr _ List.mem_cons_self hs)
  | sequence guard items =>
      exact hR.relates_bind (hR.sequence guard items) fun _ => hR.relates_pure _
  | marker tag => exact relates_modify fun m => hR.markers m _

/-! ### Relations that tolerate everything -/

/-- A relation that composed steps inherit, and that holds of each change a registration may make
to the module, is one that **tolerates** registration. -/
structure Tolerates (R : Module → Option Fault → Module → Prop) : Prop extends Composes R where
  names : ∀ m names, R m none { m with names }
  nets : ∀ m nets, R m none { m with nets }
  parameters : ∀ m parameters, R m none { m with parameters }
  «variable» : ∀ m names v, R m none (m.withVariable names v)
  prologue : ∀ m s, R m none { m with prologue := m.prologue ++ [.statement s] }
  signal : ∀ m index event, R m none { m with prologue := registered index m.prologue event }
  body : ∀ m s, R m none { m with body := m.body ++ [s] }
  epilogue : ∀ m epilogue, R m none { m with epilogue }
  sequences : ∀ m sequences, R m none { m with sequences }
  markers : ∀ m markers, R m none { m with markers }

/-- A relation that tolerates registration admits all statements. -/
theorem Tolerates.admits {R : Module → Option Fault → Module → Prop} (hR : Tolerates R) :
    Admits (fun _ _ => True) R where
  toComposes := hR.toComposes
  net m names _ _ _ := hR.trans (hR.names m names) (hR.nets _ _)
  parameter m names _ _ := hR.trans (hR.names m names) (hR.parameters _ _)
  «variable» m names v _ := hR.«variable» m names v
  prologue m s _ := hR.prologue m s
  signal := hR.signal
  body m s _ := hR.body m s
  epilogue m _ _ := hR.epilogue m _
  sequences := hR.sequences
  markers := hR.markers
  driver _ _ := trivial
  runner _ _ := trivial

/-- A relation that tolerates registration holds of every registration. -/
theorem Registration.build_relates {R : Module → Option Fault → Module → Prop}
    (hR : Tolerates R) (r : Registration) : Relates R r.build :=
  r.build_relates_of hR.admits fun _ _ _ => trivial

/-- Registrations leave the options of a module alone. -/
theorem tolerates_options : Tolerates fun m _ m' => m'.options = m.options where
  refl _ := rfl
  trans h h' := h'.trans h
  fail _ _ := rfl
  names _ _ := rfl
  nets _ _ := rfl
  parameters _ _ := rfl
  «variable» _ _ _ := rfl
  prologue _ _ := rfl
  signal _ _ _ := rfl
  body _ _ := rfl
  epilogue _ _ := rfl
  sequences _ _ := rfl
  markers _ _ := rfl

/-- Registrations leave the name and the stamp of a module alone. -/
theorem tolerates_header : Tolerates fun m _ m' => m'.name = m.name ∧ m'.stamp = m.stamp where
  refl _ := ⟨rfl, rfl⟩
  trans h h' := ⟨h'.1.trans h.1, h'.2.trans h.2⟩
  fail _ _ := ⟨rfl, rfl⟩
  names _ _ := ⟨rfl, rfl⟩
  nets _ _ := ⟨rfl, rfl⟩
  parameters _ _ := ⟨rfl, rfl⟩
  «variable» _ _ _ := ⟨rfl, rfl⟩
  prologue _ _ := ⟨rfl, rfl⟩
  signal _ _ _ := ⟨rfl, rfl⟩
  body _ _ := ⟨rfl, rfl⟩
  epilogue _ _ := ⟨rfl, rfl⟩
  sequences _ _ := ⟨rfl, rfl⟩
  markers _ _ := ⟨rfl, rfl⟩

/-- Registrations leave a fault behind exactly if they fail, and they leave an earlier fault
alone. -/
theorem tolerates_fault : Tolerates fun m f m' => m'.fault = m.fault.or f where
  refl m := by simp
  trans h h' := by simp only [h, h', Option.or_none]
  fail _ _ := rfl
  names m _ := by simp
  nets m _ := by simp
  parameters m _ := by simp
  «variable» m _ _ := by simp [Module.withVariable]
  prologue m _ := by simp
  signal m _ _ := by simp
  body m _ := by simp
  epilogue m _ := by simp
  sequences m _ := by simp
  markers m _ := by simp

/-- Registrations keep the assignments of initial values in step with the variables. -/
theorem tolerates_initialised : Tolerates fun m _ m' => m.Initialised → m'.Initialised where
  refl _ h := h
  trans h h' hm := h' (h hm)
  fail _ _ h := h
  names _ _ h := h
  nets _ _ h := h
  parameters _ _ h := h
  «variable» m _ v h := by
    unfold Module.Initialised at h
    rw [Module.Initialised, Module.withVariable, List.map_append, ← h, List.map_singleton]
  prologue _ _ h := h
  signal _ _ _ h := h
  body _ _ h := h
  epilogue _ _ h := h
  sequences _ _ h := h
  markers _ _ h := h

/-- Registrations leave the shared blocks and the statements of the body where they are. -/
theorem tolerates_persist : Tolerates fun m _ m' =>
    Persist m.prologue m'.prologue ∧ m.body <+: m'.body where
  refl _ := ⟨.refl _, List.prefix_refl _⟩
  trans h h' := ⟨h.1.trans h'.1, h.2.trans h'.2⟩
  fail _ _ := ⟨.refl _, List.prefix_refl _⟩
  names _ _ := ⟨.refl _, List.prefix_refl _⟩
  nets _ _ := ⟨.refl _, List.prefix_refl _⟩
  parameters _ _ := ⟨.refl _, List.prefix_refl _⟩
  «variable» _ _ _ := ⟨.refl _, List.prefix_refl _⟩
  prologue _ _ := ⟨.append _ _, List.prefix_refl _⟩
  signal _ _ _ := ⟨.registered _ _ _, List.prefix_refl _⟩
  body _ _ := ⟨.refl _, List.prefix_append _ _⟩
  epilogue _ _ := ⟨.refl _, List.prefix_refl _⟩
  sequences _ _ := ⟨.refl _, List.prefix_refl _⟩
  markers _ _ := ⟨.refl _, List.prefix_refl _⟩

/-- Registrations keep the shared blocks in order. -/
theorem tolerates_orderly : Tolerates fun m _ m' => Orderly m.prologue → Orderly m'.prologue where
  refl _ h := h
  trans h h' ho := h' (h ho)
  fail _ _ h := h
  names _ _ h := h
  nets _ _ h := h
  parameters _ _ h := h
  «variable» _ _ _ h := h
  prologue _ s h := h.statement s
  signal _ index event h := h.registered index event
  body _ _ h := h
  epilogue _ _ h := h
  sequences _ _ h := h
  markers _ _ h := h

end Stimulus
