import Stimulus.Proofs.Bus.Slicing
import Stimulus.Proofs.Declaring
import Stimulus.Proofs.Devices
import Stimulus.Proofs.Naming
import Stimulus.Proofs.Poisoning
import Stimulus.Proofs.Rounding.Wrapping

/-!
# Handles and declarations

A net that is handed out is written in one of two ways: by its name alone, or by the name of its bus
and an index. Which way it is depends on the call that declared it. Its declaration is written with
a range or without one, and this depends on the width. The two have to fit together wherever a net
is accessed.

They do, except for one case. A bus may have width 1, and then its bit is written with an index
although the declaration has no range.

## Main definitions

* `Net.Fits`: a net is written as its declaration has it.
* `Operation.Gives`, `Handed`: the nets that operations hand out.

## Main results

* `Module.handles_declared`: every net that is handed out, and every net that a device accesses,
  fits its declaration, unless it is the bit of a bus of width 1.
-/

namespace Stimulus

open Build

/-! ### Fitting declarations -/

/-- A net **fits** a declaration if it is written by the name alone and the declaration has no
range, or if it is written with an index and the range has that index. -/
def Net.Fits (n : Net) (d : NetDeclaration) : Prop :=
  (n.name = d.name ∧ d.range = "") ∨
    ∃ i < d.width, n.name = d.name ++ "[" ++ toString i ++ "]" ∧
      d.range = "[" ++ toString (d.width - 1) ++ ":0] "

section Fits

variable {name : String} {width : Nat} {direction : Direction}

/-- A scalar net fits the declaration of a net of width 1. -/
theorem Net.fits_scalar (h : width = 1) : (Net.scalar name).Fits ⟨name, width, direction⟩ := by
  refine .inl ⟨rfl, ?_⟩
  rw [NetDeclaration.range, h]
  rfl

/-- A bit fits the declaration of a wider net. -/
theorem Net.fits_bit {i : Nat} (hi : i < width) (h : 1 < width) :
    (Net.bit name i).Fits ⟨name, width, direction⟩ :=
  .inr ⟨i, hi, rfl, if_pos h⟩

end Fits

/-- A net is **declared** by a module with a given history: it fits a declaration, which is the only
one of its name, or it is the bit of a bus that was declared with width 1. -/
def Module.Declares (m : Module) (history : List Operation) (n : Net) : Prop :=
  ∃ d ∈ m.nets, (∀ d' ∈ m.nets, d'.name = d.name → d' = d) ∧
    (n.Fits d ∨ n = .bit d.name 0 ∧ .bus d.name 1 d.direction ∈ history)

/-! ### Nets that are handed out -/

/-- The nets that a bus gives: single bits and those of slices. -/
inductive Bus.Gives (b : Bus) : Net → Prop
  | bit (index : Nat) {n : Net} (h : b.bit? index = .ok n) : Gives b n
  | slice (hi lo step : Nat) {ns : List Net} {n : Net} (h : b.slice? hi lo step = .ok ns)
      (hn : n ∈ ns) : Gives b n

/-- The nets that an operation gives at a module. -/
inductive Operation.Gives : Operation → Module → Net → Prop
  | net {name : String} {direction : Direction} {m m' : Module} {n : Net}
      (h : Module.net name direction m = .ok n m') : Gives (.net name direction) m n
  | bus {name : String} {width : Nat} {direction : Direction} {m m' : Module} {b : Bus} {n : Net}
      (h : Module.bus name width direction m = .ok b m') (hn : b.Gives n) :
      Gives (.bus name width direction) m n
  | scalar {name : String} {width : Nat} {direction : Direction} {m m' : Module} {ns : Nets}
      {n : Net} (h : Module.electrical name width direction m = .ok ns m')
      (hn : ns.net? = some n) : Gives (.electrical name width direction) m n
  | wide {name : String} {width : Nat} {direction : Direction} {m m' : Module} {ns : Nets}
      {b : Bus} {n : Net} (h : Module.electrical name width direction m = .ok ns m')
      (hb : ns.bus? = some b) (hn : b.Gives n) : Gives (.electrical name width direction) m n
  | marker {tag : String} {m m' : Module} {k : Marker} (h : Module.marker tag m = .ok k m') :
      Gives (.marker tag) m k.port

/-- A net was **handed out** by some operation of a history. -/
def Handed (m₀ : Module) (history : List Operation) (n : Net) : Prop :=
  ∃ before o rest, history = before ++ o :: rest ∧ o.Gives (m₀.after before) n

/-- What was handed out stays handed out. -/
theorem Handed.append {m₀ : Module} {history : List Operation} {n : Net}
    (h : Handed m₀ history n) (more : List Operation) : Handed m₀ (history ++ more) n := by
  obtain ⟨before, o, rest, rfl, hgives⟩ := h
  exact ⟨before, o, rest ++ more, by rw [List.append_assoc, List.cons_append], hgives⟩

namespace Bus

/-- A bus gives nothing but its bits. -/
theorem Gives.exists_index {b : Bus} {n : Net} (h : b.Gives n) :
    ∃ i < b.width, n = .bit b.name i := by
  cases h with
  | bit index h =>
      obtain ⟨hlt, rfl⟩ := bit?_eq_ok.mp h
      exact ⟨_, hlt, rfl⟩
  | slice hi lo step h hn =>
      obtain ⟨⟨hstep, hhi, hlo⟩, rfl⟩ := slice?_eq_ok.mp h
      obtain ⟨i, hmem, rfl⟩ := List.mem_map.mp hn
      obtain ⟨-, hmax, -⟩ := (mem_sliceIndices hstep).mp hmem
      exact ⟨i, hmax.trans_lt (max_lt hhi hlo), rfl⟩

end Bus

/-! ### Declarations in modules -/

/-- The nets and the variables of a module are the first ones that another one declares. -/
structure Module.DeclaredFirst (m m' : Module) : Prop where
  nets : m.nets <+: m'.nets
  declaredVariables : m.declaredVariables <+: m'.declaredVariables

/-- A module declares its own nets and variables first. -/
theorem Module.DeclaredFirst.refl (m : Module) : m.DeclaredFirst m :=
  ⟨List.prefix_refl _, List.prefix_refl _⟩

/-- What is declared first by modules on the way is declared first at the end. -/
theorem Module.DeclaredFirst.trans {m₁ m₂ m₃ : Module} (h : m₁.DeclaredFirst m₂)
    (h' : m₂.DeclaredFirst m₃) : m₁.DeclaredFirst m₃ :=
  ⟨h.nets.trans h'.nets, h.declaredVariables.trans h'.declaredVariables⟩

/-- Registrations leave the declared nets and variables where they are. -/
theorem admits_declaredFirst : Admits (fun _ _ => True) fun m _ m' => m.DeclaredFirst m' where
  refl := .refl
  trans h h' := h.trans h'
  fail _ _ := ⟨List.prefix_refl _, List.prefix_refl _⟩
  net _ _ _ _ _ := ⟨List.prefix_append _ _, List.prefix_refl _⟩
  parameter _ _ _ _ := ⟨List.prefix_refl _, List.prefix_refl _⟩
  «variable» _ _ _ _ := ⟨List.prefix_refl _, List.prefix_append _ _⟩
  prologue _ _ _ := ⟨List.prefix_refl _, List.prefix_refl _⟩
  signal _ _ _ := ⟨List.prefix_refl _, List.prefix_refl _⟩
  body _ _ _ := ⟨List.prefix_refl _, List.prefix_refl _⟩
  epilogue _ _ _ := ⟨List.prefix_refl _, List.prefix_refl _⟩
  sequences _ _ := ⟨List.prefix_refl _, List.prefix_refl _⟩
  markers _ _ := ⟨List.prefix_refl _, List.prefix_refl _⟩
  driver _ _ := trivial
  runner _ _ := trivial

/-- The epilogue of a module goes on as that of another one, with statements that have a
property. -/
def Module.GoesOn (P : Statement → Prop) (m m' : Module) : Prop :=
  ∃ added, m'.epilogue = m.epilogue ++ added ∧ ∀ s ∈ added, P s

/-- An epilogue that stays as it is goes on. -/
theorem Module.GoesOn.of_eq {P : Statement → Prop} {m m' : Module}
    (h : m'.epilogue = m.epilogue) : m.GoesOn P m' :=
  ⟨[], by rw [h, List.append_nil], List.forall_mem_nil _⟩

/-- Registrations add statements with a property to the epilogue if those that are handed over to it
have the property. -/
theorem admits_epilogue (P : Statement → Prop) :
    Admits (fun part s => part = .epilogue → P s) fun m _ m' => m.GoesOn P m' where
  refl _ := .of_eq rfl
  trans := by
    rintro m₁ m₂ m₃ _ ⟨added, h, hP⟩ ⟨more, h', hP'⟩
    refine ⟨added ++ more, by rw [h', h, List.append_assoc], ?_⟩
    exact List.forall_mem_append.mpr ⟨hP, hP'⟩
  fail _ _ := .of_eq rfl
  net _ _ _ _ _ := .of_eq rfl
  parameter _ _ _ _ := .of_eq rfl
  «variable» _ _ _ _ := .of_eq rfl
  prologue _ _ _ := .of_eq rfl
  signal _ _ _ := .of_eq rfl
  body _ _ _ := .of_eq rfl
  epilogue _ s hP := ⟨[s], rfl, List.forall_mem_singleton.mpr (hP rfl)⟩
  sequences _ _ := .of_eq rfl
  markers _ _ := .of_eq rfl
  driver _ _ h := nomatch h
  runner _ _ h := nomatch h

namespace Module

/-- Every history leaves the declared nets and variables where they are. -/
theorem declaredFirst_after (m : Module) (history : List Operation) :
    m.DeclaredFirst (m.after history) := by
  refine after_keeps_of (I := m.DeclaredFirst) (.refl m) fun o _ => ?_
  exact (o.build_relates admits_declaredFirst.toComposes fun r =>
    r.build_relates_of admits_declaredFirst fun _ _ _ => trivial).mono fun _ _ _ h h' => h'.trans h

end Module

/-- A run of registrations declares the nets it registers. -/
theorem Registration.runAll_declares {rs : List Registration} {m m' : Module} {u : Unit}
    (h : runAll rs m = .ok u m') {d : NetDeclaration} (hd : .net d.name d.width d.direction ∈ rs) :
    d ∈ m'.nets := by
  induction rs generalizing m with
  | nil => exact absurd hd List.not_mem_nil
  | cons r rest ih =>
      obtain ⟨_, m₁, hr, hrest⟩ := bind_ok.mp h
      rcases List.mem_cons.mp hd with rfl | hd
      · obtain ⟨-, -, names, rfl⟩ := Module.declareNet_ok hr
        have hkept : Relates _ (runAll rest) :=
          runAll_relates admits_declaredFirst.toComposes fun r _ =>
            r.build_relates_of admits_declaredFirst fun _ _ _ => trivial
        exact (hkept.ok hrest).nets.subset (List.mem_append_right _ (List.mem_singleton_self d))
      · exact ih hrest hd

/-- What an operation has registered is declared after the history that goes on from there. -/
theorem Operation.declares {o : Operation} {m m' : Module} {u : Unit} (h : o.build m = .ok u m')
    {d : NetDeclaration}
    (hd : .net d.name d.width d.direction ∈ o.registrations m.options.devices)
    (rest : List Operation) : d ∈ (m.after (o :: rest)).nets := by
  rw [Module.after, h]
  refine (m'.declaredFirst_after rest).nets.subset ?_
  rw [o.build_eq, deviceDefaults_bind_apply] at h
  exact Registration.runAll_declares h hd

section Results

variable {m m' : Module} {name : String} {width : Nat} {direction : Direction}

/-- A net that is declared is given by its name. -/
theorem Module.net_ok {n : Net} (h : Module.net name direction m = .ok n m') :
    n = .scalar name := by
  obtain ⟨_, _, -, h⟩ := bind_ok.mp h
  exact (pure_ok.mp h).1.symm

/-- A bus that is declared is given by its name and its width. -/
theorem Module.bus_ok {b : Bus} (h : Module.bus name width direction m = .ok b m') :
    b = ⟨name, width⟩ := by
  obtain ⟨_, _, -, h⟩ := bind_ok.mp h
  exact (pure_ok.mp h).1.symm

/-- A net of arbitrary width that is declared is given by its name if its width is 1, else as a
bus. -/
theorem Module.electrical_ok {ns : Nets}
    (h : Module.electrical name width direction m = .ok ns m') :
    ns = if width = 1 then .scalar (.scalar name) else .bus ⟨name, width⟩ := by
  obtain ⟨_, _, -, h⟩ := bind_ok.mp h
  exact (pure_ok.mp h).1.symm

/-- The port of a marker is given by its name, which has the tag in it. -/
theorem Module.marker_ok {tag : String} {k : Marker} (h : Module.marker tag m = .ok k m') :
    k.port = .scalar ("MARK_" ++ tag) := by
  obtain ⟨port, _, hport, h⟩ := bind_ok.mp h
  obtain ⟨_, _, -, h⟩ := bind_ok.mp h
  obtain ⟨_, _, -, h⟩ := bind_ok.mp h
  obtain ⟨_, _, -, h⟩ := bind_ok.mp h
  obtain ⟨rfl, -⟩ := pure_ok.mp h
  exact Module.net_ok hport

end Results

/-- **What is handed out is declared**: a net that an operation gives fits a declaration that is
there after every history, or it is the bit of a bus of width 1. -/
theorem Operation.Gives.fits {o : Operation} {m : Module} {n : Net} (h : o.Gives m n)
    (rest : List Operation) :
    ∃ d ∈ (m.after (o :: rest)).nets,
      n.Fits d ∨ n = .bit d.name 0 ∧ o = .bus d.name 1 d.direction := by
  cases h with
  | @net name direction _ m' n h =>
      have hbuild : (Operation.net name direction).build m = .ok () m' :=
        bind_ok.mpr ⟨n, m', h, rfl⟩
      obtain rfl := Module.net_ok h
      exact ⟨⟨name, 1, direction⟩, declares hbuild (List.mem_singleton_self _) rest,
        .inl (Net.fits_scalar rfl)⟩
  | @bus name width direction _ m' b n h hn =>
      have hbuild : (Operation.bus name width direction).build m = .ok () m' :=
        bind_ok.mpr ⟨b, m', h, rfl⟩
      obtain rfl := Module.bus_ok h
      obtain ⟨i, hi, rfl⟩ := hn.exists_index
      refine ⟨⟨name, width, direction⟩, declares hbuild (List.mem_singleton_self _) rest, ?_⟩
      rcases Nat.lt_or_ge 1 width with hwide | hnarrow
      · exact .inl (Net.fits_bit hi hwide)
      · -- A bus of width 1 has no bit but bit 0.
        obtain rfl : i = 0 := by
          dsimp only at hi
          omega
        obtain rfl : width = 1 := Nat.le_antisymm hnarrow hi
        exact .inr ⟨rfl, rfl⟩
  | @scalar name width direction _ m' ns n h hn =>
      have hbuild : (Operation.electrical name width direction).build m = .ok () m' :=
        bind_ok.mpr ⟨ns, m', h, rfl⟩
      obtain rfl := Module.electrical_ok h
      refine ⟨⟨name, width, direction⟩, declares hbuild (List.mem_singleton_self _) rest, .inl ?_⟩
      split at hn
      case isTrue hwidth =>
          obtain rfl := Option.some.inj hn
          exact Net.fits_scalar hwidth
      case isFalse => cases hn
  | @wide name width direction _ m' ns b n h hb hn =>
      have hbuild : (Operation.electrical name width direction).build m = .ok () m' :=
        bind_ok.mpr ⟨ns, m', h, rfl⟩
      obtain rfl := Module.electrical_ok h
      refine ⟨⟨name, width, direction⟩, declares hbuild (List.mem_singleton_self _) rest, .inl ?_⟩
      split at hb
      case isTrue => cases hb
      case isFalse hwidth =>
          obtain rfl := Option.some.inj hb
          obtain ⟨i, hi, rfl⟩ := hn.exists_index
          dsimp only at hi
          exact Net.fits_bit hi (by omega)
  | @marker tag _ m' k h =>
      have hbuild : (Operation.marker tag).build m = .ok () m' := bind_ok.mpr ⟨k, m', h, rfl⟩
      rw [Module.marker_ok h]
      exact ⟨⟨"MARK_" ++ tag, 1, .output⟩, declares hbuild List.mem_cons_self rest,
        .inl (Net.fits_scalar rfl)⟩

/-! ### Nets of devices -/

namespace Operation

/-- The nets on which the device of an operation is installed. -/
def given : Operation → List Net
  | .voltageSource pin => [pin]
  | .currentSource pin => [pin]
  | .sourceMeasure pin => [pin]
  | .digitalOutput pin domain => [pin, domain]
  | .digitalInput pin domain => [pin, domain]
  | .digitalPin pin domain => [pin, domain]
  | .clock pin domain => [pin, domain]
  | .switch first second => [first, second]
  | .outputBus wires domain => domain :: wires.bits
  | .inputBus wires domain => domain :: wires.bits
  | .pinBus wires domain => domain :: wires.bits
  | _ => []

/-- A device contributes between the nets on which it is installed and scalar nets of its own. -/
theorem given_or_own {o : Operation} (d : DeviceDefaults) {n : Net} (hn : n ∈ o.terminals) :
    n ∈ o.given ∨
      ∃ name direction, n = .scalar name ∧ .net name 1 direction ∈ o.registrations d := by
  cases o with
  | marker tag =>
      obtain rfl := List.mem_singleton.mp hn
      exact .inr ⟨_, .output, rfl, List.mem_cons_self⟩
  | digitalPin pin domain =>
      simp only [terminals, List.mem_cons, List.not_mem_nil, or_false] at hn
      rcases hn with rfl | rfl | rfl
      · exact .inl List.mem_cons_self
      · exact .inl (List.mem_cons_of_mem _ List.mem_cons_self)
      · exact .inr ⟨_, .internal, rfl, List.mem_cons_self⟩
  | outputBus wires domain =>
      obtain ⟨pin, hpin, hn⟩ := List.mem_flatMap.mp hn
      simp only [List.mem_cons, List.not_mem_nil, or_false] at hn
      rcases hn with rfl | rfl
      · exact .inl (List.mem_cons_of_mem _ hpin)
      · exact .inl List.mem_cons_self
  | inputBus wires domain => exact .inl (List.mem_cons_of_mem _ hn)
  | pinBus wires domain =>
      obtain ⟨pin, hpin, hn⟩ := List.mem_flatMap.mp hn
      simp only [List.mem_cons, List.not_mem_nil, or_false] at hn
      rcases hn with rfl | rfl | rfl
      · exact .inl (List.mem_cons_of_mem _ hpin)
      · exact .inl List.mem_cons_self
      · exact .inr ⟨_, .internal, rfl, List.mem_flatMap.mpr ⟨pin, hpin, List.mem_cons_self⟩⟩
  | digitalInput pin domain => exact .inl (List.mem_cons.mpr (.inl (List.mem_singleton.mp hn)))
  | _ => exact .inl hn

/-- What an operation may add to the epilogue: the statement that it was given, or a command of its
device. -/
def Adds (o : Operation) (s : Statement) : Prop :=
  (.epilogue, s) ∈ o.placed ∨ ∃ c, s = .command c ∧ c.Between o.terminals

/-- An operation adds nothing else to the epilogue. -/
theorem build_adds (o : Operation) : Relates (fun m _ m' => m.GoesOn o.Adds m') o.build := by
  have hadmits := admits_epilogue o.Adds
  refine build_relates_of hadmits.toComposes fun d r hr => ?_
  refine r.build_relates_of hadmits ?_
  rintro ⟨_, s⟩ hp - rfl
  rcases o.serves d r hr with hplaced | hserves
  · rw [hplaced] at hp
    exact .inl hp
  · cases hserves with
    | declaration h =>
        rw [h] at hp
        cases hp
    | contribution h =>
        obtain ⟨-, rfl⟩ := Prod.mk.inj (List.mem_singleton.mp hp)
        exact .inr ⟨_, rfl, h⟩
    | tick _ => cases (Prod.mk.inj (List.mem_singleton.mp hp)).1

end Operation

namespace Module

/-- The epilogue goes on with every history. -/
theorem epilogue_after (m : Module) (history : List Operation) :
    m.epilogue <+: (m.after history).epilogue := by
  refine after_keeps_of (I := fun m' => m.epilogue <+: m'.epilogue) (List.prefix_refl _)
    fun o _ => o.build_adds.mono ?_
  rintro m₁ _ m₂ ⟨added, h, -⟩ hm₁
  rw [h]
  exact hm₁.trans (List.prefix_append _ _)

/-- What an operation adds to the epilogue stands there after the history that goes on from
there. -/
theorem epilogue_after_cons (m : Module) (o : Operation) (rest : List Operation) :
    ∃ added back, (m.after (o :: rest)).epilogue = m.epilogue ++ added ++ back ∧
      (m.after [o]).epilogue = m.epilogue ++ added ∧ ∀ s ∈ added, o.Adds s := by
  obtain ⟨added, hadded, hP⟩ := after_singleton (o.build_adds m)
  obtain ⟨back, hback⟩ := (m.after [o]).epilogue_after rest
  refine ⟨added, back, ?_, hadded, hP⟩
  rw [← hadded, hback, ← after_append]
  rfl

end Module

/-! ### Sections in the text -/

/-- The range and the name of a net have no place for a break. -/
theorem NetDeclaration.unbroken_range_name {d : NetDeclaration}
    (h : Name.isIdentifier d.name = true) :
    ∀ c ∈ (d.range ++ d.name).toList, c ≠ ',' ∧ c ≠ '\r' := by
  have hrest {c : Char} (hc : Name.isRest c = true) : c ≠ ',' ∧ c ≠ '\r' := by
    constructor
    · rintro rfl
      exact absurd hc (by decide)
    · rintro rfl
      exact absurd hc (by decide)
  rw [String.toList_append, List.forall_mem_append]
  refine ⟨?_, fun c hc => hrest (Name.isRest_of_isIdentifier h hc)⟩
  rw [range]
  split
  · simp only [String.toList_append, List.forall_mem_append]
    exact ⟨⟨by decide, fun c hc => hrest (Name.isRest_of_mem_toString hc)⟩, by decide⟩
  · decide

namespace Module

variable {m : Module}

/-- The line of a net is settled, whatever its first word is. -/
theorem settled_line {d : NetDeclaration} (h : Name.isIdentifier d.name = true) {word : String}
    (hword : ∀ c ∈ word.toList, c ≠ ',' ∧ c ≠ '\r') :
    Settled (word ++ d.range ++ d.name ++ ";\n") where
  unbroken := by
    have := d.unbroken_range_name h
    simp only [String.toList_append, List.forall_mem_append] at this ⊢
    exact ⟨⟨⟨hword, this.1⟩, this.2⟩, by decide⟩
  ended := by simp [String.toList_append]

/-- The line of a port is settled. -/
theorem settled_portLine {d : NetDeclaration} (h : Name.isIdentifier d.name = true) :
    Settled (portLine d) := by
  unfold portLine
  split
  case h_1 keyword hkeyword =>
      refine settled_line h ?_
      cases hd : d.direction with
      | «internal» =>
          rw [hd] at hkeyword
          cases hkeyword
      | _ =>
          rw [hd] at hkeyword
          obtain rfl := Option.some.inj hkeyword
          decide
  case h_2 => exact ⟨by simp, by simp⟩

/-- A part is settled if its content is. -/
theorem settled_part {title content : String} (htitle : Settled (Text.banner title))
    (hcontent : Settled content) : Settled (part title content) :=
  (Settled.append ⟨by decide, by decide⟩ htitle).append hcontent

/-- **The sections of the nets** stand in the emitted text as they are. -/
theorem emit_sections {text : String} (hemit : m.emit? = .ok text)
    (h : ∀ d ∈ m.nets, Name.isIdentifier d.name = true) :
    ∃ front back, text = front
      ++ part "Ports" (String.join (m.ports.map fun d =>
          d.direction.title ++ " " ++ d.range ++ d.name ++ ";\n"))
      ++ part "Disciplines" (String.join (m.nets.map fun d =>
          "electrical " ++ d.range ++ d.name ++ ";\n")) ++ back := by
  have hlines : m.ports.map (fun d => d.direction.title ++ " " ++ d.range ++ d.name ++ ";\n")
      = m.ports.map portLine := by
    refine List.map_congr_left fun d hd => ?_
    rw [portLine, Direction.keyword?_title (List.mem_filter.mp hd).2]
  rw [hlines]
  change ∃ front back, text = front ++ m.portsPart ++ m.disciplinesPart ++ back
  have hports : Settled m.portsPart := by
    refine settled_part ⟨by decide +kernel, by decide +kernel⟩ (settled_join fun t ht => ?_)
    obtain ⟨d, hd, rfl⟩ := List.mem_map.mp ht
    exact settled_portLine (h d (List.mem_of_mem_filter hd))
  have hdisciplines : Settled m.disciplinesPart := by
    refine settled_part ⟨by decide +kernel, by decide +kernel⟩ (settled_join fun t ht => ?_)
    obtain ⟨d, hd, rfl⟩ := List.mem_map.mp ht
    exact settled_line (h d hd) (by decide)
  have hne (title content : String) : (part title content).toList ≠ [] := by simp [part]
  have hfront : (m.headerPart ++ m.declarationPart).toList.getLast? = some '\n' := by
    have hend : (");\n".toList).getLast? = some '\n' := by decide
    simp only [declarationPart, part, String.toList_append, List.getLast?_append, hend,
      Option.some_or]
  have hparts : m.parts = m.headerPart ++ m.declarationPart ++ (m.portsPart ++ (m.disciplinesPart
      ++ (m.functionsPart ++ m.parametersPart ++ m.variablesPart ++ m.analogPart))) := by
    simp only [parts, String.append_assoc]
  have hfault : m.fault = none := m.emit?_isSome_iff.mp ⟨text, hemit⟩
  rw [emit?_eq hfault] at hemit
  refine ⟨Text.wrapLines m.options.wrapColumn (m.headerPart ++ m.declarationPart),
    Text.wrapLines m.options.wrapColumn
      (m.functionsPart ++ m.parametersPart ++ m.variablesPart ++ m.analogPart), ?_⟩
  rw [← Except.ok.inj hemit, hparts, Text.wrapLines_append _ hfront,
    Text.wrapLines_append _ (hports.getLast?_eq (hne _ _)),
    Text.wrapLines_append _ (hdisciplines.getLast?_eq (hne _ _)),
    hports.wrapLines_eq (hne _ _), hdisciplines.wrapLines_eq (hne _ _)]
  simp only [String.append_assoc]

/-! ### Handles and declarations -/

/-- What fits a declaration is declared, as the declared names are different. -/
theorem WellNamed.declares {history : List Operation} {n : Net} (hm : m.WellNamed)
    {d : NetDeclaration} (hd : d ∈ m.nets)
    (h : n.Fits d ∨ n = .bit d.name 0 ∧ .bus d.name 1 d.direction ∈ history) :
    m.Declares history n :=
  ⟨d, hd, fun _ hd' heq => List.inj_on_of_nodup_map hm.nodup_nets hd' hd heq, h⟩

/-- **Handles fit their declarations.** Every net that was handed out while the module was put
together is declared: it fits a declaration that is the only one of its name. The emitted text has a
line with the range of the declaration among the ports, unless the net is internal, and among the
disciplines. The one exception is the bit of a bus of width 1, whose declaration has no range. The
same holds of all nets that are
accessed by what a device adds to the epilogue, if the device was installed on nets that had been
handed out. -/
theorem handles_declared {options : Options} {present name : String} {m₀ : Module}
    (h₀ : Module.new? options present name = .ok m₀) {history : List Operation} {text : String}
    (hemit : (m₀.after history).emit? = .ok text) :
    (∃ front back, text = front
      ++ part "Ports" (String.join ((m₀.after history).ports.map fun d =>
          d.direction.title ++ " " ++ d.range ++ d.name ++ ";\n"))
      ++ part "Disciplines" (String.join ((m₀.after history).nets.map fun d =>
          "electrical " ++ d.range ++ d.name ++ ";\n")) ++ back) ∧
    (∀ n, Handed m₀ history n → (m₀.after history).Declares history n) ∧
    ∀ before o rest, history = before ++ o :: rest → (∀ n ∈ o.given, Handed m₀ before n) →
      ∃ added back,
        (m₀.after history).epilogue = (m₀.after before).epilogue ++ added ++ back ∧
        (m₀.after (before ++ [o])).epilogue = (m₀.after before).epilogue ++ added ∧
        ∀ s ∈ added, (.epilogue, s) ∈ o.placed ∨ ∃ c, s = .command c ∧
          ∀ b ∈ c.branches, ∀ n ∈ b.nets, (m₀.after history).Declares history n := by
  have hnamed := wellNamed_after h₀ history
  have hhanded (n : Net) (h : Handed m₀ history n) : (m₀.after history).Declares history n := by
    obtain ⟨before, o, rest, rfl, hgives⟩ := h
    obtain ⟨d, hd, hfits⟩ := hgives.fits rest
    rw [← after_append] at hd
    refine hnamed.declares hd (hfits.imp_right fun ⟨hn, ho⟩ => ⟨hn, ?_⟩)
    exact List.mem_append_right _ (ho ▸ List.mem_cons_self)
  refine ⟨emit_sections hemit hnamed.isIdentifier_net, hhanded, ?_⟩
  rintro before o rest rfl hgiven
  obtain ⟨added, back, hback, hadded, hadds⟩ := (m₀.after before).epilogue_after_cons o rest
  rw [← after_append] at hback hadded
  refine ⟨added, back, hback, hadded, fun s hs => (hadds s hs).imp_right ?_⟩
  rintro ⟨c, rfl, hbetween⟩
  refine ⟨c, rfl, fun b hb n hn => ?_⟩
  rcases Operation.given_or_own m₀.options.devices (hbetween b hb n hn) with
    hn | ⟨name, direction, rfl, hr⟩
  · exact hhanded n ((hgiven n hn).append _)
  · -- The module is emitted, so the device has been installed, and its own net is declared.
    have hrun := after_ok ((emit?_isSome_iff _).mp ⟨text, hemit⟩)
    have hmem : .net name 1 direction
        ∈ registrations m₀.options.devices (before ++ o :: rest) :=
      List.mem_flatMap.mpr ⟨o, List.mem_append_right _ List.mem_cons_self, hr⟩
    exact hnamed.declares (Registration.runAll_declares (d := ⟨name, 1, direction⟩) hrun hmem)
      (.inl (Net.fits_scalar rfl))

/-- A bidirectional pin on a bit of a bus, between nets that are handed out: it accesses these and
one of its own, and all of them are declared. -/
theorem handles_declared_pin :
    let nets : List Operation := [.bus "d" 2 .inout, .net "vdd" .inout]
    let pin : Operation := .digitalPin (.bit "d" 1) (.scalar "vdd")
    ∃ m₀ text added, Module.new? .standard "" "bench" = .ok m₀ ∧
      (m₀.after (nets ++ [pin])).emit? = .ok text ∧
      (m₀.after (nets ++ [pin])).Declares (nets ++ [pin]) (.bit "d" 1) ∧
      (m₀.after (nets ++ [pin])).epilogue = added ∧ added.length = 3 ∧
      ∀ s ∈ added, ∃ c, s = .command c ∧
        ∀ b ∈ c.branches, ∀ n ∈ b.nets, (m₀.after (nets ++ [pin])).Declares (nets ++ [pin]) n := by
  intro nets pin
  obtain ⟨m₀, h₀⟩ : ∃ m₀, Module.new? .standard "" "bench" = .ok m₀ := ⟨_, rfl⟩
  have hfault : (m₀.after (nets ++ [pin])).fault = none := by
    rw [eq_of_new? h₀, ← Option.isNone_iff_eq_none]
    decide +kernel
  have hempty : (m₀.after nets).epilogue = [] := by
    rw [eq_of_new? h₀, ← List.isEmpty_iff]
    decide +kernel
  have hlength : (m₀.after (nets ++ [pin])).epilogue.length = 3 := by
    rw [eq_of_new? h₀]
    decide +kernel
  have hbit : Handed m₀ nets (.bit "d" 1) := by
    obtain ⟨m', h⟩ : ∃ m', Module.bus "d" 2 .inout (m₀.after []) = .ok ⟨"d", 2⟩ m' := by
      rw [← value?_eq_some, eq_of_new? h₀]
      rfl
    exact ⟨[], _, _, rfl, .bus h (.bit 1 rfl)⟩
  have hsupply : Handed m₀ nets (.scalar "vdd") := by
    obtain ⟨m', h⟩ : ∃ m', Module.net "vdd" .inout (m₀.after [.bus "d" 2 .inout])
        = .ok (.scalar "vdd") m' := by
      rw [← value?_eq_some, eq_of_new? h₀]
      rfl
    exact ⟨[_], _, [], rfl, .net h⟩
  obtain ⟨text, hemit⟩ := (emit?_isSome_iff _).mpr hfault
  obtain ⟨-, hhanded, hdevices⟩ := handles_declared h₀ hemit
  obtain ⟨added, -, -, hadded, hadds⟩ := hdevices nets pin [] rfl (by
    simp only [pin, Operation.given, List.forall_mem_cons]
    exact ⟨hbit, hsupply, List.forall_mem_nil _⟩)
  rw [hempty, List.nil_append] at hadded
  refine ⟨m₀, text, added, h₀, hemit, hhanded _ (hbit.append _), hadded, hadded ▸ hlength,
    fun s hs => (hadds s hs).resolve_left List.not_mem_nil⟩

/-- **The bit of a bus of width 1** fits no declaration: it is written with an index, and neither
the port nor the discipline of the bus has a range. -/
theorem lone_bit_unranged :
    let bit : Net := .bit "d" 0
    let history : List Operation :=
      [.bus "d" 1 .inout, .addEpilogue (.command ((Branch.potential bit).contribute (.real 1.0)))]
    ∃ m₀ text, Module.new? (.reproducible "stamp") "" "dut" = .ok m₀ ∧
      (m₀.after history).emit? = .ok text ∧ Handed m₀ history bit ∧
      (Branch.potential bit).text = "V(d[0])" ∧
      (m₀.after history).ports.map portLine = ["inout d;\n"] ∧
      (m₀.after history).nets.map disciplineLine = ["electrical d;\n"] ∧
      ∀ d ∈ (m₀.after history).nets, ¬ bit.Fits d := by
  intro bit history
  obtain ⟨m₀, h₀⟩ : ∃ m₀, Module.new? (.reproducible "stamp") "" "dut" = .ok m₀ := ⟨_, rfl⟩
  have hfault : (m₀.after history).fault = none := by
    rw [eq_of_new? h₀, ← Option.isNone_iff_eq_none]
    decide +kernel
  have hnets : (m₀.after history).nets = [⟨"d", 1, .inout⟩] := by
    rw [eq_of_new? h₀]
    decide +kernel
  have hbit : Handed m₀ history bit := by
    obtain ⟨m', h⟩ : ∃ m', Module.bus "d" 1 .inout (m₀.after []) = .ok ⟨"d", 1⟩ m' := by
      rw [← value?_eq_some, eq_of_new? h₀]
      rfl
    exact ⟨[], _, _, rfl, .bus h (.bit 0 rfl)⟩
  obtain ⟨text, hemit⟩ := (emit?_isSome_iff _).mpr hfault
  refine ⟨m₀, text, h₀, hemit, hbit, by decide, ?_, ?_, ?_⟩
  · rw [ports, hnets]
    decide
  · rw [hnets]
    decide
  · rw [hnets, List.forall_mem_singleton]
    rintro (⟨hname, -⟩ | ⟨i, -, -, hrange⟩)
    · exact absurd hname (by decide)
    · exact absurd hrange (by decide)

end Module

end Stimulus
