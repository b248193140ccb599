import Stimulus.Proofs.History
import Stimulus.Proofs.Sequence.Accepted

/-!
# The names of a module

Names come from the user, from the nets that devices are installed on, from the tags of markers,
from the numbers of sequences and from a counter. All of them enter one namespace, and nothing else
does: the names that are taken are those of the nets, the parameters and the variables, each once.

The counter numbers the variables that nobody names: anonymous variables and the counters of the
`repeat` loops in a script. It skips the numbers whose names are taken, so the numbers it gives out
have gaps, but they rise, also over operations that fail half way.

## Main definitions

* `Module.declaredNames`: the names of nets, parameters and variables.
* `Module.numbered`: the names that a history numbers.

## Main results

* `Module.wellNamed_after`: the names that are taken are those that are declared.
* `Module.numbered_rises`: the numbers that are given out rise.
* `Module.names_after`: names are valid, different and, where numbered, numbered upwards.
-/

namespace Stimulus

open Build

/-! ### Names that are taken -/

namespace Module

/-- The names of all nets, parameters and variables. -/
def declaredNames (m : Module) : List String :=
  m.nets.map (·.name) ++ m.parameters.map (·.name) ++ m.declaredVariables.map (·.name)

/-- The namespace of a module is **faithful**: what is taken is what is declared, each name once,
and all names are accepted. -/
structure WellNamed (m : Module) : Prop where
  perm : m.declaredNames.Perm m.names.taken
  nodup : m.names.taken.Nodup
  accepted : ∀ x ∈ m.names.taken, Name.check x = .ok ()

/-- A module in which one more name is declared, after it has entered the namespace. -/
theorem WellNamed.enters {m m' : Module} {name : String} (h : m.WellNamed)
    (henters : m.names.Enters name m'.names)
    (hperm : m'.declaredNames.Perm (name :: m.declaredNames)) : m'.WellNamed := by
  have htaken := henters.taken_eq
  refine ⟨?_, ?_, ?_⟩
  · rw [htaken]
    exact hperm.trans (h.perm.cons name)
  · rw [htaken]
    exact List.nodup_cons.mpr ⟨henters.notMem, h.nodup⟩
  · rw [htaken]
    exact List.forall_mem_cons.mpr ⟨henters.check, h.accepted⟩

/-- The names of the nets are identifiers. -/
theorem WellNamed.isIdentifier_net {m : Module} (h : m.WellNamed) :
    ∀ d ∈ m.nets, Name.isIdentifier d.name = true := by
  intro d hd
  have hname : d.name ∈ m.declaredNames :=
    List.mem_append_left _ (List.mem_append_left _ (List.mem_map_of_mem hd))
  exact (Name.check_eq_ok.mp (h.accepted _ (h.perm.mem_iff.mp hname))).1

/-- All declared names are different. -/
theorem WellNamed.nodup_declaredNames {m : Module} (h : m.WellNamed) : m.declaredNames.Nodup :=
  h.perm.nodup_iff.mpr h.nodup

/-- The names of the nets are different. -/
theorem WellNamed.nodup_nets {m : Module} (h : m.WellNamed) : (m.nets.map (·.name)).Nodup :=
  (List.nodup_append.mp (List.nodup_append.mp h.nodup_declaredNames).1).1

/-- The names of the variables are different. -/
theorem WellNamed.nodup_variables {m : Module} (h : m.WellNamed) :
    (m.declaredVariables.map (·.name)).Nodup :=
  (List.nodup_append.mp h.nodup_declaredNames).2.1

end Module

/-- Registrations declare what they name. -/
theorem admits_wellNamed : Admits (fun _ _ => True) fun m _ m' => m.WellNamed → m'.WellNamed where
  refl _ h := h
  trans h h' hm := h' (h hm)
  fail _ _ hm := ⟨hm.perm, hm.nodup, hm.accepted⟩
  net m names d _ henters hm := by
    refine hm.enters henters ?_
    simp only [Module.declaredNames, List.map_append, List.map_singleton, List.append_assoc]
    exact List.perm_middle
  parameter m names p henters hm := by
    refine hm.enters henters ?_
    simp only [Module.declaredNames, List.map_append, List.map_singleton]
    rw [← List.append_assoc, List.append_assoc]
    exact List.perm_middle
  «variable» m names v henters hm := by
    refine hm.enters henters ?_
    simp only [Module.declaredNames, Module.withVariable, List.map_append, List.map_singleton]
    rw [← List.append_assoc]
    exact List.perm_append_singleton _ _
  prologue _ _ _ hm := ⟨hm.perm, hm.nodup, hm.accepted⟩
  signal _ _ _ hm := ⟨hm.perm, hm.nodup, hm.accepted⟩
  body _ _ _ hm := ⟨hm.perm, hm.nodup, hm.accepted⟩
  epilogue _ _ _ hm := ⟨hm.perm, hm.nodup, hm.accepted⟩
  sequences _ _ hm := ⟨hm.perm, hm.nodup, hm.accepted⟩
  markers _ _ hm := ⟨hm.perm, hm.nodup, hm.accepted⟩
  driver _ _ := trivial
  runner _ _ := trivial

/-- **What is taken is what is declared**, after every history. -/
theorem Module.wellNamed_after {options : Options} {present name : String} {m₀ : Module}
    (h₀ : Module.new? options present name = .ok m₀) (history : List Operation) :
    (m₀.after history).WellNamed := by
  refine after_keeps_of ?_ fun o _ => o.build_relates admits_wellNamed.toComposes fun r =>
    r.build_relates_of admits_wellNamed fun _ _ _ => trivial
  rw [eq_of_new? h₀]
  exact ⟨.nil, List.nodup_nil, List.forall_mem_nil _⟩

/-! ### Numbers that rise -/

/-- Some numbers **rise** from `a` to `b`: each is greater than those before it and than `a`, and
none is greater than `b`. -/
structure Rises (a : Nat) (ns : List Nat) (b : Nat) : Prop where
  le : a ≤ b
  increasing : ns.Pairwise (· < ·)
  bounds : ∀ n ∈ ns, a < n ∧ n ≤ b

/-- Numbers that rise to a bound and then from it. -/
theorem Rises.append {a b c : Nat} {ns ms : List Nat} (h : Rises a ns b) (h' : Rises b ms c) :
    Rises a (ns ++ ms) c := by
  have hle := h.le
  have hle' := h'.le
  refine ⟨Nat.le_trans hle hle', List.pairwise_append.mpr ⟨h.increasing, h'.increasing, ?_⟩, ?_⟩
  · intro n hn k hk
    exact Nat.lt_of_le_of_lt (h.bounds n hn).2 (h'.bounds k hk).1
  · intro n hn
    rcases List.mem_append.mp hn with hn | hn
    · have := h.bounds n hn
      omega
    · have := h'.bounds n hn
      omega

/-! ### Steps that number variables -/

/-- From one module to another one, variables are added behind those that there are. The names that
are not among the `chosen` ones are numbered, and the numbers rise with the counter. -/
def Numbers (chosen : List String) (m m' : Module) : Prop :=
  ∃ new ns, m'.declaredVariables.map (·.name) = m.declaredVariables.map (·.name) ++ new ∧
    new.filter (· ∉ chosen) = ns.map Name.anonymous ∧ Rises m.names.counter ns m'.names.counter

namespace Numbers

variable {chosen : List String}

/-- Nothing is numbered while the variables stay as they are. -/
theorem of_eq {m m' : Module} (hvariables : m'.declaredVariables = m.declaredVariables)
    (hnames : m'.names = m.names) : Numbers chosen m m' := by
  refine ⟨[], [], ?_, rfl, ?_⟩
  · rw [hvariables, List.append_nil]
  · rw [hnames]
    exact ⟨Nat.le_refl _, List.Pairwise.nil, List.forall_mem_nil _⟩

/-- What is numbered by two steps in a row. -/
theorem trans {m₁ m₂ m₃ : Module} (h : Numbers chosen m₁ m₂) (h' : Numbers chosen m₂ m₃) :
    Numbers chosen m₁ m₃ := by
  obtain ⟨new, ns, hnew, hfilter, hrises⟩ := h
  obtain ⟨more, ms, hmore, hfilter', hrises'⟩ := h'
  refine ⟨new ++ more, ns ++ ms, ?_, ?_, hrises.append hrises'⟩
  · rw [hmore, hnew, List.append_assoc]
  · rw [List.filter_append, List.map_append, hfilter, hfilter']

/-- Composed steps number what their parts number. -/
theorem composes (chosen : List String) : Composes fun m _ m' => Numbers chosen m m' :=
  ⟨fun _ => .of_eq rfl rfl, .trans, fun _ _ => .of_eq rfl rfl⟩

/-- A variable with a chosen name is not numbered. -/
theorem namedVariable {k : Kind} {name : String} (initial : Expr k) (hname : name ∈ chosen) :
    Relates (fun m _ m' => Numbers chosen m m') (Module.namedVariable name initial) := by
  refine (composes chosen).namedVariable fun m names hclaim => ?_
  obtain ⟨-, -, -, rfl⟩ := Namespace.of_claim_ok hclaim
  refine ⟨[name], [], ?_, ?_, ⟨Nat.le_refl _, List.Pairwise.nil, List.forall_mem_nil _⟩⟩
  · rw [Module.withVariable, List.map_append]
    rfl
  · simp [hname]

/-- An anonymous variable is numbered, beyond the counter and up to it. -/
theorem anonymousVariable {k : Kind} (initial : Expr k)
    (hchosen : ∀ n, Name.anonymous n ∉ chosen) :
    Relates (fun m _ m' => Numbers chosen m m') (Module.anonymousVariable initial) := by
  intro m
  obtain ⟨n, hfresh, hlt, -⟩ := m.names.fresh_spec
  rw [RelatesAt, Module.anonymousVariable_eq, hfresh]
  refine ⟨[Name.anonymous n], [n], ?_, ?_, ⟨Nat.le_of_lt hlt, List.pairwise_singleton _ _, ?_⟩⟩
  · rw [Module.withVariable, List.map_append]
    rfl
  · simp [hchosen n]
  · exact List.forall_mem_singleton.mpr ⟨hlt, Nat.le_refl _⟩

end Numbers

/-- No variable that controls a sequence has an anonymous name. -/
theorem SequenceControl.anonymous_notMem (c : SequenceControl) (n : Nat) :
    Name.anonymous n ∉ c.names := by
  have hdigit : ∀ d ∈ (toString n).toList, d.isDigit = true := fun d hd =>
    Nat.isDigit_of_mem_toDigits (b := 10) (n := n) (by decide) (by decide) (by simpa using hd)
  -- Behind `_$` there is a letter in the one name, and only digits are in the other.
  have hne (letter : Char) (rest : List Char) (hletter : letter.isDigit = false) :
      (Name.anonymous n).toList ≠ '_' :: '$' :: letter :: rest := by
    intro h
    have hdigits : (toString n).toList = letter :: rest := by
      rw [Name.anonymous, String.toList_append, show "_$".toList = ['_', '$'] from rfl] at h
      exact List.append_cancel_left h
    have := hdigit letter (by rw [hdigits]; exact List.mem_cons_self)
    rw [hletter] at this
    cases this
  simp only [names, List.mem_cons, List.not_mem_nil, or_false, not_or]
  refine ⟨fun h => ?_, fun h => ?_, fun h => ?_, fun h => ?_⟩
  · exact hne 'e' ("vntTime_" ++ toString c.index).toList rfl (by rw [h]; simp [time])
  · exact hne 's' ("tate_" ++ toString c.index).toList rfl (by rw [h]; simp [state])
  · exact hne 'r' ("unSt_" ++ toString c.index).toList rfl (by rw [h]; simp [running])
  · exact hne 'e' ("ventId_" ++ toString c.index).toList rfl (by rw [h]; simp [event])

/-- Declaring the variables that control a sequence is related if the declaration of each is. -/
theorem Build.Composes.declareControl {R : Module → Option Fault → Module → Prop}
    (hR : Composes R) (c : SequenceControl)
    (h : ∀ {k : Kind} (v : Variable k) (initial : Expr k), v.name ∈ c.names →
      Relates R (Module.namedVariable v.name initial)) : Relates R c.declare := by
  refine hR.relates_bind (h c.time _ (by simp [SequenceControl.names])) fun _ => ?_
  refine hR.relates_bind (h c.state _ (by simp [SequenceControl.names])) fun _ => ?_
  refine hR.relates_bind (h c.running _ (by simp [SequenceControl.names])) fun _ => ?_
  refine hR.relates_bind (h c.event _ (by simp [SequenceControl.names])) fun _ => ?_
  exact hR.relates_pure _

/-- The variables of a sequence that do not control it are numbered. -/
theorem Module.sequence_numbers (guard : Expr .bool) (items : List Statement) (m : Module) :
    RelatesAt (fun m _ m' => Numbers (SequenceControl.mk (m.sequences + 1)).names m m')
      (Module.sequence guard items) m := by
  let control : SequenceControl := ⟨m.sequences + 1⟩
  have hR := Numbers.composes control.names
  refine hR.sequence guard items (hR.declareControl control fun _ => Numbers.namedVariable)
    (fun _ _ => .of_eq rfl rfl) (fun _ _ _ => .of_eq rfl rfl) (fun index event m => ?_)
    (Numbers.anonymousVariable _ control.anonymous_notMem) fun _ => hR.add fun _ => .of_eq rfl rfl
  rw [RelatesAt, Module.registerSignal_eq]
  exact .of_eq rfl rfl

/-! ### Histories -/

/-- The names of the variables that an operation declares, be it successful or not. -/
def Operation.declaredNames (o : Operation) (m : Module) : List String :=
  ((m.after [o]).declaredVariables.drop m.declaredVariables.length).map (·.name)

/-- The names that an operation numbers: those of its variables that nobody chose. -/
def Operation.numbered (o : Operation) (m : Module) : List String :=
  match o with
  | .anonymousVariable _ => o.declaredNames m
  | .sequence _ _ =>
    (o.declaredNames m).filter (· ∉ (SequenceControl.mk (m.sequences + 1)).names)
  | _ => []

/-- The names that a history numbers, in the order in which it does. -/
def Module.numbered (m : Module) : List Operation → List String
  | [] => []
  | o :: rest => o.numbered m ++ (m.after [o]).numbered rest

/-- Numbers do not fall. -/
theorem admits_counter :
    Admits (fun _ _ => True) fun m _ m' => m.names.counter ≤ m'.names.counter where
  refl _ := Nat.le_refl _
  trans h h' := Nat.le_trans h h'
  fail _ _ := Nat.le_refl _
  net _ _ _ _ henters := henters.counter_le
  parameter _ _ _ henters := henters.counter_le
  «variable» _ _ _ henters := henters.counter_le
  prologue _ _ _ := Nat.le_refl _
  signal _ _ _ := Nat.le_refl _
  body _ _ _ := Nat.le_refl _
  epilogue _ _ _ := Nat.le_refl _
  sequences _ _ := Nat.le_refl _
  markers _ _ := Nat.le_refl _
  driver _ _ := trivial
  runner _ _ := trivial

/-- The counter of a module does not fall. -/
theorem Operation.counter_le (o : Operation) (m : Module) :
    m.names.counter ≤ (m.after [o]).names.counter := by
  have hrelates := o.build_relates admits_counter.toComposes fun r =>
    r.build_relates_of admits_counter fun _ _ _ => trivial
  exact Module.after_singleton (R := fun m m' => m.names.counter ≤ m'.names.counter) (hrelates m)

/-- What an operation numbers, if the names that are chosen are known. -/
theorem Numbers.of_operation {chosen : List String} {o : Operation} {m : Module}
    (h : RelatesAt (fun m _ m' => Numbers chosen m m') o.build m) :
    ∃ ns, (o.declaredNames m).filter (· ∉ chosen) = ns.map Name.anonymous ∧
      Rises m.names.counter ns (m.after [o]).names.counter := by
  obtain ⟨new, ns, hnew, hfilter, hrises⟩ := Module.after_singleton h
  refine ⟨ns, ?_, hrises⟩
  have hdeclared : o.declaredNames m = new := by
    rw [Operation.declaredNames, List.map_drop, hnew, List.drop_left' (List.length_map _)]
  rw [hdeclared, hfilter]

/-- **The numbers of an operation rise** with the counter. -/
theorem Operation.numbered_rises (o : Operation) (m : Module) :
    ∃ ns, o.numbered m = ns.map Name.anonymous ∧
      Rises m.names.counter ns (m.after [o]).names.counter := by
  cases o with
  | anonymousVariable initial =>
      have hR := Numbers.composes []
      obtain ⟨ns, hfilter, hrises⟩ := Numbers.of_operation (o := .anonymousVariable initial)
        (hR.relates_bind (Numbers.anonymousVariable initial.expr fun _ => List.not_mem_nil)
          (fun _ => hR.relates_pure _) m)
      refine ⟨ns, ?_, hrises⟩
      simpa [numbered] using hfilter
  | «sequence» guard items =>
      have hR := Numbers.composes (SequenceControl.mk (m.sequences + 1)).names
      exact Numbers.of_operation (o := .sequence guard items)
        (hR.relatesAt_bind (Module.sequence_numbers guard items m) fun _ => hR.relates_pure _)
  | _ =>
      exact ⟨[], rfl, Operation.counter_le _ m, List.Pairwise.nil, List.forall_mem_nil _⟩

namespace Module

/-- **The numbers of a history rise** with the counter, whatever fails. -/
theorem numbered_rises (m : Module) (history : List Operation) :
    ∃ ns, m.numbered history = ns.map Name.anonymous ∧
      Rises m.names.counter ns (m.after history).names.counter := by
  induction history generalizing m with
  | nil => exact ⟨[], rfl, Nat.le_refl _, List.Pairwise.nil, List.forall_mem_nil _⟩
  | cons o rest ih =>
      obtain ⟨ns, hns, hrises⟩ := o.numbered_rises m
      obtain ⟨ms, hms, hrises'⟩ := ih (m.after [o])
      rw [after_cons]
      refine ⟨ns ++ ms, ?_, hrises.append hrises'⟩
      rw [numbered, hns, hms, List.map_append]

/-- An anonymous variable can always be declared. Its number is the first one after the counter
whose name is not declared. -/
theorem WellNamed.anonymousVariable {m : Module} (h : m.WellNamed) {k : Kind} (initial : Expr k) :
    ∃ n m', Module.anonymousVariable initial m = .ok ⟨Name.anonymous n⟩ m' ∧
      m.names.counter < n ∧ n ≤ m.names.counter + m.declaredNames.length + 1 ∧
      Name.anonymous n ∉ m.declaredNames ∧
      ∀ j, m.names.counter < j → j < n → Name.anonymous j ∈ m.declaredNames := by
  obtain ⟨n, hfresh, hlt, hle, hfree, hpassed⟩ := m.names.fresh_spec
  have hdeclare := anonymousVariable_eq initial m
  rw [hfresh] at hdeclare
  refine ⟨n, _, hdeclare, hlt, ?_, ?_, fun j hj hjn => h.perm.mem_iff.mpr (hpassed j hj hjn)⟩
  · rw [h.perm.length_eq]
    exact hle
  · rw [h.perm.mem_iff]
    exact hfree

/-- **Names after a history.** Whatever has been done to a module and however much of it has failed:
the names of its nets, parameters and variables are different identifiers, none of which is
reserved; the numbers that were given to anonymous variables and to the counters of loops rise; and
an anonymous variable can be declared next, with a number that was not given yet and a name that is
not declared, although the user may have declared names of that form. -/
theorem names_after {options : Options} {present name : String} {m₀ : Module}
    (h₀ : Module.new? options present name = .ok m₀) (history : List Operation) :
    (m₀.after history).declaredNames.Nodup ∧
      (∀ x ∈ (m₀.after history).declaredNames, Name.isIdentifier x = true ∧ x ∉ Name.reserved) ∧
      ∃ ns : List Nat, m₀.numbered history = ns.map Name.anonymous ∧ ns.Pairwise (· < ·) ∧
        ∀ {k : Kind} (initial : Expr k), ∃ n m',
          anonymousVariable initial (m₀.after history) = .ok ⟨Name.anonymous n⟩ m' ∧
            (∀ j ∈ ns, j < n) ∧ Name.anonymous n ∉ (m₀.after history).declaredNames ∧
            n ≤ (m₀.after history).names.counter + (m₀.after history).declaredNames.length + 1 ∧
            ∀ j, (m₀.after history).names.counter < j → j < n →
              Name.anonymous j ∈ (m₀.after history).declaredNames := by
  have hnamed := wellNamed_after h₀ history
  obtain ⟨ns, hns, hrises⟩ := m₀.numbered_rises history
  refine ⟨hnamed.nodup_declaredNames, fun x hx => ?_, ns, hns, hrises.increasing,
    fun initial => ?_⟩
  · exact Name.check_eq_ok.mp (hnamed.accepted x (hnamed.perm.mem_iff.mp hx))
  · obtain ⟨n, m', hdeclare, hlt, hle, hfree, hpassed⟩ := hnamed.anonymousVariable initial
    refine ⟨n, m', hdeclare, fun j hj => ?_, hfree, hle, hpassed⟩
    exact Nat.lt_of_le_of_lt (hrises.bounds j hj).2 hlt

/-- The user has the names with the numbers 1 and 3, a net is refused, and the script of the second
sequence has an event block behind its loop. -/
theorem names_after_gaps :
    let loop : Statement := .block (.repeatLoop (.integer 2)) [.wait (.real 1.0)]
    let history : List Operation :=
      [.namedVariable "_$1" ⟨_, .integer 0⟩, .parameter "_$3" ⟨_, .real 0.0⟩,
        .anonymousVariable ⟨_, .bool false⟩, .net "a" .inout, .net "a" .inout, .marker "t",
        .sequence (.bool true) [loop, loop],
        .sequence (.bool true) [loop, .block (.onEvent (.initialStep [])) []],
        .anonymousVariable ⟨_, .integer 0⟩]
    ∃ m₀, Module.new? .standard "" "bench" = .ok m₀ ∧
      m₀.numbered history = ["_$2", "_$4", "_$5", "_$6", "_$7"] ∧
      (m₀.after history).declaredNames.Nodup ∧
      ∃ n, n ≤ 26 ∧ Name.anonymous n ∉ (m₀.after history).declaredNames := by
  intro loop history
  obtain ⟨m₀, h₀⟩ : ∃ m₀, Module.new? .standard "" "bench" = .ok m₀ := ⟨_, rfl⟩
  obtain ⟨hnodup, -, ns, -, -, hnext⟩ := names_after h₀ history
  obtain ⟨n, -, -, -, hfree, hle, -⟩ := hnext (.integer 0)
  refine ⟨m₀, h₀, ?_, hnodup, n, ?_, hfree⟩
  · rw [eq_of_new? h₀]
    decide +kernel
  · refine Nat.le_trans hle ?_
    rw [eq_of_new? h₀]
    decide +kernel

end Module

end Stimulus
