import Stimulus.Proofs.History

/-!
# Given texts

The texts that trees are written with: trusted text, format strings, the paths of files, and the
names of nets, of buses, of variables and of parameters. Everything else in the text of a module
is fixed, is a number, or is made from these.

## Main definitions

* `Expr.texts`, `Event.texts`, `Command.texts`, `Statement.texts`
* `Operation.texts`, the texts that the caller of an operation gives
-/

namespace Stimulus

/-! ### Expressions -/

/-- The name under which a net, or the bus of which it is a bit, is declared. -/
def Net.given : Net → String
  | .scalar name => name
  | .bit bus _ => bus

/-- The names of the nets of a branch. -/
def Branch.texts (b : Branch) : List String :=
  b.positive.given :: (b.negative.map Net.given).toList

/-- The texts that an expression is written with. -/
def Expr.texts : {k : Kind} → Expr k → List String
  | _, .raw text => [text]
  | _, .ident name => [name]
  | _, .real _ => []
  | _, .integer _ => []
  | _, .bool _ => []
  | _, .arith _ _ a b => a.texts ++ b.texts
  | _, .compare _ _ a b => a.texts ++ b.texts
  | _, .connect _ a b => a.texts ++ b.texts
  | _, .neg _ a => a.texts
  | _, .complement a => a.texts
  | _, .not a => a.texts
  | _, .abs _ a => a.texts
  | _, .call _ x => x.texts
  | _, .call₂ _ x y => x.texts ++ y.texts
  | _, .slew x r f => x.texts ++ r.texts ++ f.texts
  | _, .transition x d r f => x.texts ++ d.texts ++ r.texts ++ f.texts
  | _, .power a b => a.texts ++ b.texts
  | _, .round x => x.texts
  | _, .ofInteger n => n.texts
  | _, .indicator c => c.texts
  | _, .select c a b => c.texts ++ a.texts ++ b.texts
  | _, .access branch => branch.texts
  | _, .environment _ => []
  | _, .analysis _ => []
  | _, .openFile path mode => path :: mode.toList

/-- The texts that a value is written with. -/
def Value.texts (v : Value) : List String :=
  v.expr.texts

/-! ### Events and commands -/

/-- The texts that a crossing is written with. -/
def Crossing.texts (c : Crossing) : List String :=
  c.signal.texts ++ c.threshold.texts ++ c.tolerances.toList.flatMap (·.texts)

/-- The texts that an event is written with. -/
def Event.texts : Event → List String
  | .cross c _ => c.texts
  | .above c => c.texts
  | .timer start schedule => start.texts ++ schedule.toList.flatMap (·.texts)
  | .initialStep _ => []
  | .finalStep _ => []
  | .or a b => a.texts ++ b.texts

/-- The texts that a command is written with. -/
def Command.texts : Command → List String
  | .raw text => [text]
  | .assign target value => target :: value.texts
  | .increment target => [target]
  | .decrement target => [target]
  | .toggle target => [target]
  | .contribute branch value => branch.texts ++ value.texts
  | .print _ file format arguments =>
    file.toList.flatMap (·.texts) ++ format :: arguments.flatMap (·.texts)
  | .closeFile file => file.texts
  | .finish => []
  | .stop => []
  | .discontinuity _ => []
  | .boundStep step => step.texts

/-! ### Statements -/

/-- The texts that a head is written with. -/
def Head.texts : Head → List String
  | .raw text => [text]
  | .onEvent event => event.texts
  | .repeatLoop count => count.texts
  | .whileLoop condition => condition.texts
  | .forLoop start condition next => start.texts ++ condition.texts ++ next.texts

/-- The texts that a script step is written with. The label of a mark is not written. -/
def ScriptStep.texts : ScriptStep → List String
  | .delay microseconds => microseconds.texts
  | .signal event => event.texts
  | .mark state _ => [state.name]

mutual

/-- The texts that a statement is written with. -/
def Statement.texts : Statement → List String
  | .command c => c.texts
  | .list items => textsOf items
  | .block head body => head.texts ++ textsOf body
  | .branch condition yes no => condition.texts ++ textsOf yes ++ textsOf no
  | .select scrutinee arms => scrutinee.texts ++ textsOfArms arms
  | .step s => s.texts

/-- The texts that a list of statements is written with. -/
def textsOf : List Statement → List String
  | [] => []
  | s :: rest => s.texts ++ textsOf rest

/-- The texts that the arms of a case are written with. -/
def textsOfArms : List Arm → List String
  | [] => []
  | .mk label body :: rest => label.toList.flatMap (·.texts) ++ textsOf body ++ textsOfArms rest

end

/-! ### Operations -/

/-- The texts that the caller of an operation gives: raw texts, format strings, paths and names. -/
def Operation.texts : Operation → List String
  | .net name _ => [name]
  | .bus name _ _ => [name]
  | .electrical name _ _ => [name]
  | .parameter name default => name :: default.texts
  | .anonymousVariable initial => initial.texts
  | .namedVariable name initial => name :: initial.texts
  | .addPrologue s => s.texts
  | .addBody s => s.texts
  | .addEpilogue s => s.texts
  | .sequence guard items => guard.texts ++ textsOf items
  | .marker tag => [tag]
  | .voltageSource pin => [pin.given]
  | .currentSource pin => [pin.given]
  | .sourceMeasure pin => [pin.given]
  | .digitalOutput pin domain => [pin.given, domain.given]
  | .digitalInput pin domain => [pin.given, domain.given]
  | .digitalPin pin domain => [pin.given, domain.given]
  | .clock pin domain => [pin.given, domain.given]
  | .switch first second => [first.given, second.given]
  | .outputBus wires domain => [wires.name, domain.given]
  | .inputBus wires domain => [wires.name, domain.given]
  | .pinBus wires domain => [wires.name, domain.given]

/-- The texts that a registration is made with. -/
def Registration.texts : Registration → List String
  | .net name _ _ => [name]
  | .parameter name default => name :: default.texts
  | .anonymous initial => initial.texts
  | .named name initial => name :: initial.texts
  | .prologue s => s.texts
  | .body s => s.texts
  | .epilogue s => s.texts
  | .sequence guard items => guard.texts ++ textsOf items
  | .marker _ => []

/-- The texts that an item of a prologue is written with. -/
def PrologueItem.texts : PrologueItem → List String
  | .statement s => s.texts
  | .shared b => b.event.texts ++ textsOf b.clauses

/-! ### Texts of lists -/

/-- The texts of a list are those of its statements. -/
theorem mem_textsOf {items : List Statement} {t : String} :
    t ∈ textsOf items ↔ ∃ s ∈ items, t ∈ s.texts := by
  induction items with
  | nil => simp [textsOf]
  | cons s rest ih => simp [textsOf, ih]

/-- The texts of two lists in a row. -/
@[simp] theorem textsOf_append (xs ys : List Statement) :
    textsOf (xs ++ ys) = textsOf xs ++ textsOf ys := by
  induction xs with
  | nil => rfl
  | cons x xs ih => simp only [List.cons_append, textsOf, ih, List.append_assoc]

/-- The texts of arms are those of their labels and their statements. -/
theorem mem_textsOfArms {arms : List Arm} {t : String} :
    t ∈ textsOfArms arms ↔
      ∃ a ∈ arms, (∃ v, a.label = some v ∧ t ∈ v.texts) ∨ t ∈ textsOf a.body := by
  induction arms with
  | nil => simp [textsOfArms]
  | cons a rest ih =>
      obtain ⟨label, body⟩ := a
      have hlabel : (Arm.mk label body).label = label := rfl
      have hbody : (Arm.mk label body).body = body := rfl
      simp [textsOfArms, ih, hlabel, hbody, or_assoc]

end Stimulus
