import Mathlib.Data.Option.Basic
import Stimulus.Proofs.Sequence.Layout

/-!
# The meaning of expressions and statements

What a module does when it runs depends on what its expressions and its plain statements mean. A
**meaning** gives them values and effects over a store, which holds the values of the variables and
of everything else that expressions may read, under names of its own.

A meaning is arbitrary but for what the statements of the sequencer itself are made of: literals,
variables, two comparisons, assignments and the end of the simulation (`Meaning.Lawful`).

## Main definitions

* `Store`, `Meaning`, `Meaning.Lawful`
* `Store.AgreeOff`: two stores agree but for some variables.
* `Meaning.Ignores`: a part of a script neither reads nor changes some variables.
* `Meaning.plain`: a lawful meaning.
-/

namespace Stimulus

/-- The value of a variable. A bool is an integer, and it is true unless it is zero. -/
inductive Datum (R : Type) where
  | real (x : R)
  | integer (n : Int)

/-- The values of all variables. -/
abbrev Store (R : Type) := String → Datum R

namespace Store

variable {R : Type}

/-- The store after a variable has got a value. -/
def set (st : Store R) (x : String) (d : Datum R) : Store R :=
  fun y => if y = x then d else st y

/-- A variable that has got a value has it. -/
@[simp] theorem set_self (st : Store R) (x : String) (d : Datum R) : st.set x d x = d :=
  if_pos rfl

/-- The other variables keep their values. -/
theorem set_of_ne (st : Store R) {x y : String} (d : Datum R) (h : y ≠ x) :
    st.set x d y = st y :=
  if_neg h

/-- Two stores agree on all variables but the owned ones. -/
def AgreeOff (owned : List String) (st su : Store R) : Prop :=
  ∀ x, x ∉ owned → st x = su x

/-- An owned variable may change. -/
theorem AgreeOff.set {owned : List String} {st su : Store R} (h : AgreeOff owned st su)
    {x : String} (hx : x ∈ owned) (d : Datum R) : AgreeOff owned (st.set x d) su := by
  intro y hy
  rw [st.set_of_ne d fun hyx => hy (by rwa [hyx])]
  exact h y hy

end Store

/-- The variable that a command gives a value, if it is an assignment or an increment. -/
def Command.target? : Command → Option String
  | .assign x _ => some x
  | .increment x => some x
  | _ => none

/-- The variable that a plain statement gives a value, if it is an assignment or an increment. -/
def Statement.target? : Statement → Option String
  | .command c => c.target?
  | _ => none

/-- What expressions and statements mean. A statement that ends the simulation gives no store. -/
structure Meaning (R : Type) where
  real : Expr .real → Store R → R
  integer : Expr .integer → Store R → Int
  bool : Expr .bool → Store R → Bool
  /-- Whether the label of an arm fits the value of a case. -/
  fits : Value → Value → Store R → Bool
  /-- What a plain statement does. -/
  perform : Statement → Store R → Option (Store R)

namespace Meaning

variable {R : Type} (M : Meaning R)

/-- The value of an expression of any kind. -/
def value : Value → Store R → Datum R
  | ⟨.real, e⟩, st => .real (M.real e st)
  | ⟨.integer, e⟩, st => .integer (M.integer e st)
  | ⟨.bool, e⟩, st => .integer (if M.bool e st then 1 else 0)

/-- A meaning is **lawful** if it gives the usual meaning to what the sequencer is made of. -/
structure Lawful : Prop where
  real_literal : ∀ x st su, M.real (.real x) st = M.real (.real x) su
  integer_literal : ∀ n st, M.integer (.integer n) st = n
  bool_literal : ∀ b st, M.bool (.bool b) st = b
  integer_ident : ∀ x n st, st x = .integer n → M.integer (.ident x) st = n
  bool_ident : ∀ x n st, st x = .integer n → M.bool (.ident x) st = decide (n ≠ 0)
  eq : ∀ (a b : Expr .integer) st,
    M.bool (.compare .eq rfl a b) st = decide (M.integer a st = M.integer b st)
  lt : ∀ (a b : Expr .integer) st,
    M.bool (.compare .lt rfl a b) st = decide (M.integer a st < M.integer b st)
  fits : ∀ (a b : Expr .integer) st,
    M.fits ⟨_, a⟩ ⟨_, b⟩ st = decide (M.integer a st = M.integer b st)
  assign : ∀ x v st, M.perform (.command (.assign x v)) st = some (st.set x (M.value v st))
  increment : ∀ x n st, st x = .integer n →
    M.perform (.command (.increment x)) st = some (st.set x (.integer (n + 1)))
  finish : ∀ st, M.perform (.command .finish) st = none

/-- A change of the store neither reads nor writes the owned variables. -/
structure Apart (owned : List String) (f : Store R → Option (Store R)) : Prop where
  reads : ∀ st su, Store.AgreeOff owned st su → Option.Rel (Store.AgreeOff owned) (f st) (f su)
  writes : ∀ st st', f st = some st' → ∀ x ∈ owned, st' x = st x

/-- A part of a script **ignores** the owned variables: it neither reads nor writes them. For a
delay this is about the time at which it ends. -/
def Ignores (owned : List String) : Part → Prop
  | .plain s => Apart owned (M.perform s) ∧ ∀ x ∈ s.target?, x ∉ owned
  | .condition c => ∀ st su, Store.AgreeOff owned st su → M.bool c st = M.bool c su
  | .count n => ∀ st su, Store.AgreeOff owned st su → M.integer n st = M.integer n su
  | .delay d => ∀ st su, Store.AgreeOff owned st su →
    M.real (Expr.now.add (Sequence.seconds d)) st = M.real (Expr.now.add (Sequence.seconds d)) su
  | .signal _ => True

end Meaning

/-! ### A lawful meaning -/

namespace Meaning

/-- The value of an integer literal or variable; other expressions are 0. -/
def plainInteger : Expr .integer → Store Float → Int
  | .integer n, _ => n
  | .ident x, st =>
    match st x with
    | .integer n => n
    | .real _ => 0
  | _, _ => 0

/-- The value of a real literal or variable; other expressions are 0. -/
def plainReal : Expr .real → Store Float → Float
  | .real x, _ => x
  | .ident x, st =>
    match st x with
    | .real r => r
    | .integer n => Float.ofInt n
  | _, _ => 0

/-- The value of a bool literal or variable, or of a comparison of integers; other expressions are
false. -/
def plainBool : Expr .bool → Store Float → Bool
  | .bool b, _ => b
  | .ident x, st => plainInteger (.ident x) st ≠ 0
  | @Expr.compare .integer .eq _ a b, st => plainInteger a st = plainInteger b st
  | @Expr.compare .integer .lt _ a b, st => plainInteger a st < plainInteger b st
  | _, _ => false

/-- A meaning in which only assignments, increments and the end of the simulation do anything. -/
def plain : Meaning Float where
  real := plainReal
  integer := plainInteger
  bool := plainBool
  fits
    | ⟨.integer, a⟩, ⟨.integer, b⟩, st => plainInteger a st = plainInteger b st
    | _, _, _ => false
  perform
    | .command (.assign x ⟨.real, e⟩), st => some (st.set x (.real (plainReal e st)))
    | .command (.assign x ⟨.integer, e⟩), st => some (st.set x (.integer (plainInteger e st)))
    | .command (.assign x ⟨.bool, e⟩), st =>
      some (st.set x (.integer (if plainBool e st then 1 else 0)))
    | .command (.increment x), st =>
      some (st.set x (.integer (plainInteger (.ident x) st + 1)))
    | .command .finish, _ => none
    | _, st => some st

/-- The plain meaning is lawful. -/
theorem plain_lawful : plain.Lawful where
  real_literal _ _ _ := rfl
  integer_literal _ _ := rfl
  bool_literal _ _ := rfl
  integer_ident x n st h := by
    simp [plain, plainInteger, h]
  bool_ident x n st h := by
    simp [plain, plainBool, plainInteger, h]
  eq _ _ _ := rfl
  lt _ _ _ := rfl
  fits _ _ _ := rfl
  assign x v st := by
    obtain ⟨k, e⟩ := v
    cases k <;> rfl
  increment x n st h := by
    simp [plain, plainInteger, h]
  finish _ := rfl

/-- Giving a variable a value has nothing to do with other variables. -/
theorem ignores_assign {owned : List String} {x : String} (hx : x ∉ owned) (n : Int) :
    plain.Ignores owned (.plain (.command (.assign x ⟨_, .integer n⟩))) := by
  refine ⟨⟨fun st su hagree => .some fun y hy => ?_, ?_⟩, ?_⟩
  · by_cases hyx : y = x
    · rw [hyx, Store.set_self, Store.set_self]
      rfl
    · rw [Store.set_of_ne _ _ hyx, Store.set_of_ne _ _ hyx, hagree y hy]
  · rintro st _ ⟨⟩ y hy
    refine Store.set_of_ne _ _ ?_
    rintro rfl
    exact hx hy
  · rintro y ⟨⟩
    exact hx

/-- Printing has nothing to do with variables. -/
theorem ignores_print (owned : List String) (task : PrintTask) (file : Option (Expr .integer))
    (format : String) (arguments : List Value) :
    plain.Ignores owned (.plain (.command (.print task file format arguments))) := by
  refine ⟨⟨fun _ _ hagree => .some hagree, ?_⟩, fun x hx => by cases hx⟩
  rintro st _ ⟨⟩ x -
  rfl

/-- The value of a variable has nothing to do with other variables. -/
theorem plainInteger_ident {owned : List String} {x : String} (hx : x ∉ owned) {st su : Store Float}
    (h : Store.AgreeOff owned st su) :
    plainInteger (.ident x) st = plainInteger (.ident x) su := by
  rw [plainInteger, plainInteger, h x hx]

end Meaning

end Stimulus
