import Stimulus.Proofs.Run.Code

/-!
# Running scripts

Scripts executed directly, as structured programs, without states and without numbers. Each script
is a thread with a stack of **frames**: what is left of the lists of statements and of the loops
around the place where it stands. It runs until it waits, and it goes on when it is woken by what it
waits for. At first it waits for its timer.

## Main definitions

* `Frame`, `Thread`
* `Thread.next`: the next move of a thread
* `Script.step`: scripts as a machine
* `Script.Config.guarded`, `Script.Config.steady`: what the code of the scripts relies on: guards
  that hold, and counts that stay what they were.
-/

namespace Stimulus

/-! ### Threads -/

/-- A list of statements or a loop that a thread is in. -/
inductive Frame where
  /-- Runs what is left of a list of statements. -/
  | run (items : List Statement)
  /-- Runs a body as long as a condition holds. -/
  | test (condition : Expr .bool) (body : List Statement)
  /-- Runs a body once more if it has been run less often than it is to be run. That is what the
  count said when the loop was entered. -/
  | rounds (done times : Nat) (count : Expr .integer) (body : List Statement)

/-- A script on its way. -/
structure Thread (R : Type) where
  /-- The text of the event it waits for; without one it waits for its timer. -/
  awaits : Option String
  /-- The time to which its timer was set last. -/
  due : Datum R
  frames : List Frame

/-- What a thread does next. -/
inductive Move (R : Type) where
  /-- Goes on without doing anything. -/
  | pass (frames : List Frame)
  /-- Performs a statement. -/
  | perform (s : Statement) (frames : List Frame)
  /-- Waits for its timer, which is set, or for the event with a given text. -/
  | delay (due : Datum R) (frames : List Frame)
  | await (text : String) (frames : List Frame)

/-- The next move at a statement, with what is left of its list and with the frames around it.
Lists are spliced; cases and event blocks have no place in a script. -/
def Meaning.nextOf {R : Type} (M : Meaning R) (st : Store R) (s : Statement)
    (left : List Statement) (around : List Frame) : Move R :=
  let after := .run left :: around
  match s with
  | .command c => .perform (.command c) after
  | .block (.raw header) body => .perform (.block (.raw header) body) after
  | .list items => .pass (.run (items ++ left) :: around)
  | .branch c yes no => .pass (.run (if M.bool c st then yes else no) :: after)
  | .block (.whileLoop c) body => .pass (.test c body :: after)
  | .block (.forLoop start c next) body =>
    .perform (.command start) (.test c (body ++ [.command next]) :: after)
  | .block (.repeatLoop n) body => .pass (.rounds 0 (M.integer n st).toNat n body :: after)
  | .block (.onEvent _) _ => .pass after
  | .select _ _ => .pass after
  | .step (.delay d) => .delay (.real (M.real (Expr.now.add (Sequence.seconds d)) st)) after
  | .step (.signal event) => .await event.text after
  | .step (.mark state _) => .perform (.command state.toggle) after

/-- The next move of a thread. A script that has come to its end finishes the simulation. The count
of a loop is read once, where the loop is entered. -/
def Meaning.next {R : Type} (M : Meaning R) (st : Store R) : List Frame → Move R
  | [] => .perform (.command .finish) []
  | .run [] :: fs => .pass fs
  | .run (s :: left) :: fs => M.nextOf st s left fs
  | .test c body :: fs => .pass (if M.bool c st then .run body :: .test c body :: fs else fs)
  | .rounds done times n body :: fs =>
    .pass (if done < times then .run body :: .rounds (done + 1) times n body :: fs else fs)

/-- Whether the count of the loop whose test comes next, if there is one, is **steady**: read again,
it says about one more round what it said when the loop was entered. -/
def Meaning.steady {R : Type} (M : Meaning R) (st : Store R) : List Frame → Bool
  | .rounds done times n _ :: _ => decide (done < M.integer n st) == decide (done < times)
  | _ => true

/-- Whether something that happens wakes the thread with a given number, by what it awaits. -/
def Cause.wakes (index : Nat) (awaits : Option String) : Cause → Bool
  | .timer i => i == index && awaits.isNone
  | .signal text => awaits == some text

/-! ### The machine -/

namespace Script

/-- What is left to do in this time step. -/
inductive Item where
  /-- A thread has its turn, and something has happened. -/
  | turn (index : Nat) (cause : Cause)
  /-- A thread goes on. -/
  | go (index : Nat)
  /-- The turn of a thread ends. -/
  | rest (index : Nat)

/-- A state of the machine: the store, the threads by their numbers, what is left to do, and what
is yet to happen. -/
structure Config (R : Type) where
  store : Store R
  threads : Nat → Thread R
  agenda : List Item
  firings : List (Firing R)

variable {R : Type}

/-- The threads after one of them has changed. -/
def update (threads : Nat → Thread R) (index : Nat) (t : Thread R) : Nat → Thread R :=
  fun i => if i = index then t else threads i

/-- The state after a move of a thread that is under way. -/
def Config.move (c : Config R) (M : Meaning R) (index : Nat) (rest : List Item) :
    Move R → List (Happening R) × Config R
  | .pass frames =>
    ([], { c with threads := update c.threads index { c.threads index with frames } })
  | .perform s frames =>
    ([.performed index s],
      match M.perform s c.store with
      | some store =>
        { c with store, threads := update c.threads index { c.threads index with frames } }
      | none => { c with agenda := [], firings := [] })
  | .delay due frames =>
    ([], { c with threads := update c.threads index ⟨none, due, frames⟩, agenda := rest })
  | .await text frames =>
    ([], { c with
      threads := update c.threads index ⟨some text, (c.threads index).due, frames⟩
      agenda := rest })

/-- The steps of the machine for the scripts with the given numbers. Once the simulation has ended,
nothing happens any more. -/
def step (M : Meaning R) (indices : List Nat) : Machine (Config R) (Happening R)
  | ⟨_, _, [], []⟩ => none
  | ⟨st, threads, [], f :: firings⟩ =>
    some ([], ⟨f.change st, threads, indices.map (.turn · f.cause), firings⟩)
  | ⟨st, threads, .turn index cause :: rest, firings⟩ =>
    let agenda := if cause.wakes index (threads index).awaits then .go index :: .rest index :: rest
      else .rest index :: rest
    some ([], ⟨st, threads, agenda, firings⟩)
  | ⟨st, threads, .rest index :: rest, firings⟩ =>
    some ([.rested index (threads index).awaits (threads index).due],
      ⟨st, threads, rest, firings⟩)
  | c@⟨st, threads, .go index :: rest, _⟩ =>
    some (c.move M index rest (M.next st (threads index).frames))

/-- Whether the guard of a thread that is woken holds. Guards are found by the numbers of the
threads. -/
def Config.guarded (M : Meaning R) (guards : List (Expr .bool)) (c : Config R) : Bool :=
  match c.agenda with
  | .turn index cause :: _ =>
    !cause.wakes index (c.threads index).awaits
      || M.bool (guards.getD (index - 1) (.bool true)) c.store
  | _ => true

/-- Whether the count is steady that a thread under way goes by. -/
def Config.steady (M : Meaning R) (c : Config R) : Bool :=
  match c.agenda with
  | .go index :: _ => M.steady c.store (c.threads index).frames
  | _ => true

/-- The threads in which scripts start. All of them wait for their timers, which are set to 0. -/
def start (M : Meaning R) (st : Store R) (scripts : List (List Statement)) : Nat → Thread R :=
  fun index => ⟨none, .real (M.real (.real 0.0) st), [.run (scripts.getD (index - 1) [])]⟩

end Script

end Stimulus
