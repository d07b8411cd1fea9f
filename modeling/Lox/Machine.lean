import Lox.Store

/-!
# The machine

A machine is a store, the environment in which it is running, what it has printed, and the clock
that `clock` reads. A computation on it, an `Eval`, ends in a value or in a `Signal`, and the
machine it ends with is there in either case. Nothing a computation did is undone when it ends in
a signal, except that `within` always goes back to the environment it came from.

A token that is missing has no lexeme and no line, so that whatever needs one of them is a fault.
-/

namespace Lox

/-- A clock by the readings it gives, one for each time that it is read. -/
structure Clock where
  readings : Nat → Number
  /-- How many readings were taken. -/
  taken : Nat := 0
deriving Inhabited

namespace Clock

/-- The reading that is taken next. -/
def reading (c : Clock) : Number := c.readings c.taken

/-- The clock after a reading. -/
def read (c : Clock) : Clock := { c with taken := c.taken + 1 }

/-- A clock that stands still. -/
def ofNat (seconds : Nat) : Clock := { readings := fun _ => .ofNat seconds }

end Clock

structure Machine where
  store : Store := .initial
  /-- The environment in which the machine is running. -/
  environment : Nat := Store.globals
  /-- What was printed, one entry for each `print`. -/
  printed : Array String := #[]
  now : Clock := .ofNat 0
deriving Inhabited

/-- How a computation ends other than with its value. -/
inductive Signal where
  /-- A `return` on its way to the call it ends. -/
  | returning (value : Value)
  | error (e : RuntimeError)
  | fault (f : Fault)
  /-- The computation is nested deeper, or goes on longer, than allowed. -/
  | exhausted
deriving DecidableEq

/-- How trees are run. -/
structure Mode where
  /-- Whether references go by their distances. If not, all are to the globals. -/
  byDistance : Bool := true
  /-- The most turns of one loop. -/
  turns : Nat

/-- How many environments out a reference goes. -/
def Mode.hops (mode : Mode) (reference : Reference) : Option Nat :=
  if mode.byDistance then reference.hops else none

abbrev Eval := EStateM Signal Machine

namespace Eval

def fault {α : Type} (f : Fault) : Eval α := throw (.fault f)

/-- A token whose lexeme, kind or line is needed. -/
def checkToken (token : Token) : Eval Unit := if token.isMissing then fault .noMember else return

/-- Ends in an error at a token. -/
def fail {α : Type} (token : Token) (cause : RuntimeError.Cause) : Eval α := do
  checkToken token
  throw (.error ⟨token, cause⟩)

/-- A computation that leaves the machine as it is. -/
def ofExcept {α : Type} (result : Except Signal α) : Eval α := fun m =>
  match result with
  | .ok a => .ok a m
  | .error signal => .error signal m

/-- Runs in another environment and comes back, however the computation ends. -/
def within {α : Type} (environment : Nat) (body : Eval α) : Eval α := fun m =>
  match body { m with environment } with
  | .ok a inner => .ok a { inner with environment := m.environment }
  | .error signal inner => .error signal { inner with environment := m.environment }

/-- Ends a `return` with its value. -/
def catchReturn (body : Eval Value) : Eval Value := fun m =>
  match body m with
  | .error (.returning value) m => .ok value m
  | ending => ending

/-- Makes a new object of the store. -/
def alloc (make : Store → Nat × Store) : Eval Nat := fun m =>
  let (id, store) := make m.store
  .ok id { m with store }

def modifyStore (f : Store → Store) : Eval Unit := fun m => .ok () { m with store := f m.store }

/-- Goes to another environment and stays there. -/
def enter (environment : Nat) : Eval Unit := fun m => .ok () { m with environment }

/-- Binds a name in the environment in which the machine is running. -/
def define (name : Token) (value : Value) : Eval Unit := do
  checkToken name
  fun m => .ok () { m with store := m.store.define m.environment name.lexeme value }

/-- Reads the clock, which gives another reading the next time. -/
def readClock : Eval Number := fun m => .ok m.now.reading { m with now := m.now.read }

def print (text : String) : Eval Unit := fun m =>
  .ok () { m with printed := m.printed.push text }

/-- Reads a name `hops` environments out. -/
def getAt (hops : Nat) (name : String) : Eval Value := fun m =>
  match m.store.getAt hops m.environment name with
  | .ok value => .ok value m
  | .error f => .error (.fault f) m

/-- The value of a reference: at its distance, or else among the globals. -/
def lookup (mode : Mode) (reference : Reference) : Eval Value := do
  checkToken reference.name
  match mode.hops reference with
  | some hops => getAt hops reference.name.lexeme
  | none => fun m =>
    match m.store.get Store.globals reference.name with
    | .ok value => .ok value m
    | .error e => .error (.error e) m

/-- The environment that has the binding of a reference: at its distance, or else the global one. -/
def holder (mode : Mode) (reference : Reference) (m : Machine) : Except Signal Nat :=
  match mode.hops reference with
  | some hops => (m.store.holderAt hops m.environment reference.name.lexeme).mapError .fault
  | none => (m.store.holder Store.globals reference.name).mapError .error

/-- Sets what a reference refers to. -/
def assign (mode : Mode) (reference : Reference) (value : Value) : Eval Unit := do
  checkToken reference.name
  fun m =>
    match holder mode reference m with
    | .ok found => .ok () { m with store := m.store.define found reference.name.lexeme value }
    | .error signal => .error signal m

/-- Sets the nearest binding of a name, from the environment in which the machine is running. -/
def assignNearest (name : Token) (value : Value) : Eval Unit := fun m =>
  match m.store.holder m.environment name with
  | .ok found => .ok () { m with store := m.store.define found name.lexeme value }
  | .error e => .error (.error e) m

/-- The property of an instance; a method is bound to it anew each time. -/
def getProperty (inst : Nat) (name : Token) : Eval Value := do
  checkToken name
  fun m =>
    match m.store.property inst name with
    | .ok (.inl value) => .ok value m
    | .ok (.inr f) =>
      let (id, store) := m.store.bind f (.inst inst)
      .ok (.function id) { m with store }
    | .error e => .error (.error e) m

def setProperty (inst : Nat) (name : Token) (value : Value) : Eval Unit := do
  checkToken name
  modifyStore (·.setField inst name.lexeme value)

/-- Repeats the body while the condition is true, for at most so many turns. -/
def repeatWhile (condition body : Eval Value) : (turns : Nat) → Eval Unit
  | 0 => throw .exhausted
  | turns + 1 => do
    if (← condition).isTruthy then
      let _ ← body
      repeatWhile condition body turns

/-- Runs one after the other and drops the values. -/
def inOrder (run : Node → Eval Value) : List Node → Eval Unit
  | [] => return
  | n :: rest => do
    let _ ← run n
    inOrder run rest

end Eval

end Lox
