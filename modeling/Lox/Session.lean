import Lox.Machine.Run
import Lox.Parser.Statement
import Lox.Scope.Resolve
import Lox.Tree.Printed

/-!
# Sessions

A session keeps a machine and a reporter over any number of sources. A source is scanned and
parsed; if nothing was ever complained of since the last reset it is resolved; if that is still so
it is run, until its end or its first runtime error, which is reported. What ends a step in any
other way is a `Crash`, and the session goes on after it from where it stood.
-/

namespace Lox

/-- How deep and how long a session goes before it gives up. -/
structure Limits where
  /-- Rules of the grammar inside one another. -/
  grammar : Nat := 10000
  /-- Nodes of a tree inside one another. -/
  nesting : Nat := 4000
  /-- Expressions, statements and calls that are running inside one another. -/
  depth : Nat := 4000
  /-- Turns of one loop. -/
  turns : Nat := 1000000000000000

/-- What ends a step other than its own end or a reported error. -/
inductive Crash where
  /-- A `return` outside of every call. -/
  | returned (value : Value)
  | fault (f : Fault)
  /-- A limit of the session. -/
  | overflow
  /-- The tokens have no end of source among them. -/
  | noToken
  /-- The bytes of a file are no text. -/
  | notText
  | noFile
  | isDirectory
  /-- A way to a file goes through another file. -/
  | notDirectory
deriving DecidableEq

structure Session where
  reporter : Reporter := {}
  machine : Machine := {}
  limits : Limits := {}

namespace Session

def hadError (s : Session) : Bool := s.reporter.hadError

def hadRuntimeError (s : Session) : Bool := s.reporter.hadRuntimeError

def exitStatus (s : Session) : Nat := s.reporter.exitStatus

def report (s : Session) (reports : List Report) : Session :=
  { s with reporter := s.reporter.addAll reports }

def complain (s : Session) (complaints : List Complaint) : Session :=
  s.report (complaints.map .ofComplaint)

def reset (s : Session) : Session := { s with reporter := s.reporter.reset }

/-- The statements of tokens, and their complaints reported. -/
def parseTokens (s : Session) (tokens : List Token) : Session × Except Crash (List Node) :=
  let reply := Parser.program s.limits.grammar tokens
  let s := s.complain reply.complaints
  match reply.result with
  | .ok statements _ => (s, .ok statements)
  | .failed _ => (s, .ok [])
  | .noToken => (s, .error .noToken)
  | .tooDeep => (s, .error .overflow)

/-- The tokens of a source, and its faults reported. -/
def scanSource (s : Session) (source : String) : Session × List Token :=
  let scanned := scan source
  (s.report (scanned.faults.map fun (line, fault) => .ofFault line fault), scanned.tokens)

def parse (s : Session) (source : String) : Session × Except Crash (List Node) :=
  let (s, tokens) := s.scanSource source
  s.parseTokens tokens

/-- The statements before the first that is nested too deep, and whether there is such a one. -/
def shallow (s : Session) (statements : List Node) : List Node × Bool :=
  let (shallow, deep) := statements.span fun statement => statement.nesting ≤ s.limits.nesting
  (shallow, !deep.isEmpty)

/-- The resolved statements, and their complaints reported. The distances are in the statements
themselves. If these are not run because of a complaint, then nothing ever reads the distances, for
the nodes of later sources are other nodes. -/
def resolve (s : Session) (statements : List Node) : Session × Except Crash (List Node) :=
  let (shallow, isDeep) := s.shallow statements
  let (resolved, complaints) := Lox.resolve shallow
  let s := s.complain complaints
  (s, if isDeep then .error .overflow else .ok resolved)

/-- How the session runs trees. -/
def mode (s : Session) (byDistance : Bool) : Mode := ⟨byDistance, s.limits.turns⟩

/-- The session after a computation, whose value is dropped and whose runtime error is reported. -/
def conclude {α : Type} (s : Session) : EStateM.Result Signal Machine α → Session × Option Crash
  | .ok _ machine => ({ s with machine }, none)
  | .error (.error e) machine =>
    ({ s with machine }.report [.runtime e.message e.token.line], none)
  | .error (.returning value) machine => ({ s with machine }, some (.returned value))
  | .error (.fault f) machine => ({ s with machine }, some (.fault f))
  | .error .exhausted machine => ({ s with machine }, some .overflow)

/-- Runs nodes as they are. -/
def interpret (s : Session) (byDistance : Bool) (nodes : List Node) : Session × Option Crash :=
  s.conclude (Eval.inOrder (Eval.eval (s.mode byDistance) s.limits.depth) nodes s.machine)

/-- Runs a source, unless there is or was something to complain of. -/
def run (s : Session) (source : String) : Session × Option Crash :=
  match s.parse source with
  | (s, .error crash) => (s, some crash)
  | (s, .ok statements) =>
    if s.hadError then (s, none)
    else match s.resolve statements with
      | (s, .error crash) => (s, some crash)
      | (s, .ok resolved) => if s.hadError then (s, none) else s.interpret true resolved

/-- What is run of parsed statements: all of them, resolved, or none where there is or was something
to complain of. -/
def prepare (s : Session) : Except Crash (List Node) → Session × Except Crash (List Node)
  | .error crash => (s, .error crash)
  | .ok statements =>
    if s.hadError then (s, .ok [])
    else match s.resolve statements with
      | (s, .error crash) => (s, .error crash)
      | (s, .ok resolved) => (s, .ok (if s.hadError then [] else resolved))

theorem run_eq_prepare (s : Session) (source : String) :
    s.run source = match (s.parse source).1.prepare (s.parse source).2 with
      | (s, .error crash) => (s, some crash)
      | (s, .ok statements) => s.interpret true statements := by
  unfold run prepare
  rcases s.parse source with ⟨s, crash | statements⟩
  · rfl
  · dsimp only
    split
    · rfl
    · rcases s.resolve statements with ⟨s, crash | resolved⟩
      · rfl
      · dsimp only
        split <;> rfl

/-- Statements can be run one at a time, up to the first that does not end in a value. -/
theorem interpret_cons (s : Session) (byDistance : Bool) (n : Node) (rest : List Node) :
    s.interpret byDistance (n :: rest) =
      match Eval.eval (s.mode byDistance) s.limits.depth n s.machine with
      | .ok _ machine => { s with machine }.interpret byDistance rest
      | .error signal machine => s.conclude (.error signal machine : EStateM.Result _ _ Unit) := by
  rw [interpret, Eval.inOrder, bind, EStateM.instMonad]
  dsimp only [EStateM.bind]
  cases Eval.eval (s.mode byDistance) s.limits.depth n s.machine with
  | ok value machine => rfl
  | error signal machine => cases signal <;> rfl

/-- Runs the statements of a source without resolving them, whatever was complained of. -/
def runUnresolved (s : Session) (source : String) : Session × Option Crash :=
  match s.parse source with
  | (s, .error crash) => (s, some crash)
  | (s, .ok statements) => s.interpret true statements

/-- Prints the tree of a source, unless there is or was something to complain of. -/
def printTree (s : Session) (source : String) : Session × Option Crash :=
  match s.parse source with
  | (s, .error crash) => (s, some crash)
  | (s, .ok statements) =>
    if s.hadError then (s, none)
    else
      let (shallow, isDeep) := s.shallow statements
      let printed := s.machine.printed ++ (shallow.map Node.printed).toArray
      let s := { s with machine := { s.machine with printed } }
      (s, if isDeep then some .overflow else none)

/-- Whether the machine is running in the global environment. -/
def atGlobals (s : Session) : Bool := s.machine.environment = Store.globals

/-- The globals by name. -/
def globals (s : Session) : List (String × Value) := s.machine.store.bindings Store.globals

/-- What was printed since an earlier state of the session. -/
def outputSince (s earlier : Session) : String :=
  String.join ((s.machine.printed.toList.drop earlier.machine.printed.size).map (· ++ "\n"))

/-- What was reported since an earlier state of the session. -/
def reportsSince (s earlier : Session) : String :=
  Report.lines (s.reporter.written.toList.drop earlier.reporter.written.size)

end Session

end Lox
