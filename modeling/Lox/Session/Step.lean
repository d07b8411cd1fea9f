import Lox.Session.Script

/-!
# The steps of a session

All that can be done to a session from outside, one step after the other, whatever became of the
steps before.
-/

namespace Lox

namespace Session

inductive Step where
  | run (source : String)
  | parse (source : String)
  | printTree (source : String)
  | runUnresolved (source : String)
  | runScript (bytes : ByteArray)
  | reset

/-- What a step tells beside its effect on the session. -/
inductive Answer where
  | done
  /-- How many statements were parsed. -/
  | statements (count : Nat)
  /-- The status after a script. -/
  | status (status : Nat)
  | crash (c : Crash)
deriving DecidableEq

/-- The answer of a step that tells something only if it does not crash. -/
def Answer.unless (crash : Option Crash) (otherwise : Answer) : Answer :=
  match crash with
  | none => otherwise
  | some c => .crash c

def perform (s : Session) : Step → Session × Answer
  | .run source =>
    let (s, crash) := s.run source
    (s, .unless crash .done)
  | .parse source =>
    match s.parse source with
    | (s, .ok statements) => (s, .statements statements.length)
    | (s, .error crash) => (s, .crash crash)
  | .printTree source =>
    let (s, crash) := s.printTree source
    (s, .unless crash .done)
  | .runUnresolved source =>
    let (s, crash) := s.runUnresolved source
    (s, .unless crash .done)
  | .runScript bytes =>
    let (s, crash) := s.runScript bytes
    (s, .unless crash (.status s.exitStatus))
  | .reset => (s.reset, .done)

/-- The session after all the steps. -/
def performAll (s : Session) (steps : List Step) : Session :=
  steps.foldl (fun s step => (s.perform step).1) s

end Session

end Lox
