import Mathlib.Tactic.DeprecateTo
import Lox.CommandLine

/-!
# The program

Reads the command line, the script or the lines at the prompt, and writes what comes of them. The
statements of a source are run one at a time (`Session.run_eq_prepare`, `Session.interpret_cons`),
so that what each prints is written when it ends and the clock is right when it begins.
-/

namespace Lox

def writeSince (before after : Session) : IO Unit := do
  let out ← IO.getStdout
  out.putStr (after.outputSince before)
  out.flush
  let err ← IO.getStderr
  err.putStr (after.reportsSince before)
  err.flush

/-- A clock that gives the seconds since the epoch. A computation cannot look at the time while it
runs, so from one reading to the next the clock goes on by a microsecond. -/
def wallClock : IO Clock := do
  let start := (← Std.Time.Timestamp.now).toNanosecondsSinceUnixEpoch.val.toNat
  return { readings := fun taken => (Number.ofNat (start + 1000 * taken)).div (.ofNat 1000000000) }

/-- Runs statements in order, up to the first that does not end in a value. -/
def runStatements (s : Session) : List Node → IO (Session × Option Crash)
  | [] => return (s, none)
  | statement :: rest => do
    let before := { s with machine := { s.machine with now := ← wallClock } }
    let result := Eval.eval (before.mode true) before.limits.depth statement before.machine
    let (after, crash) := before.conclude result
    writeSince before after
    match result with
    | .ok _ _ => runStatements after rest
    | .error _ _ => return (after, crash)

def runSource (s : Session) (source : String) : IO (Session × Option Crash) := do
  let (after, prepared) := (s.parse source).1.prepare (s.parse source).2
  writeSince s after
  match prepared with
  | .error crash => return (after, some crash)
  | .ok statements => runStatements after statements

partial def promptLoop (s : Session) : IO UInt32 := do
  let out ← IO.getStdout
  out.putStr Session.promptText
  out.flush
  let line ← (← IO.getStdin).getLine
  if line.isEmpty then
    out.putStr "\n"
    return 0
  let text := if line.endsWith "\n" then (line.dropEnd 1).toString else line
  let (after, crash) ← runSource s.reset text
  if crash.isSome then return 1
  promptLoop after

def readScript (script : String) : IO (Except Crash ByteArray) := do
  try return .ok (← IO.FS.readBinFile script)
  catch _ => return .error .noFile

/-- Runs a script, and gives the status that the process ends with. -/
def runScript (script : String) : IO UInt32 := do
  let s : Session := {}
  let after ← match ← readScript script with
    | .error crash => pure (s, some crash)
    | .ok bytes => match Script.decode? bytes with
      | none => pure (s, some .notText)
      | some source => runSource s source
  return (CommandLine.scriptOutcome s after).ending.status.toUInt32

def runProgram (arguments : List String) : IO UInt32 := do
  let request := CommandLine.request arguments
  match request with
  | .prompt => promptLoop {}
  | .run script => runScript script
  | _ =>
    let bytes ← match request with
      | .printTree script => readScript script
      | _ => pure (.error .noFile)
    let outcome := request.perform {} (fun _ => bytes) []
    (← IO.getStdout).putStr outcome.output
    (← IO.getStderr).putStr outcome.errors
    return outcome.ending.status.toUInt32

end Lox

def main (arguments : List String) : IO UInt32 := Lox.runProgram arguments
