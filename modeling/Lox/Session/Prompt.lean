import Lox.Session

/-!
# The prompt

At the prompt each line is a source of its own, run in the same session after a reset of the
reporter. The prompt is shown before every line and once more before the end of the input, which
it answers with a line break. A crash ends it.
-/

namespace Lox

/-- What the prompt has written when it ends, and how it ended. -/
structure Transcript where
  output : String
  session : Session
  crash : Option Crash

namespace Session

def promptText : String := "> "

/-- Runs one line given at the prompt. -/
def promptLine (s : Session) (line : String) : Session × Option Crash := s.reset.run line

/-- Runs the lines given at the prompt, up to the end of the input or a crash. -/
def prompt (s : Session) : List String → Transcript
  | [] => ⟨promptText ++ "\n", s, none⟩
  | line :: rest =>
    match s.promptLine line with
    | (after, some crash) => ⟨promptText ++ after.outputSince s, after, some crash⟩
    | (after, none) =>
      let later := after.prompt rest
      { later with output := promptText ++ after.outputSince s ++ later.output }

end Session

/-- The lines of an input. Only a line feed ends a line, and the last line may lack it. -/
def inputLines (input : String) : List String :=
  let lines := input.splitOn "\n"
  if lines.getLast? = some "" then lines.dropLast else lines

end Lox
