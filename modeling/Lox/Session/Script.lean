import Lox.Session

/-!
# Scripts

A script is a file of UTF-8 text whose lines may end in a line feed, a carriage return, or both; a
byte order mark is a character like any other.
-/

namespace Lox

namespace Script

/-- Every line end as a single line feed. -/
def normalizeLineEnds : List Char → List Char
  | [] => []
  | '\r' :: '\n' :: rest => '\n' :: normalizeLineEnds rest
  | '\r' :: rest => '\n' :: normalizeLineEnds rest
  | c :: rest => c :: normalizeLineEnds rest

/-- The text in the bytes of a file. -/
def decode? (bytes : ByteArray) : Option String :=
  (String.fromUTF8? bytes).map fun text => String.ofList (normalizeLineEnds text.toList)

end Script

namespace Session

/-- Does something with the text in the bytes of a file. -/
def withText (s : Session) (bytes : ByteArray)
    (action : Session → String → Session × Option Crash) : Session × Option Crash :=
  match Script.decode? bytes with
  | none => (s, some .notText)
  | some source => action s source

/-- Runs the script in the bytes of a file. -/
def runScript (s : Session) (bytes : ByteArray) : Session × Option Crash := s.withText bytes run

/-- Prints the tree of the script in the bytes of a file. -/
def printScript (s : Session) (bytes : ByteArray) : Session × Option Crash :=
  s.withText bytes printTree

end Session

end Lox
