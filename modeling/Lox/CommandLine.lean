import Lox.Session.Prompt
import Lox.Session.Script
import Lox.Text.Digit
import Lox.Text.Quoted

/-!
# The command line

The words of a command line are sorted into flags, plain words and words that look like flags but
are none; after `--` every word is plain. A long flag may be cut short as long as it is clear
which one is meant. The first plain word names the script; any other, and every unknown flag, is
refused. Without a script there is the prompt.
-/

namespace Lox

namespace CommandLine

inductive Flag where
  | help
  | printTree
deriving DecidableEq

def Flag.names : Flag → List String
  | help => ["-h", "--help"]
  | printTree => ["--print-ast"]

/-- What a command line asks for. -/
inductive Request where
  | help
  | refuse (message : String)
  | prompt
  | run (script : String)
  | printTree (script : String)
deriving DecidableEq

/-- A word by its looks. -/
inductive Word where
  | plain (word : String)
  | separator
  | unknown (word : String)
  | flag (flag : Flag)
  /-- A flag and what follows it after `=`. -/
  | flagWith (flag : Flag) (argument : List Char)
  | ambiguous (word : String)
  /-- The short flag and the letters attached to it, with `=` or without. -/
  | shortWith (letters : List Char)
deriving DecidableEq

def flags : List (String × Flag) :=
  [Flag.help, Flag.printTree].flatMap fun flag => flag.names.map fun name => (name, flag)

/-- The characters before the first `=`, and those after it if there is one. -/
def splitEquals : List Char → List Char × Option (List Char)
  | [] => ([], none)
  | '=' :: rest => ([], some rest)
  | c :: rest =>
    let (name, argument) := splitEquals rest
    (c :: name, argument)

/-- Digits of whatever script after a minus, with at most one point among or before them. A line
may end after them. -/
def isNegativeNumber : List Char → Bool
  | '-' :: rest =>
    let number := if rest.getLast? = some '\n' then rest.dropLast else rest
    match number.dropWhile Text.isDecimalDigit with
    | [] => !number.isEmpty
    | '.' :: fraction => !fraction.isEmpty && fraction.all Text.isDecimalDigit
    | _ => false
  | _ => false

/-- A word that starts with a minus and is no flag by its full name. -/
def unnamed (word : String) (chars name : List Char) (argument : Option (List Char)) : Word :=
  let other :=
    if isNegativeNumber chars || chars.contains ' ' then .plain word else .unknown word
  match chars with
  | '-' :: '-' :: _ =>
    match flags.filter fun (full, _) => name.isPrefixOf full.toList with
    | [] => other
    | [(_, flag)] =>
      match argument with
      | none => .flag flag
      | some argument => .flagWith flag argument
    | _ => .ambiguous word
  | '-' :: 'h' :: letters => .shortWith letters
  | _ => other

def classify (word : String) : Word :=
  let chars := word.toList
  if chars.head? ≠ some '-' then .plain word
  else match flags.lookup word with
    | some flag => .flag flag
    | none =>
      if chars.length = 1 then .plain word
      else
        let (name, argument) := splitEquals chars
        match flags.lookup (String.ofList name), argument with
        | some flag, some argument =>
          if name = ['-', 'h'] ∧ argument ≠ [] then .shortWith argument else .flagWith flag argument
        | _, _ => unnamed word chars name argument

/-- The words of a command line; those after the first `--` are plain. -/
def words : List String → List Word
  | [] => []
  | word :: rest =>
    if word = "--" then .separator :: rest.map .plain else classify word :: words rest

def ambiguityMessage (word : String) : String :=
  let name := (splitEquals word.toList).1
  let matching := flags.filter fun (full, _) => name.isPrefixOf full.toList
  "ambiguous option: " ++ word ++ " could match " ++ ", ".intercalate (matching.map (·.1))

def attachedMessage (flag : Flag) (argument : List Char) : String :=
  "argument " ++ "/".intercalate flag.names ++ ": ignored explicit argument " ++
    Text.quoted (String.ofList argument)

/-- What comes of the letters after `-h`. Each `h` is the same flag once more; from the first other
letter on they are an argument, which the flag does not take. -/
def shortFlags (letters : List Char) : Request :=
  match letters.dropWhile (· = 'h') with
  | [] => .help
  | argument => .refuse (attachedMessage .help argument)

/-- What was gathered from the words so far. -/
structure Gathered where
  script : Option String := none
  printTree : Bool := false
  extras : List String := []

def Gathered.request (g : Gathered) : Request :=
  if g.extras ≠ [] then .refuse ("unrecognized arguments: " ++ " ".intercalate g.extras)
  else match g.script with
    | some script => if g.printTree then .printTree script else .run script
    | none => if g.printTree then .refuse "--print-ast requires a script" else .prompt

/-- Takes the words in order. A separator is dropped before the script and right after it. -/
def gather (g : Gathered) : List Word → Request
  | [] => g.request
  | .plain word :: rest =>
    match g.script with
    | some _ => gather { g with extras := g.extras ++ [word] } rest
    | none =>
      let g := { g with script := some word }
      match rest with
      | .separator :: rest => gather g rest
      | rest => gather g rest
  | .separator :: rest =>
    match g.script with
    | some _ => gather { g with extras := g.extras ++ ["--"] } rest
    | none => gather g rest
  | .unknown word :: rest => gather { g with extras := g.extras ++ [word] } rest
  | .flag .help :: _ => .help
  | .flag .printTree :: rest => gather { g with printTree := true } rest
  | .flagWith flag argument :: _ => .refuse (attachedMessage flag argument)
  | .ambiguous word :: _ => .refuse (ambiguityMessage word)
  | .shortWith letters :: _ => shortFlags letters

/-- What the words ask for. An ambiguous flag is refused wherever it stands. -/
def request (arguments : List String) : Request :=
  let words := words arguments
  let ambiguous := words.findSome? fun word =>
    match word with
    | .ambiguous word => some word
    | _ => none
  match ambiguous with
  | some word => .refuse (ambiguityMessage word)
  | none => gather {} words

/-! ## Doing it -/

def usage : String := "usage: pylox [-h] [--print-ast] [filename]\n"

def helpText : String :=
  usage ++ "\nRun Lox scripts\n\npositional arguments:\n  filename\n\noptions:\n" ++
    "  -h, --help   show this help message and exit\n" ++
    "  --print-ast  print the syntax tree of the script instead of running it\n"

/-- How the program ends: with a status of its run, at once with a status, or in a crash. -/
inductive Ending where
  | finished (status : Nat)
  | exited (status : Nat)
  | crashed (crash : Crash)
deriving DecidableEq

/-- The status that the process ends with. -/
def Ending.status : Ending → Nat
  | finished status => status
  | exited status => status
  | crashed _ => 1

structure Outcome where
  output : String
  errors : String
  ending : Ending
deriving DecidableEq

def scriptOutcome (before : Session) (after : Session × Option Crash) : Outcome where
  output := after.1.outputSince before
  errors := after.1.reportsSince before
  ending := match after.2 with
    | none => .finished after.1.exitStatus
    | some crash => .crashed crash

/-- The outcome of a script that is read with `read`. -/
def withFile (s : Session) (read : Except Crash ByteArray)
    (action : Session → ByteArray → Session × Option Crash) : Outcome :=
  scriptOutcome s (match read with
    | .error crash => (s, some crash)
    | .ok bytes => action s bytes)

/-- Does what was asked for, with files read by name and the lines of the input. -/
def Request.perform (s : Session) (read : String → Except Crash ByteArray) (lines : List String) :
    Request → Outcome
  | .help => ⟨helpText, "", .exited 0⟩
  | .refuse message => ⟨"", usage ++ "pylox: error: " ++ message ++ "\n", .exited 64⟩
  | .run script => withFile s (read script) Session.runScript
  | .printTree script => withFile s (read script) Session.printScript
  | .prompt =>
    let transcript := s.prompt lines
    { output := transcript.output
      errors := transcript.session.reportsSince s
      ending := match transcript.crash with
        | none => .finished 0
        | some crash => .crashed crash }

end CommandLine

end Lox
