import Lox.Session

/-!
# The directory of the scripts

The files that a name may lead to. A name is a way from the directory: its parts are names of
files and directories, or steps that stay or go up. Above the directory nothing is known but that
there are directories, so that a way there finds no file.
-/

namespace Lox

structure Directory where
  /-- The files by the way to each from here. -/
  files : List (List String × ByteArray)

namespace Directory

def ofNames (files : List (String × ByteArray)) : Directory :=
  ⟨files.map fun (name, bytes) => (name.splitOn "/", bytes)⟩

inductive Place where
  | directory
  | file (bytes : ByteArray)

/-- What is at the end of a way that only goes down. -/
def place? (d : Directory) (way : List String) : Option Place :=
  match d.files.lookup way with
  | some bytes => some (.file bytes)
  | none =>
    if way.isEmpty || d.files.any (fun (other, _) => way.isPrefixOf other) then some .directory
    else none

/-- A way goes on from a directory only. -/
def check (d : Directory) (way : List String) : Except Crash Unit :=
  match d.place? way with
  | some .directory => .ok ()
  | some (.file _) => .error .notDirectory
  | none => .error .noFile

/-- The file at the end of a way that has got to a place here, or to one above if there is none. -/
def follow (d : Directory) : Option (List String) → List String → Except Crash ByteArray
  | none, [] => .error .isDirectory
  | some here, [] =>
    match d.place? here with
    | some .directory => .error .isDirectory
    | some (.file bytes) => .ok bytes
    | none => .error .noFile
  | none, part :: rest =>
    if part = "" ∨ part = "." ∨ part = ".." then d.follow none rest else .error .noFile
  | some here, part :: rest => do
    d.check here
    if part = "" ∨ part = "." then d.follow (some here) rest
    else if part = ".." then d.follow (if here.isEmpty then none else some here.dropLast) rest
    else d.follow (some (here ++ [part])) rest

/-- The file of a name; a name that starts with a slash leads from above. -/
def read (d : Directory) (name : String) : Except Crash ByteArray :=
  if name = "" then .error .noFile
  else d.follow (if name.startsWith "/" then none else some []) (name.splitOn "/")

end Directory

end Lox
