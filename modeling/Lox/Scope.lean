import Lox.Report
import Lox.Table
import Lox.Tree

/-!
# Scopes, and what is known while names are resolved

A scope has the names declared in it so far, each with whether its definition is finished, and
those of its variables that nothing has read yet. A `Resolver` runs over the stack of open scopes
and the kinds of function and class around it, and puts its complaints together in order. The
operations that enter a scope, a function or a class leave it again by themselves.

A tree made by hand can bring resolution to a halt. What was found until then stays, and from then
on nothing is found and nothing complained of.
-/

namespace Lox

structure Scope where
  names : Table Bool := .empty
  unused : Table Token := .empty
deriving DecidableEq, Inhabited

/-- The innermost function around a place. -/
inductive FunctionContext where
  | none
  | function
  | method
  | initializer
deriving DecidableEq

/-- The innermost class around a place. -/
inductive ClassContext where
  | none
  | plain
  | subclass
deriving DecidableEq

/-- Where a place stands: the open scopes, the innermost first, the function and class around it,
and the fault that brought resolution to a halt before it. -/
structure Surroundings where
  scopes : List Scope := []
  inFunction : FunctionContext := .none
  inClass : ClassContext := .none
  fault : Option Fault := none
deriving DecidableEq

/-- What a `Resolver` gives back. -/
structure Resolver.Reply (α : Type) where
  value : α
  surroundings : Surroundings
  complaints : List Complaint

def Resolver (α : Type) : Type := Surroundings → Resolver.Reply α

namespace Resolver

variable {α β γ : Type}

def pure (a : α) : Resolver α := fun s => ⟨a, s, []⟩

def bind (r : Resolver α) (f : α → Resolver β) : Resolver β := fun s =>
  let first := r s
  let second := f first.value first.surroundings
  ⟨second.value, second.surroundings, first.complaints ++ second.complaints⟩

instance : Monad Resolver where
  pure := Resolver.pure
  bind := Resolver.bind

theorem bind_bind (r : Resolver α) (f : α → Resolver β) (g : β → Resolver γ) :
    (r >>= f >>= g) = (r >>= fun a => f a >>= g) := by
  funext s
  simp [Bind.bind, Resolver.bind]

theorem map_id (r : Resolver α) : (id <$> r) = r := by
  funext s
  show Resolver.bind r (fun a => Resolver.pure (id a)) s = r s
  simp [Resolver.bind, Resolver.pure]

instance : LawfulMonad Resolver :=
  LawfulMonad.mk' Resolver map_id (fun _ _ => by funext s; rfl) bind_bind

def get : Resolver Surroundings := fun s => ⟨s, s, []⟩

def modify (f : Surroundings → Surroundings) : Resolver Unit := fun s => ⟨(), f s, []⟩

/-- Brings resolution to a halt. Only the first fault counts. -/
def halt (fault : Fault) : Resolver Unit :=
  modify fun s => { s with fault := s.fault.or (some fault) }

/-- A complaint names its token, which must be there. -/
def complain (token : Token) (problem : Problem) : Resolver Unit := fun s =>
  if s.fault.isSome then ⟨(), s, []⟩
  else if token.isMissing then halt .noMember s
  else ⟨(), s, [⟨token, problem⟩]⟩

/-! ## Going in and out -/

/-- The complaints when the innermost scope closes, one for each variable in it that was never
read. -/
def closing (s : Surroundings) : List Complaint :=
  match s.fault, s.scopes with
  | none, scope :: _ => scope.unused.values.map (⟨·, .neverUsed⟩)
  | _, _ => []

/-- Runs inside a new scope. -/
def withScope (scope : Scope) (body : Resolver α) : Resolver α := fun s =>
  let inner := body { s with scopes := scope :: s.scopes }
  ⟨inner.value, { inner.surroundings with scopes := inner.surroundings.scopes.tail },
    inner.complaints ++ closing inner.surroundings⟩

/-- Runs inside a function of the kind. -/
def withFunction (kind : FunctionContext) (body : Resolver α) : Resolver α := fun s =>
  let inner := body { s with inFunction := kind }
  { inner with surroundings := { inner.surroundings with inFunction := s.inFunction } }

/-- Runs inside a class of the kind. -/
def withClass (kind : ClassContext) (body : Resolver α) : Resolver α := fun s =>
  let inner := body { s with inClass := kind }
  { inner with surroundings := { inner.surroundings with inClass := s.inClass } }

/-! ## Names -/

/-- Changes the innermost scope, if one is open. -/
def modifyInnermost (f : Scope → Scope) : Resolver Unit :=
  modify fun s => { s with scopes := s.scopes.modify 0 f }

/-- Inside a scope a name must be there. Globals are not tracked. -/
def checkName (name : Token) : Resolver Unit := do
  if !(← get).scopes.isEmpty && name.isMissing then halt .noMember

/-- Enters a name whose definition is not finished. -/
def declare (name : Token) : Resolver Unit := do
  checkName name
  match (← get).scopes with
  | [] => return
  | scope :: _ =>
    if scope.names.contains name.lexeme then complain name .alreadyDeclared
    modifyInnermost fun scope => { scope with names := scope.names.insert name.lexeme false }

def define (name : Token) : Resolver Unit :=
  modifyInnermost fun scope => { scope with names := scope.names.insert name.lexeme true }

/-- Remembers a variable until something reads it. -/
def watch (name : Token) : Resolver Unit :=
  modifyInnermost fun scope => { scope with unused := scope.unused.insert name.lexeme name }

/-- The number of scopes between the innermost and the first that has the name. -/
def hopsTo? (name : String) (scopes : List Scope) : Option Nat :=
  scopes.findIdx? (·.names.contains name)

/-- The reference with the distance to its binding. -/
def locate (reference : Reference) : Resolver Reference := do
  checkName reference.name
  let s ← get
  if s.fault.isSome then return reference
  return { reference with hops := hopsTo? reference.name.lexeme s.scopes }

/-- Whether the innermost scope has the name and its definition is not finished. -/
def isUnfinished (name : String) : List Scope → Bool
  | [] => false
  | scope :: _ => scope.names.get? name = some false

/-- A place that reads a variable. -/
def read (reference : Reference) : Resolver Reference := do
  let name := reference.name
  if isUnfinished name.lexeme (← get).scopes then complain name .readsOwnInitializer
  let found ← locate reference
  match found.hops with
  | none => return found
  | some hops =>
    modify fun s => { s with
      scopes := s.scopes.modify hops fun scope =>
        { scope with unused := scope.unused.erase name.lexeme } }
    return found

end Resolver

end Lox
