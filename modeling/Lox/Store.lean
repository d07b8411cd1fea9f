import Lox.Machine.Error
import Lox.Table
import Lox.Tree
import Lox.Value

/-!
# The store

All that values refer to lives in a store: environments, functions, classes, instances and native
functions, each known by its index. A store only grows. An environment has bindings and the
environment around it, which is older; so is the superclass of a class. Both sorts of chain
therefore end, and a walk along one needs no more steps than there are environments or classes.
-/

namespace Lox

structure Environment where
  bindings : Table Value := .empty
  enclosing : Option Nat := none
deriving DecidableEq, Inhabited

/-- A function declaration together with the environment it was made in. -/
structure Closure where
  declaration : Node
  environment : Nat
  isInitializer : Bool
deriving Inhabited

def Closure.arity (f : Closure) : Except Fault Nat := f.declaration.parameters.map List.length

def Closure.name (f : Closure) : String := (f.declaration.name?.map (·.lexeme)).getD ""

structure Class where
  name : String
  superclass : Option Nat
  methods : Table Nat
deriving DecidableEq, Inhabited

structure Instance where
  cls : Nat
  fields : Table Value := .empty
deriving DecidableEq, Inhabited

/-- What a native function gives back: the time, or the number of its arguments. -/
inductive Native.Result where
  | clock
  | argumentCount
deriving DecidableEq, Inhabited

structure Native where
  name : String
  arity : Nat
  result : Native.Result
deriving DecidableEq, Inhabited

structure Store where
  environments : Array Environment := #[]
  functions : Array Closure := #[]
  classes : Array Class := #[]
  instances : Array Instance := #[]
  natives : Array Native := #[]
deriving Inhabited

namespace Store

/-- The index of the global environment. -/
def globals : Nat := 0

/-- A store with the global environment, in which `clock` is bound. -/
def initial : Store where
  environments := #[⟨Table.empty.insert "clock" (.native 0), none⟩]
  natives := #[⟨"clock", 0, .clock⟩]

def environment (s : Store) (id : Nat) : Environment := s.environments[id]?.getD {}

def closure? (s : Store) (id : Nat) : Option Closure := s.functions[id]?

def class? (s : Store) (id : Nat) : Option Class := s.classes[id]?

def instance? (s : Store) (id : Nat) : Option Instance := s.instances[id]?

def native? (s : Store) (id : Nat) : Option Native := s.natives[id]?

/-! ## New objects -/

def newEnvironment (s : Store) (e : Environment) : Nat × Store :=
  (s.environments.size, { s with environments := s.environments.push e })

def newFunction (s : Store) (f : Closure) : Nat × Store :=
  (s.functions.size, { s with functions := s.functions.push f })

def newClass (s : Store) (c : Class) : Nat × Store :=
  (s.classes.size, { s with classes := s.classes.push c })

def newInstance (s : Store) (i : Instance) : Nat × Store :=
  (s.instances.size, { s with instances := s.instances.push i })

def newNative (s : Store) (n : Native) : Nat × Store :=
  (s.natives.size, { s with natives := s.natives.push n })

/-! ## Environments -/

/-- Binds a name in exactly this environment, new or not. -/
def define (s : Store) (env : Nat) (name : String) (value : Value) : Store :=
  { s with environments := s.environments.modify env fun e =>
      { e with bindings := e.bindings.insert name value } }

/-- The environment reached by going out `hops` times: `none` when that is just past the outermost
one, a fault beyond it. -/
def ancestor (s : Store) : (hops : Nat) → Option Nat → Except Fault (Option Nat)
  | 0, env => .ok env
  | _ + 1, none => .error .noEnvironment
  | hops + 1, some env => ancestor s hops (s.environment env).enclosing

/-- The environment exactly `hops` out. -/
def environmentAt (s : Store) (hops env : Nat) : Except Fault Nat :=
  match s.ancestor hops (some env) with
  | .error fault => .error fault
  | .ok none => .error .noEnvironment
  | .ok (some found) => .ok found

/-- The environment exactly `hops` out, which must bind the name. -/
def holderAt (s : Store) (hops env : Nat) (name : String) : Except Fault Nat :=
  match s.environmentAt hops env with
  | .error fault => .error fault
  | .ok found =>
    if (s.environment found).bindings.contains name then .ok found
    else .error (.unbound name)

/-- Reads a name in the environment exactly `hops` out. -/
def getAt (s : Store) (hops env : Nat) (name : String) : Except Fault Value :=
  match s.environmentAt hops env with
  | .error fault => .error fault
  | .ok found =>
    match (s.environment found).bindings.get? name with
    | some value => .ok value
    | none => .error (.unbound name)

/-- Sets a name that is bound in the environment exactly `hops` out. -/
def assignAt (s : Store) (hops env : Nat) (name : String) (value : Value) : Except Fault Store :=
  match s.holderAt hops env name with
  | .error fault => .error fault
  | .ok found => .ok (s.define found name value)

/-- The nearest environment that binds the name, within the given number of steps. -/
def findWithin (s : Store) (name : String) : (steps : Nat) → Nat → Option Nat
  | 0, _ => none
  | steps + 1, env =>
    if (s.environment env).bindings.contains name then some env
    else match (s.environment env).enclosing with
      | none => none
      | some outer => findWithin s name steps outer

/-- The nearest environment, going outward, that binds the name. -/
def find? (s : Store) (env : Nat) (name : String) : Option Nat :=
  s.findWithin name (s.environments.size + 1) env

/-- The nearest environment, going outward, which must bind the name. -/
def holder (s : Store) (env : Nat) (name : Token) : Except RuntimeError Nat :=
  match s.find? env name.lexeme with
  | some found => .ok found
  | none => .error ⟨name, .undefinedVariable name.lexeme⟩

/-- Reads the nearest binding of a name. -/
def get (s : Store) (env : Nat) (name : Token) : Except RuntimeError Value :=
  match (s.find? env name.lexeme).bind fun e => (s.environment e).bindings.get? name.lexeme with
  | some value => .ok value
  | none => .error ⟨name, .undefinedVariable name.lexeme⟩

/-- Sets the nearest binding of a name. -/
def assign (s : Store) (env : Nat) (name : Token) (value : Value) : Except RuntimeError Store :=
  match s.holder env name with
  | .ok found => .ok (s.define found name.lexeme value)
  | .error e => .error e

/-! ## Functions, classes and instances -/

/-- The function with `this` bound to a receiver, in an environment of its own. -/
def bind (s : Store) (f : Closure) (receiver : Value) : Nat × Store :=
  let (env, s) := s.newEnvironment ⟨Table.empty.insert "this" receiver, some f.environment⟩
  s.newFunction { f with environment := env }

/-- The method of the nearest class that has it, within the given number of steps. -/
def findMethodWithin (s : Store) (name : String) : (steps : Nat) → Nat → Option Nat
  | 0, _ => none
  | steps + 1, cls =>
    match s.class? cls with
    | none => none
    | some c =>
      match c.methods.get? name with
      | some method => some method
      | none =>
        match c.superclass with
        | none => none
        | some parent => findMethodWithin s name steps parent

/-- The method of that name in the class or the nearest of its superclasses that has one. -/
def findMethod? (s : Store) (cls : Nat) (name : String) : Option Nat :=
  s.findMethodWithin name (s.classes.size + 1) cls

/-- The closure of the method of that name. -/
def method? (s : Store) (cls : Nat) (name : String) : Option Closure :=
  (s.findMethod? cls name).bind s.closure?

/-- The number of arguments that a value takes, if it can be called. A class takes those of its
initializer, or none. -/
def arity? (s : Store) : Value → Except Fault (Option Nat)
  | .native id => .ok ((s.native? id).map (·.arity))
  | .function id =>
    match s.closure? id with
    | none => .ok none
    | some f => f.arity.map some
  | .cls id =>
    match s.method? id "init" with
    | none => .ok (some 0)
    | some f => f.arity.map some
  | _ => .ok none

def setField (s : Store) (inst : Nat) (name : String) (value : Value) : Store :=
  { s with instances := s.instances.modify inst fun i =>
      { i with fields := i.fields.insert name value } }

/-- A property is a field's value, or else a method to be bound to the instance. -/
def property (s : Store) (inst : Nat) (name : Token) : Except RuntimeError (Value ⊕ Closure) :=
  let i := (s.instance? inst).getD default
  match i.fields.get? name.lexeme with
  | some value => .ok (.inl value)
  | none =>
    match s.method? i.cls name.lexeme with
    | some f => .ok (.inr f)
    | none => .error ⟨name, .undefinedProperty name.lexeme⟩

/-! ## Text -/

def className (s : Store) (id : Nat) : String := ((s.class? id).map (·.name)).getD ""

/-- How a value is printed. -/
def stringify (s : Store) : Value → String
  | .nil => "nil"
  | .bool true => "true"
  | .bool false => "false"
  | .number x => x.text .printed
  | .string text => text
  | .native _ => "<native fn>"
  | .function id => "<fn " ++ ((s.closure? id).map (·.name)).getD "" ++ ">"
  | .cls id => s.className id
  | .inst id => s.className ((s.instance? id).getD default).cls ++ " instance"
  | .quoted q => q.text

/-- The bindings of an environment by name. -/
def bindings (s : Store) (env : Nat) : List (String × Value) := (s.environment env).bindings.sorted

end Store

end Lox
