import Lox.Machine.Run

/-!
# Objects by themselves

Functions, classes and instances that are made, bound, called and asked outside of any program.
Here anything may stand in the place of a class. What stands there has no methods, so that looking
for one in it is a fault, and unless it has a name its instances have no text.
-/

namespace Lox

structure Objects where
  machine : Machine
  /-- The classes above which there is something that is no class. -/
  baseless : List Nat := []
  /-- The classes that stand for something without a name. -/
  nameless : List Nat := []

namespace Objects

inductive Step where
  | native (name : String) (arity : Nat)
  | function (f : Closure)
  /-- A class; nil in the place of its superclass is none. -/
  | cls (name : String) (superclass : Value) (methods : List Closure)
  /-- An instance on which no initializer is run. -/
  | inst (cls : Value)
  | findMethod (subject : Value) (name : String)
  | arity (subject : Value)
  | bind (subject receiver : Value)
  | call (subject : Value) (arguments : List Value)
  | get (subject : Value) (name : Token)
  | set (subject : Value) (name : Token) (value : Value)
  | equal (left right : Value)

inductive Answer where
  | value (v : Value)
  | arity (n : Nat)
deriving DecidableEq

/-- The class and those above it, within the given number of steps. -/
def ancestry (s : Store) : (steps : Nat) → Nat → List Nat
  | 0, _ => []
  | steps + 1, cls =>
    match (s.class? cls).bind (·.superclass) with
    | none => [cls]
    | some parent => cls :: ancestry s steps parent

/-- The method of that name, if looking for it does not leave the classes. -/
def findMethod (o : Objects) (cls : Nat) (name : String) : Except Fault (Option Nat) :=
  let s := o.machine.store
  match s.findMethod? cls name with
  | some method => .ok (some method)
  | none =>
    if (ancestry s (s.classes.size + 1) cls).any o.baseless.contains then .error .noMember
    else .ok none

/-- Looks for a method whose finding or missing the computation after it relies on. -/
def checkMethod (o : Objects) (cls : Nat) (name : String) : Eval Unit :=
  Eval.ofExcept (((o.findMethod cls name).map fun _ => ()).mapError .fault)

/-- Why a value has no text. -/
def textFault? (o : Objects) : Value → Option Fault
  | .inst id =>
    match o.machine.store.instance? id with
    | none => none
    | some i => if o.nameless.contains i.cls then some .noMember else none
  | _ => none

/-- What a step computes that needs no class and makes none. -/
def compute (o : Objects) (mode : Mode) (depth : Nat) : Step → Eval Answer
  | .native name arity =>
    return .value (.native (← Eval.alloc (·.newNative ⟨name, arity, .argumentCount⟩)))
  | .function f => return .value (.function (← Eval.alloc (·.newFunction f)))
  | .findMethod (.cls id) name => do
    match ← Eval.ofExcept ((o.findMethod id name).mapError .fault) with
    | some method => return .value (.function method)
    | none => return .value .nil
  | .arity subject => do
    if let .cls id := subject then o.checkMethod id "init"
    match ← Eval.ofExcept ((o.machine.store.arity? subject).mapError .fault) with
    | some n => return .arity n
    | none => Eval.fault .noMember
  | .bind (.function id) receiver => do
    match o.machine.store.closure? id with
    | some f => return .value (.function (← Eval.alloc (·.bind f receiver)))
    | none => Eval.fault .noMember
  | .call subject arguments => do
    if let .cls id := subject then o.checkMethod id "init"
    return .value (← Eval.call mode depth subject arguments)
  | .get (.inst id) name => do
    let i := (o.machine.store.instance? id).getD default
    if !i.fields.contains name.lexeme then o.checkMethod i.cls name.lexeme
    return .value (← Eval.getProperty id name)
  | .set (.inst id) name value => do
    Eval.setProperty id name value
    return .value .nil
  | .equal left right => return .value (.bool (left.isEqual right))
  | _ => Eval.fault .noMember

/-- The name of what stands in the place of a class. -/
def standInName? (s : Store) : Value → Option String
  | .native id => (s.native? id).map (·.name)
  | _ => none

/-- A class that stands for something that is none. -/
def standIn (o : Objects) (subject : Value) : Objects × Nat :=
  let name? := standInName? o.machine.store subject
  let (id, store) := o.machine.store.newClass ⟨name?.getD "", none, .empty⟩
  let nameless := if name?.isNone then id :: o.nameless else o.nameless
  ({ machine := { o.machine with store }, baseless := id :: o.baseless, nameless }, id)

def newInstance (o : Objects) (cls : Nat) : Objects × Value :=
  let (id, store) := o.machine.store.newInstance ⟨cls, .empty⟩
  ({ o with machine := { o.machine with store } }, .inst id)

def newClass (o : Objects) (name : String) (superclass : Value) (methods : List Closure) :
    Objects × Value :=
  let (functions, store) := methods.foldl (fun (table, store) f =>
    let (id, store) := store.newFunction f
    (table.insert f.name id, store)) (Table.empty, o.machine.store)
  let (parent, isBase) := match superclass with
    | .cls parent => (some parent, true)
    | .nil => (none, true)
    | _ => (none, false)
  let (id, store) := store.newClass ⟨name, parent, functions⟩
  let baseless := if isBase then o.baseless else id :: o.baseless
  ({ o with machine := { o.machine with store }, baseless }, .cls id)

def perform (o : Objects) (mode : Mode) (depth : Nat) : Step → Objects × Except Signal Answer
  | .cls name superclass methods =>
    let (o, value) := o.newClass name superclass methods
    (o, .ok (.value value))
  | .inst (.cls id) =>
    let (o, value) := o.newInstance id
    (o, .ok (.value value))
  | .inst subject =>
    let (o, id) := o.standIn subject
    let (o, value) := o.newInstance id
    (o, .ok (.value value))
  | step =>
    match o.compute mode depth step o.machine with
    | .ok answer machine => ({ o with machine }, .ok answer)
    | .error signal machine => ({ o with machine }, .error signal)

end Objects

end Lox
