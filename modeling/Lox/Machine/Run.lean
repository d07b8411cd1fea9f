import Lox.Machine.Operator

/-!
# Running

Nodes and calls, each with a bound on how deep they may be nested below it; a bound of zero leaves
the computation exhausted. Loops do not nest, and have a bound of their own on their turns. Both
are defined by recursion on the depth alone.

Every node has a value. That of a statement is nil.
-/

namespace Lox

namespace Eval

/-- A variable that is a statement's whole expression must have a value. -/
def checkInitialized : Node → Value → Eval Unit
  | .ident reference, .nil =>
    fail reference.name (.uninitializedVariable reference.name.lexeme)
  | _, _ => return

/-- Binds a function to its name. -/
def declareFunction (name : Token) (declaration : Node) : Eval Unit := do
  let environment := (← get).environment
  let id ← alloc (·.newFunction ⟨declaration, environment, false⟩)
  define name (.function id)

/-- The class in the place of a superclass. -/
def superclass (parent : Node) : Value → Eval Nat
  | .cls id => return id
  | _ =>
    match parent.name? with
    | some name => fail name .superclassNotClass
    | none => fault .noMember

/-- The environment of a class's methods: the current one, or one in it that holds `super`. -/
def methodEnvironment : Option Nat → Eval Nat
  | none => return (← get).environment
  | some parent => do
    let outer := (← get).environment
    alloc (·.newEnvironment ⟨Table.empty.insert "super" (.cls parent), some outer⟩)

/-- The name of a method. -/
def methodName : Node → Eval String
  | .misfit (.unlisted content) => fault (.notIterable content.sort)
  | declaration =>
    match declaration.name? with
    | some name => do
      checkToken name
      return name.lexeme
    | none => fault .noMember

/-- The methods of a class; of two with one name the later stands. -/
def makeMethods (environment : Nat) : List Node → Table Nat → Eval (Table Nat)
  | [], table => return table
  | declaration :: rest, table => do
    let name ← methodName declaration
    let id ← alloc (·.newFunction ⟨declaration, environment, name = "init"⟩)
    makeMethods environment rest (table.insert name id)

/-- A class is bound to its name before its methods are made, and becomes its value after. The
methods are made inside their environment, and a fault among them leaves the machine there. -/
def declareClass (name : Token) (parent : Option Nat) (methods : List Node) : Eval Unit := do
  define name .nil
  let outer := (← get).environment
  let inner ← methodEnvironment parent
  enter inner
  let methods ← makeMethods inner methods .empty
  enter outer
  let id ← alloc (·.newClass ⟨name.lexeme, parent, methods⟩)
  assignNearest name (.cls id)

/-- A method of the superclass, bound to the receiver, which is one environment further in. -/
def superMethod (mode : Mode) (keyword : Reference) (method : Token) : Eval Value := do
  match mode.hops keyword with
  | none => fault .unresolvedSuper
  | some hops =>
    let parent ← getAt hops "super"
    let receiver ← getAt (hops - 1) "this"
    match parent with
    | .cls id =>
      checkToken method
      match (← get).store.method? id method.lexeme with
      | some f => return .function (← alloc (·.bind f receiver))
      | none => fail method (.undefinedProperty method.lexeme)
    | _ => fault .noMember

def callNative (n : Native) (arguments : List Value) : Eval Value := do
  match n.result with
  | .clock => return .number (← readClock)
  | .argumentCount => return .number (.ofNat arguments.length)

/-- The bindings of parameters to arguments, one to one as far as both go. -/
def parameterTable (params : List Token) (arguments : List Value) : Eval (Table Value) := do
  let pairs := params.zip arguments
  if pairs.any fun (param, _) => param.isMissing then fault .noMember
  return .ofList (pairs.map fun (param, argument) => (param.lexeme, argument))

/-- What stands in the place of a node, or in a place of its own. -/
def misfit : Misfit → Eval Value
  | .quoted q => return .quoted q
  | .function name params body => do
    declareFunction name (.misfit (.function name params body))
    return .nil
  | .unlisted content =>
    match content.iterationFault? .notIterable with
    | some f => fault f
    | none => return .nil
  | _ => fault .noMember

variable (mode : Mode)

mutual

def eval : (depth : Nat) → Node → Eval Value
  | 0, _ => throw .exhausted
  | _ + 1, .literal value => return .ofLiteral value
  | depth + 1, .group inner => eval depth inner
  | _ + 1, .ident reference => lookup mode reference
  | _ + 1, .receiver keyword => lookup mode keyword
  | _ + 1, .superMethod keyword method => superMethod mode keyword method
  | depth + 1, .assign target value => do
    let value ← eval depth value
    assign mode target value
    return value
  | depth + 1, .unary operator right => do
    ofExcept (Operator.unary operator (← eval depth right))
  | depth + 1, .binary left operator right => do
    let left ← eval depth left
    let right ← eval depth right
    ofExcept (Operator.binary operator left right)
  | depth + 1, .logical left operator right => do
    let left ← eval depth left
    checkToken operator
    if left.isTruthy = (operator.kind = .orWord) then return left
    eval depth right
  | depth + 1, .call callee paren arguments => do
    let callee ← eval depth callee
    let arguments ← arguments.mapM (eval depth)
    match (← get).store.arity? callee with
    | .error f => fault f
    | .ok none => fail paren .notCallable
    | .ok (some arity) =>
      if arguments.length ≠ arity then fail paren (.wrongArity arity arguments.length)
      call depth callee arguments
  | depth + 1, .property object name => do
    match ← eval depth object with
    | .inst id => getProperty id name
    | _ => fail name .noProperties
  | depth + 1, .setProperty object name value => do
    match ← eval depth object with
    | .inst id =>
      let value ← eval depth value
      setProperty id name value
      return value
    | _ => fail name .noFields
  | depth + 1, .block statements => do
    let outer := (← get).environment
    let inner ← alloc (·.newEnvironment ⟨.empty, some outer⟩)
    within inner (inOrder (eval depth) statements)
    return .nil
  | _ + 1, .classDecl name none methods => do
    declareClass name none methods
    return .nil
  | depth + 1, .classDecl name (some parent) methods => do
    let id ← superclass parent (← eval depth parent)
    declareClass name (some id) methods
    return .nil
  | depth + 1, .expression value => do
    checkInitialized value (← eval depth value)
    return .nil
  | _ + 1, .function name params body => do
    declareFunction name (.function name params body)
    return .nil
  | depth + 1, .conditional condition thenBranch elseBranch => do
    if (← eval depth condition).isTruthy then
      let _ ← eval depth thenBranch
    else if let some elseBranch := elseBranch then
      let _ ← eval depth elseBranch
    return .nil
  | depth + 1, .print value => do
    let result ← eval depth value
    checkInitialized value result
    print ((← get).store.stringify result)
    return .nil
  | _ + 1, .returning _ none => throw (.returning .nil)
  | depth + 1, .returning _ (some value) => do
    throw (.returning (← eval depth value))
  | _ + 1, .varDecl name none => do
    define name .nil
    return .nil
  | depth + 1, .varDecl name (some initializer) => do
    define name (← eval depth initializer)
    return .nil
  | depth + 1, .loop condition body => do
    repeatWhile (eval depth condition) (eval depth body) mode.turns
    return .nil
  | _ + 1, .misfit m => misfit m

/-- Calls a value with arguments, as many as they are. A function runs in an environment of its own;
an initializer gives back its receiver. A class makes an instance and runs its initializer on it. -/
def call : (depth : Nat) → Value → List Value → Eval Value
  | 0, _, _ => throw .exhausted
  | depth + 1, .function id, arguments => do
    match (← get).store.closure? id with
    | none => fault .noMember
    | some f =>
      let params ← ofExcept (f.declaration.parameters.mapError .fault)
      let table ← parameterTable params arguments
      let inner ← alloc (·.newEnvironment ⟨table, some f.environment⟩)
      let result ← catchReturn (within inner do
        inOrder (eval depth) f.declaration.body
        return .nil)
      if f.isInitializer then within f.environment (getAt 0 "this") else return result
  | depth + 1, .cls id, arguments => do
    let instId ← alloc (·.newInstance ⟨id, .empty⟩)
    match (← get).store.method? id "init" with
    | none => return .inst instId
    | some f =>
      let bound ← alloc (·.bind f (.inst instId))
      let _ ← call depth (.function bound) arguments
      return .inst instId
  | _ + 1, .native id, arguments => do
    match (← get).store.native? id with
    | none => fault .noMember
    | some n => callNative n arguments
  | _ + 1, _, _ => fault .noMember

end

end Eval

end Lox
