import Lox.Scope

/-!
# Resolution

Resolution walks a tree in the order in which its names come to be known, fills in the distance of
every reference that has a binding in an open scope, and complains of what stands in the wrong
place. A block opens a scope; so does a function, for its parameters and body together; a class
opens one that holds `this`, inside one that holds `super` if it has a superclass.

A list in the place of a node is resolved item by item, other misfits bring it to a halt.
-/

namespace Lox

namespace Resolver

/-- `super` belongs in a class that has a superclass. -/
def checkSuper (keyword : Token) : Resolver Unit := do
  match (← get).inClass with
  | .none => complain keyword .superOutsideClass
  | .plain => complain keyword .superWithoutSuperclass
  | .subclass => return

/-- A superclass is named, and not as the class itself. -/
def checkSuperclass (name : Token) (parent : Node) : Resolver Unit := do
  match parent.name? with
  | none => halt .noMember
  | some parentName =>
    if name.isMissing || parentName.isMissing then halt .noMember
    if name.lexeme = parentName.lexeme then complain parentName .inheritsFromItself

/-- Parameters are declared and defined one after the other. -/
def parameters : List Token → Resolver Unit
  | [] => return
  | name :: rest => do
    declare name
    define name
    parameters rest

def thisScope : Scope := { names := Table.empty.insert "this" true }

def superScope : Scope := { names := Table.empty.insert "super" true }

def methodContext (name : Token) : FunctionContext :=
  if name.lexeme = "init" then .initializer else .method

mutual

def node : Node → Resolver Node
  | .assign target value => do
    let value ← node value
    return .assign (← locate target) value
  | .binary left operator right => do
    let left ← node left
    return .binary left operator (← node right)
  | .call callee paren values => do
    let callee ← node callee
    return .call callee paren (← arguments values)
  | .property object name => return .property (← node object) name
  | .group inner => return .group (← node inner)
  | .literal value => return .literal value
  | .logical left operator right => do
    let left ← node left
    return .logical left operator (← node right)
  | .setProperty object name value => do
    let value ← node value
    return .setProperty (← node object) name value
  | .superMethod keyword method => do
    checkSuper keyword.name
    return .superMethod (← locate keyword) method
  | .receiver keyword => do
    if (← get).inClass = .none then
      complain keyword.name .thisOutsideClass
      return .receiver keyword
    return .receiver (← locate keyword)
  | .unary operator right => return .unary operator (← node right)
  | .ident name => return .ident (← read name)
  | .block statements => return .block (← withScope {} (nodes statements))
  | .classDecl name none declarations => do
    declare name
    define name
    let declarations ← withClass .plain (withScope thisScope (methods declarations))
    return .classDecl name none declarations
  | .classDecl name (some parent) declarations => do
    declare name
    define name
    checkSuperclass name parent
    withClass .subclass do
      let parent ← node parent
      let declarations ← withScope superScope (withScope thisScope (methods declarations))
      return .classDecl name (some parent) declarations
  | .expression value => return .expression (← node value)
  | .function name params body => do
    declare name
    define name
    let body ← withFunction .function (withScope {} do
      parameters params
      nodes body)
    return .function name params body
  | .conditional condition thenBranch elseBranch => do
    let condition ← node condition
    let thenBranch ← node thenBranch
    return .conditional condition thenBranch (← nodeOption elseBranch)
  | .print value => return .print (← node value)
  | .returning keyword value => do
    let around := (← get).inFunction
    if around = .none then complain keyword .returnAtTopLevel
    if value.isSome ∧ around = .initializer then complain keyword .returnsFromInitializer
    return .returning keyword (← nodeOption value)
  | .varDecl name initializer => do
    declare name
    let initializer ← nodeOption initializer
    define name
    watch name
    return .varDecl name initializer
  | .loop condition body => do
    let condition ← node condition
    return .loop condition (← node body)
  | .misfit m => return .misfit (← misfit m)

def misfit : Misfit → Resolver Misfit
  | .list items => return .list (← nodes items)
  | .unlisted content => return .unlisted (← node content)
  | .function name params body => do
    declare name
    halt (.notIterable params.sort)
    return .function name params body
  | .quoted q => return .quoted q
  | .token t => do
    halt .noMember
    return .token t
  | .value v => do
    halt .noMember
    return .value v

def nodeOption : Option Node → Resolver (Option Node)
  | none => return none
  | some n => return some (← node n)

/-- The statements of a list. A list is none. -/
def nodes : List Node → Resolver (List Node)
  | [] => return []
  | .misfit (.list items) :: rest => do
    halt .noMember
    return .misfit (.list items) :: rest
  | n :: rest => do
    let n ← node n
    return n :: (← nodes rest)

def arguments : List Node → Resolver (List Node)
  | [] => return []
  | .misfit (.unlisted content) :: rest => do
    halt (.notIterable content.sort)
    return .misfit (.unlisted content) :: rest
  | n :: rest => do
    let n ← node n
    return n :: (← arguments rest)

def methods : List Node → Resolver (List Node)
  | [] => return []
  | .function name params body :: rest => do
    if name.isMissing then halt .noMember
    let body ← withFunction (methodContext name) (withScope {} do
      parameters params
      nodes body)
    return .function name params body :: (← methods rest)
  | .misfit (.unlisted content) :: rest => do
    halt (.notIterable content.sort)
    return .misfit (.unlisted content) :: rest
  | .misfit (.function name params body) :: rest => do
    if name.isMissing then halt .noMember
    halt (.notIterable params.sort)
    return .misfit (.function name params body) :: rest
  | n :: rest => do
    halt .noMember
    return n :: rest

end

end Resolver

/-- The nodes with their references resolved, from outside every scope, and the complaints. -/
def resolve (nodes : List Node) : List Node × List Complaint :=
  let reply := Resolver.nodes nodes {}
  (reply.value, reply.complaints)

end Lox
