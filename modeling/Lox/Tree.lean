import Lox.Fault
import Lox.Tree.Kind
import Lox.Tree.Quotation

/-!
# Syntax trees

The nodes of Lox trees, expressions and statements. Each place that mentions a binding is a
`Reference`, a token together with the number of scopes between the place and the binding; a
reference without that number is to the globals. A tree fresh from its tokens has no such numbers,
resolution puts them in.

A tree made by hand may have any node in the place of any other. It may even have something that
is no node there: a `Misfit`. The trees that parsing makes have none.
-/

namespace Lox

/-- A mention of a name, and how many scopes out its binding is. -/
structure Reference where
  name : Token
  /-- The distance that resolution found. It stands for the entry of this place in a table of
  distances that all sources share. Every source has nodes of its own, a node is in one place of one
  tree, and resolution comes by it once before it is run, so that no other entry is ever the one
  that is read here. -/
  hops : Option Nat := none
deriving DecidableEq, Inhabited

mutual

inductive Node where
  | assign (target : Reference) (value : Node)
  | binary (left : Node) (operator : Token) (right : Node)
  | call (callee : Node) (paren : Token) (arguments : List Node)
  | property (object : Node) (name : Token)
  | group (inner : Node)
  | literal (value : Literal)
  | logical (left : Node) (operator : Token) (right : Node)
  | setProperty (object : Node) (name : Token) (value : Node)
  | superMethod (keyword : Reference) (method : Token)
  | receiver (keyword : Reference)
  | unary (operator : Token) (right : Node)
  | ident (name : Reference)
  | block (statements : List Node)
  | classDecl (name : Token) (superclass : Option Node) (methods : List Node)
  | expression (value : Node)
  | function (name : Token) (params : List Token) (body : List Node)
  | conditional (condition thenBranch : Node) (elseBranch : Option Node)
  | print (value : Node)
  | returning (keyword : Token) (value : Option Node)
  | varDecl (name : Token) (initializer : Option Node)
  | loop (condition body : Node)
  | misfit (m : Misfit)

inductive Misfit where
  /-- A token in the place of a node. -/
  | token (t : Token)
  /-- A value in the place of a node. -/
  | value (v : Literal)
  /-- A list in the place of a node. -/
  | list (items : List Node)
  /-- Something in the place of a list, which holds only this. -/
  | unlisted (content : Node)
  /-- A function with something in the place of the list of its parameters. -/
  | function (name : Token) (params : Node) (body : List Node)
  /-- A literal with a piece of a tree in the place of its value. -/
  | quoted (q : Quotation)

end

instance : Inhabited Node := ⟨.block []⟩

namespace Node

/-- The kind of a node; tokens, values and lists have none. -/
def kind? : Node → Option NodeKind
  | assign .. => some .assign
  | binary .. => some .binary
  | call .. => some .call
  | property .. => some .property
  | group .. => some .group
  | literal .. => some .literal
  | logical .. => some .logical
  | setProperty .. => some .setProperty
  | superMethod .. => some .superMethod
  | receiver .. => some .receiver
  | unary .. => some .unary
  | ident .. => some .ident
  | block .. => some .block
  | classDecl .. => some .classDecl
  | expression .. => some .expression
  | function .. => some .function
  | conditional .. => some .conditional
  | print .. => some .print
  | returning .. => some .returning
  | varDecl .. => some .varDecl
  | loop .. => some .loop
  | misfit (.function ..) => some .function
  | misfit (.quoted ..) => some .literal
  | misfit _ => none

/-- The name of a node that has one. -/
def name? : Node → Option Token
  | assign target _ => some target.name
  | property _ name => some name
  | setProperty _ name _ => some name
  | ident name => some name.name
  | classDecl name _ _ => some name
  | function name _ _ => some name
  | varDecl name _ => some name
  | misfit (.function name _ _) => some name
  | _ => none

/-- What messages call a node, or what stands in its place. -/
def sort : Node → String
  | misfit (.value v) => v.sort
  | misfit (.token _) => "Token"
  | misfit (.list _) => "list"
  | n => (n.kind?.map NodeKind.name).getD ""

/-- The parameters of a function. -/
def parameters : Node → Except Fault (List Token)
  | function _ params _ => .ok params
  | misfit (.function _ params _) => .error (.noLength params.sort)
  | _ => .error .noMember

/-- The statements of a function. -/
def body : Node → List Node
  | function _ _ body => body
  | misfit (.function _ _ body) => body
  | _ => []

def isUnlisted : Node → Bool
  | misfit (.unlisted _) => true
  | _ => false

/-- What comes of going through the items of something that is no list. An empty text has none. -/
def iterationFault? (content : Node) (fault : String → Fault) : Option Fault :=
  match content with
  | misfit (.value (.string "")) => none
  | content => some (fault content.sort)

end Node

/-! ## Nesting -/

mutual

/-- The number of nodes on the longest way down from a node. -/
def Node.nesting : Node → Nat
  | .assign _ value => value.nesting + 1
  | .binary left _ right => max left.nesting right.nesting + 1
  | .call callee _ arguments => max callee.nesting (Node.nestingAll arguments) + 1
  | .property object _ => object.nesting + 1
  | .group inner => inner.nesting + 1
  | .literal _ => 1
  | .logical left _ right => max left.nesting right.nesting + 1
  | .setProperty object _ value => max object.nesting value.nesting + 1
  | .superMethod _ _ => 1
  | .receiver _ => 1
  | .unary _ right => right.nesting + 1
  | .ident _ => 1
  | .block statements => Node.nestingAll statements + 1
  | .classDecl _ superclass methods =>
    max (Node.nestingOption superclass) (Node.nestingAll methods) + 1
  | .expression value => value.nesting + 1
  | .function _ _ body => Node.nestingAll body + 1
  | .conditional condition thenBranch elseBranch =>
    max condition.nesting (max thenBranch.nesting (Node.nestingOption elseBranch)) + 1
  | .print value => value.nesting + 1
  | .returning _ value => Node.nestingOption value + 1
  | .varDecl _ initializer => Node.nestingOption initializer + 1
  | .loop condition body => max condition.nesting body.nesting + 1
  | .misfit m => m.nesting

def Misfit.nesting : Misfit → Nat
  | .token _ => 1
  | .value _ => 1
  | .list items => Node.nestingAll items + 1
  | .unlisted content => content.nesting
  | .function _ params body => max params.nesting (Node.nestingAll body) + 1
  | .quoted _ => 1

def Node.nestingAll : List Node → Nat
  | [] => 0
  | n :: rest => max n.nesting (Node.nestingAll rest)

def Node.nestingOption : Option Node → Nat
  | none => 0
  | some n => n.nesting

end

end Lox
