import Lox.Tree

/-!
# The resolved references of a tree

The nodes that refer to a binding in a scope, in the order in which resolution comes to them: the
value of an assignment before the assignment, and the value of a property's assignment before its
object.
-/

namespace Lox

/-- A node whose reference is resolved, its kind, the token of the reference and the distance. -/
structure Binding where
  kind : NodeKind
  node : Node
  token : Token
  hops : Nat

/-- The node, if the reference in it is resolved. -/
def Reference.bindings (reference : Reference) (kind : NodeKind) (node : Node) : List Binding :=
  match reference.hops with
  | none => []
  | some hops => [⟨kind, node, reference.name, hops⟩]

mutual

def Node.bindings : Node → List Binding
  | .assign target value => value.bindings ++ target.bindings .assign (.assign target value)
  | .binary left _ right => left.bindings ++ right.bindings
  | .call callee _ arguments => callee.bindings ++ Node.bindingsAll arguments
  | .property object _ => object.bindings
  | .group inner => inner.bindings
  | .literal _ => []
  | .logical left _ right => left.bindings ++ right.bindings
  | .setProperty object _ value => value.bindings ++ object.bindings
  | .superMethod keyword method => keyword.bindings .superMethod (.superMethod keyword method)
  | .receiver keyword => keyword.bindings .receiver (.receiver keyword)
  | .unary _ right => right.bindings
  | .ident name => name.bindings .ident (.ident name)
  | .block statements => Node.bindingsAll statements
  | .classDecl _ superclass methods =>
    Node.bindingsOption superclass ++ Node.bindingsAll methods
  | .expression value => value.bindings
  | .function _ _ body => Node.bindingsAll body
  | .conditional condition thenBranch elseBranch =>
    condition.bindings ++ thenBranch.bindings ++ Node.bindingsOption elseBranch
  | .print value => value.bindings
  | .returning _ value => Node.bindingsOption value
  | .varDecl _ initializer => Node.bindingsOption initializer
  | .loop condition body => condition.bindings ++ body.bindings
  | .misfit (.list items) => Node.bindingsAll items
  | .misfit (.unlisted content) => content.bindings
  | .misfit _ => []

def Node.bindingsAll : List Node → List Binding
  | [] => []
  | n :: rest => n.bindings ++ Node.bindingsAll rest

def Node.bindingsOption : Option Node → List Binding
  | none => []
  | some n => n.bindings

end

end Lox
