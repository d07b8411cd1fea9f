import Lox.Text.Quoted
import Lox.Tree

/-!
# Outlines of trees

An `Outline` is a tree whose nodes are only kinds with as many fields as the kind names, whatever
stands in the fields. Every node has one, and it can be described in text field by field.
-/

namespace Lox

inductive Outline where
  | node (kind : NodeKind) (fields : List Outline)
  | list (items : List Outline)
  | token (t : Token)
  | literal (value : Literal)
deriving Inhabited

/-- A node was given another number of fields than its kind has. -/
structure FieldMismatch where
  kind : NodeKind
  given : Nat
deriving DecidableEq

def FieldMismatch.message (m : FieldMismatch) : String :=
  s!"{m.kind.name}.__init__() take {m.kind.fields.length} positional arguments " ++
    s!"but {m.given} were given"

/-- A node of the kind, if the fields are as many as it has. -/
def NodeKind.outline (kind : NodeKind) (fields : List Outline) : Except FieldMismatch Outline :=
  if fields.length = kind.fields.length then .ok (.node kind fields)
  else .error ⟨kind, fields.length⟩

/-! ## Descriptions -/

def Literal.described : Literal → String
  | string s => Text.quoted s
  | value => value.text

def Token.described (t : Token) : String :=
  "Token(type=" ++ Text.quoted t.kind.name ++ ", lexeme=" ++ Text.quoted t.lexeme ++
    ", literal=" ++ t.literal.described ++ s!", line={t.line})"

mutual

def Outline.described : Outline → String
  | .node kind fields =>
    let parts := (kind.fields.zip (Outline.describedAll fields)).map fun (name, text) =>
      name ++ "=" ++ text
    kind.fullName ++ "(" ++ ", ".intercalate parts ++ ")"
  | .list items => "[" ++ ", ".intercalate (Outline.describedAll items) ++ "]"
  | .token t => t.described
  | .literal value => value.described

def Outline.describedAll : List Outline → List String
  | [] => []
  | o :: rest => o.described :: Outline.describedAll rest

end

/-! ## Outlines of nodes -/

/-- The outline of a part that may be absent. -/
def Outline.orAbsent (part : Option Outline) : Outline := part.getD (.literal .nil)

/-- The outline of what stands in the place of a token. -/
def Token.outline (t : Token) : Outline := if t.isMissing then .literal .nil else .token t

mutual

def Node.outline : Node → Outline
  | .assign target value => .node .assign [target.name.outline, value.outline]
  | .binary left operator right => .node .binary [left.outline, operator.outline, right.outline]
  | .call callee paren arguments =>
    .node .call [callee.outline, paren.outline, .list (Node.outlineAll arguments)]
  | .property object name => .node .property [object.outline, name.outline]
  | .group inner => .node .group [inner.outline]
  | .literal value => .node .literal [.literal value]
  | .logical left operator right =>
    .node .logical [left.outline, operator.outline, right.outline]
  | .setProperty object name value =>
    .node .setProperty [object.outline, name.outline, value.outline]
  | .superMethod keyword method => .node .superMethod [keyword.name.outline, method.outline]
  | .receiver keyword => .node .receiver [keyword.name.outline]
  | .unary operator right => .node .unary [operator.outline, right.outline]
  | .ident name => .node .ident [name.name.outline]
  | .block statements => .node .block [.list (Node.outlineAll statements)]
  | .classDecl name superclass methods =>
    .node .classDecl
      [name.outline, .orAbsent (Node.outlineOption superclass), .list (Node.outlineAll methods)]
  | .expression value => .node .expression [value.outline]
  | .function name params body =>
    .node .function
      [name.outline, .list (params.map Token.outline), .list (Node.outlineAll body)]
  | .conditional condition thenBranch elseBranch =>
    .node .conditional
      [condition.outline, thenBranch.outline, .orAbsent (Node.outlineOption elseBranch)]
  | .print value => .node .print [value.outline]
  | .returning keyword value =>
    .node .returning [keyword.outline, .orAbsent (Node.outlineOption value)]
  | .varDecl name initializer =>
    .node .varDecl [name.outline, .orAbsent (Node.outlineOption initializer)]
  | .loop condition body => .node .loop [condition.outline, body.outline]
  | .misfit m => m.outline

def Misfit.outline : Misfit → Outline
  | .token t => .token t
  | .value v => .literal v
  | .list items => .list (Node.outlineAll items)
  | .unlisted content => content.outline
  | .function name params body =>
    .node .function [name.outline, params.outline, .list (Node.outlineAll body)]
  | .quoted q => .node .literal [.literal (.string q.text)]

def Node.outlineAll : List Node → List Outline
  | [] => []
  | n :: rest => n.outline :: Node.outlineAll rest

def Node.outlineOption : Option Node → Option Outline
  | none => none
  | some n => some n.outline

end

end Lox
