/-!
# Kinds of nodes

A node of a tree is an expression or a statement. Its kind says which, and has a name and names
for the fields of such a node.
-/

namespace Lox

inductive Family where
  | expr
  | stmt
deriving DecidableEq

def Family.name : Family → String
  | expr => "Expr"
  | stmt => "Stmt"

inductive NodeKind where
  | assign | binary | call | property | group | literal | logical | setProperty | superMethod
  | receiver | unary | ident
  | block | classDecl | expression | function | conditional | print | returning | varDecl | loop
deriving DecidableEq

namespace NodeKind

/-- The kinds, expressions before statements. -/
def all : List NodeKind :=
  [assign, binary, call, property, group, literal, logical, setProperty, superMethod, receiver,
   unary, ident, block, classDecl, expression, function, conditional, print, returning, varDecl,
   loop]

def family : NodeKind → Family
  | block | classDecl | expression | function | conditional | print | returning | varDecl | loop =>
    .stmt
  | _ => .expr

def name : NodeKind → String
  | assign => "Assign"
  | binary => "Binary"
  | call => "Call"
  | property => "Get"
  | group => "Grouping"
  | literal => "Literal"
  | logical => "Logical"
  | setProperty => "Set"
  | superMethod => "Super"
  | receiver => "This"
  | unary => "Unary"
  | ident => "Variable"
  | block => "Block"
  | classDecl => "Class"
  | expression => "Expression"
  | function => "Function"
  | conditional => "If"
  | print => "Print"
  | returning => "Return"
  | varDecl => "Var"
  | loop => "While"

def fullName (kind : NodeKind) : String := kind.family.name ++ "." ++ kind.name

def fields : NodeKind → List String
  | assign => ["name", "value"]
  | binary => ["left", "operator", "right"]
  | call => ["callee", "paren", "arguments"]
  | property => ["object", "name"]
  | group => ["expression"]
  | literal => ["value"]
  | logical => ["left", "operator", "right"]
  | setProperty => ["object", "name", "value"]
  | superMethod => ["keyword", "method"]
  | receiver => ["keyword"]
  | unary => ["operator", "right"]
  | ident => ["name"]
  | block => ["statements"]
  | classDecl => ["name", "superclass", "methods"]
  | expression => ["expression"]
  | function => ["name", "params", "body"]
  | conditional => ["condition", "then_branch", "else_branch"]
  | print => ["expression"]
  | returning => ["keyword", "value"]
  | varDecl => ["name", "initializer"]
  | loop => ["condition", "body"]

def ofFullName? (name : String) : Option NodeKind := all.find? (·.fullName == name)

end NodeKind

end Lox
