import Lox.Tree.Outline

/-!
# Trees made by hand

Every outline is a node. What stands in a field of an outline becomes what belongs there, as far
as that can be: a token in the place of a token, a list in the place of a list. What does not
belong is a `Misfit`, or a missing token. An optional part is absent when it is nil, false, zero,
an empty text or an empty list.

A text or a token in the place of a list counts as the list of its characters or of its four
parts, none of which is a node or a token.

A token or a list in the place of a value is a quotation that is equal to others of its form, in
which a truth value counts as one or zero and the two zeros are one. A node is equal only to
itself, and so is what has a node in it, or what is not a number.
-/

namespace Lox

/-! ## Quotations -/

/-- Whether a value differs even from its likes elsewhere. -/
def Literal.isUnique : Literal → Bool
  | number x => x.isNaN
  | _ => false

/-- What a value counts as when forms are compared. -/
def Literal.form : Literal → Literal
  | bool b => number (.ofNat b.toNat)
  | number x => number (if x.magnitude = 0 then .zero else x)
  | value => value

def Token.form (t : Token) : Token := { t with literal := t.literal.form }

namespace Outline

mutual

/-- Whether a piece of a tree differs even from its likes elsewhere. -/
def isUnique : Outline → Bool
  | .node _ _ => true
  | .list items => isUniqueAny items
  | .token t => t.literal.isUnique
  | .literal value => value.isUnique

def isUniqueAny : List Outline → Bool
  | [] => false
  | o :: rest => o.isUnique || isUniqueAny rest

end

mutual

def form : Outline → Outline
  | .node kind fields => .node kind (formAll fields)
  | .list items => .list (formAll items)
  | .token t => .token t.form
  | .literal value => .literal value.form

def formAll : List Outline → List Outline
  | [] => []
  | o :: rest => o.form :: formAll rest

end

/-- The text of a piece of a tree; a token has one of its own. -/
def text : Outline → String
  | .token t => t.text
  | o => o.described

/-- The quotation of a piece of a tree at the end of a path. -/
def quotation (path : List Nat) (o : Outline) : Quotation :=
  ⟨o.text, if o.isUnique then .place path else .form o.form.described⟩

/-! ## Places of other sorts than nodes -/

/-- What stands in the place of a token. -/
def toToken : Outline → Token
  | .token t => t
  | _ => .missing

/-- Whether an optional part is absent. -/
def isAbsent : Outline → Bool
  | .literal .nil => true
  | .literal (.bool b) => !b
  | .literal (.number x) => x.magnitude = 0
  | .literal (.string s) => s.isEmpty
  | .list items => items.isEmpty
  | _ => false

/-- The characters of a text where nodes belong. -/
def characters (s : String) : List Node :=
  s.toList.map fun c => .misfit (.value (.string (String.singleton c)))

/-- The parts of a token where nodes belong. -/
def tokenParts (t : Token) : List Node :=
  [.string t.kind.name, .string t.lexeme, t.literal, .nil].map fun v => .misfit (.value v)

/-- The parameters in the place of a list of tokens, if there is a list or what counts as one. -/
def parameters? : Outline → Option (List Token)
  | .list items => some (items.map toToken)
  | .literal (.string s) => some (List.replicate s.length .missing)
  | .token _ => some (List.replicate 4 .missing)
  | _ => none

/-! ## Nodes -/

mutual

/-- The node of an outline at the end of a path, which numbers the fields and items on the way,
the last step first. -/
def toNode (path : List Nat) : Outline → Node
  | .node kind fields => ofFields path kind fields
  | .list items => .misfit (.list (toNodes path 0 items))
  | .token t => .misfit (.token t)
  | .literal value => .misfit (.value value)

/-- The nodes of items, the first of which has the given number. -/
def toNodes (path : List Nat) (number : Nat) : List Outline → List Node
  | [] => []
  | o :: rest => o.toNode (number :: path) :: toNodes path (number + 1) rest

/-- What stands in the place of a list of nodes that is gone through item by item. -/
def items (path : List Nat) : Outline → List Node
  | .list items => toNodes path 0 items
  | .literal (.string s) => characters s
  | .token t => tokenParts t
  | .literal value => [.misfit (.unlisted (.misfit (.value value)))]
  | .node kind fields => [.misfit (.unlisted (ofFields path kind fields))]

/-- What stands in the place of a list of statements, which an empty text is not. -/
def statements (path : List Nat) : Outline → List Node
  | .list items => toNodes path 0 items
  | .literal (.string s) =>
    if s.isEmpty then [.misfit (.unlisted (.misfit (.value (.string s))))] else characters s
  | .token t => tokenParts t
  | .literal value => [.misfit (.unlisted (.misfit (.value value)))]
  | .node kind fields => [.misfit (.unlisted (ofFields path kind fields))]

def ofFields (path : List Nat) : NodeKind → List Outline → Node
  | .assign, [name, value] => .assign ⟨name.toToken, none⟩ (value.toNode (1 :: path))
  | .binary, [left, operator, right] =>
    .binary (left.toNode (0 :: path)) operator.toToken (right.toNode (2 :: path))
  | .call, [callee, paren, arguments] =>
    .call (callee.toNode (0 :: path)) paren.toToken (arguments.items (2 :: path))
  | .property, [object, name] => .property (object.toNode (0 :: path)) name.toToken
  | .group, [inner] => .group (inner.toNode (0 :: path))
  | .literal, [.literal value] => .literal value
  | .literal, [content] => .misfit (.quoted (content.quotation path))
  | .logical, [left, operator, right] =>
    .logical (left.toNode (0 :: path)) operator.toToken (right.toNode (2 :: path))
  | .setProperty, [object, name, value] =>
    .setProperty (object.toNode (0 :: path)) name.toToken (value.toNode (2 :: path))
  | .superMethod, [keyword, method] => .superMethod ⟨keyword.toToken, none⟩ method.toToken
  | .receiver, [keyword] => .receiver ⟨keyword.toToken, none⟩
  | .unary, [operator, right] => .unary operator.toToken (right.toNode (1 :: path))
  | .ident, [name] => .ident ⟨name.toToken, none⟩
  | .block, [content] => .block (content.statements (0 :: path))
  | .classDecl, [name, superclass, methods] =>
    .classDecl name.toToken
      (if superclass.isAbsent then none else some (superclass.toNode (1 :: path)))
      (methods.items (2 :: path))
  | .expression, [value] => .expression (value.toNode (0 :: path))
  | .function, [name, params, body] =>
    match params.parameters? with
    | some params => .function name.toToken params (body.statements (2 :: path))
    | none =>
      .misfit (.function name.toToken (params.toNode (1 :: path)) (body.statements (2 :: path)))
  | .conditional, [condition, thenBranch, elseBranch] =>
    .conditional (condition.toNode (0 :: path)) (thenBranch.toNode (1 :: path))
      (if elseBranch.isAbsent then none else some (elseBranch.toNode (2 :: path)))
  | .print, [value] => .print (value.toNode (0 :: path))
  | .returning, [keyword, value] =>
    .returning keyword.toToken (if value.isAbsent then none else some (value.toNode (1 :: path)))
  | .varDecl, [name, initializer] =>
    .varDecl name.toToken
      (if initializer.isAbsent then none else some (initializer.toNode (1 :: path)))
  | .loop, [condition, body] =>
    .loop (condition.toNode (0 :: path)) (body.toNode (1 :: path))
  | _, _ => .misfit (.value .nil)

end

end Outline

end Lox
