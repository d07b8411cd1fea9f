import Lox.Token

/-!
# Faults

A fault is what comes of a tree or a store that is not as it should be. A program that was parsed
and resolved reaches one fault only: an assignment to a variable inside that variable's own
initializer finds no binding yet. Trees made by hand, or run without being resolved, reach the
others. The sort of a thing is what it is called in messages.
-/

namespace Lox

inductive Fault where
  /-- The environment at the recorded distance does not have the name. -/
  | unbound (name : String)
  /-- A `super` that was never resolved. -/
  | unresolvedSuper
  /-- There is no environment at the distance. -/
  | noEnvironment
  /-- Something lacks what is asked of it, as what is no token lacks a lexeme. -/
  | noMember
  /-- The items of what is no list were asked for, one by one. -/
  | notIterable (sort : String)
  /-- The items of what is no list were asked for, all at once. -/
  | notSpreadable (sort : String)
  /-- The number of items of what is no list was asked for. -/
  | noLength (sort : String)
  | unknownBinary (operator : TokenKind)
  | unknownUnary (operator : TokenKind)
  /-- What is no number was asked whether it is one. -/
  | notReal (sort : String)
  | noQuotient (left right : String)
deriving DecidableEq

/-- What is said of a fault, if anything is. -/
def Fault.message? : Fault → Option String
  | unbound name => some name
  | unresolvedSuper | noEnvironment | noMember => none
  | notIterable sort => some s!"'{sort}' object is not iterable"
  | notSpreadable sort => some s!"Value after * must be an iterable, not {sort}"
  | noLength sort => some s!"object of type '{sort}' has no len()"
  | unknownBinary operator => some ("Unknown binary operator " ++ operator.name)
  | unknownUnary operator => some ("Unknown unary operator " ++ operator.name)
  | notReal sort => some s!"must be real number, not {sort}"
  | noQuotient left right => some s!"unsupported operand type(s) for /: '{left}' and '{right}'"

/-- What messages call a value. -/
def Literal.sort : Literal → String
  | nil => "NoneType"
  | bool _ => "bool"
  | number _ => "float"
  | string _ => "str"

end Lox
