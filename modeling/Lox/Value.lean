import Lox.Token
import Lox.Tree.Quotation

/-!
# Values

A value is nil, a truth value, a number, a text, or an object of the store by its index. Objects
are equal only to themselves, which their indices decide. A tree made by hand can also have
quotations as values.
-/

namespace Lox

inductive Value where
  | nil
  | bool (b : Bool)
  | number (x : Number)
  | string (s : String)
  | native (id : Nat)
  | function (id : Nat)
  | cls (id : Nat)
  | inst (id : Nat)
  | quoted (q : Quotation)
deriving DecidableEq, Inhabited

namespace Value

def ofLiteral : Literal → Value
  | .nil => nil
  | .bool b => bool b
  | .number x => number x
  | .string s => string s

/-- Nil and false are false, all else is true. -/
def isTruthy : Value → Bool
  | nil => false
  | bool b => b
  | _ => true

def isNumber : Value → Bool
  | number _ => true
  | _ => false

/-- Nil equals nothing, not even itself. Numbers are compared by `Number.same`, quotations by their
identity. -/
def isEqual : Value → Value → Bool
  | nil, _ => false
  | number x, number y => x.same y
  | quoted p, quoted q => p.identity == q.identity
  | a, b => a == b

end Value

end Lox
