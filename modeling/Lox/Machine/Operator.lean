import Lox.Machine

/-!
# Operators

What the operators do with the values of their operands. Comparison and arithmetic take numbers;
addition also joins texts, and a number and a text; equality takes anything.
-/

namespace Lox

namespace Operator

/-- The operands must be numbers. -/
def checkNumbers (operator : Token) (operands : List Value) : Except RuntimeError Unit :=
  if operands.all Value.isNumber then .ok ()
  else if operands.length = 1 then .error ⟨operator, .operandNotNumber⟩
  else .error ⟨operator, .operandsNotNumbers⟩

/-- The sum of two numbers, or two operands joined as text of which one is a text and the other a
text or a number. -/
def add (operator : Token) : Value → Value → Except RuntimeError Value
  | .number x, .number y => .ok (.number (x.add y))
  | .string s, .string t => .ok (.string (s ++ t))
  | .number x, .string t => .ok (.string (x.text .printed ++ t))
  | .string s, .number y => .ok (.string (s ++ y.text .printed))
  | _, _ => .error ⟨operator, .operandsNotAddable⟩

/-- The number that a literal counts as in a quotient. A truth value is one or zero. -/
def counted? : Literal → Option Number
  | .number x => some x
  | .bool b => some (.ofNat b.toNat)
  | _ => none

/-- The quotient of any two literals that count as numbers. Before a division by zero the dividend
is asked whether it is a number. -/
def quotient (left right : Literal) : Except Fault Number :=
  match counted? left, counted? right with
  | some x, some y => .ok (x.div y)
  | none, some y =>
    if y.magnitude = 0 then .error (.notReal left.sort)
    else .error (.noQuotient left.sort right.sort)
  | _, none => .error (.noQuotient left.sort right.sort)

def ofNumbers (operator : Token) (f : Number → Number → Value) :
    Value → Value → Except Signal Value
  | .number x, .number y => .ok (f x y)
  | _, _ => .error (.error ⟨operator, .operandsNotNumbers⟩)

def binary (operator : Token) (left right : Value) : Except Signal Value :=
  let numbers (f : Number → Number → Value) := ofNumbers operator f left right
  match operator.kind with
  | .bangEqual => .ok (.bool !left.isEqual right)
  | .equalEqual => .ok (.bool (left.isEqual right))
  | .greater => numbers fun x y => .bool (y.lt x)
  | .greaterEqual => numbers fun x y => .bool (y.le x)
  | .less => numbers fun x y => .bool (x.lt y)
  | .lessEqual => numbers fun x y => .bool (x.le y)
  | .minus => numbers fun x y => .number (x.sub y)
  | .plus => (add operator left right).mapError .error
  | .slash => numbers fun x y => .number (x.div y)
  | .star => numbers fun x y => .number (x.mul y)
  | .missing => .error (.fault .noMember)
  | kind => .error (.fault (.unknownBinary kind))

def unary (operator : Token) (right : Value) : Except Signal Value :=
  match operator.kind with
  | .bang => .ok (.bool !right.isTruthy)
  | .minus =>
    match right with
    | .number x => .ok (.number x.neg)
    | _ => .error (.error ⟨operator, .operandNotNumber⟩)
  | .missing => .error (.fault .noMember)
  | kind => .error (.fault (.unknownUnary kind))

end Operator

end Lox
