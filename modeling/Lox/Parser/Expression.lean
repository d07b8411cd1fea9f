import Lox.Parser.Basic

/-!
# The grammar of expressions

Assignment binds weakest and to the right. Below it are six tiers of binary operators that bind to
the left, then the unary operators, then calls and properties, then the primaries. Each rule that
enters another spends one level of depth.
-/

namespace Lox

/-- The tiers of binary operators, from the weakest. -/
inductive Tier where
  | or
  | and
  | equality
  | comparison
  | term
  | factor
deriving DecidableEq

namespace Tier

def operators : Tier → List TokenKind
  | or => [.orWord]
  | and => [.andWord]
  | equality => [.bangEqual, .equalEqual]
  | comparison => [.greater, .greaterEqual, .less, .lessEqual]
  | term => [.minus, .plus]
  | factor => [.slash, .star]

/-- The next stronger tier; the operands of the strongest are unary expressions. -/
def tighter? : Tier → Option Tier
  | or => some and
  | and => some equality
  | equality => some comparison
  | comparison => some term
  | term => some factor
  | factor => none

def node : Tier → Node → Token → Node → Node
  | or => .logical
  | and => .logical
  | _ => .binary

end Tier

namespace Parser

/-- The assignment to a target. What cannot be assigned to stays as it is, with a complaint. -/
def assignTo (target : Node) (equals : Token) (value : Node) : Parser Node :=
  match target with
  | .ident name => return .assign name value
  | .property object name => return .setProperty object name value
  | _ => do
    complain equals .invalidAssignmentTarget
    return target

/-- The kinds of token that a primary starts with; a number or a string stands for its literal. -/
def primaryKinds : List TokenKind :=
  [.falseWord, .trueWord, .nilWord, .number, .string, .superWord, .thisWord, .identifier,
   .leftParen]

mutual

def expression : (depth : Nat) → Parser Node
  | 0 => tooDeep
  | depth + 1 => do
    let target ← binary depth .or
    match ← accept? [.equal] with
    | none => return target
    | some equals => assignTo target equals (← expression depth)

def binary : (depth : Nat) → Tier → Parser Node
  | 0, _ => tooDeep
  | depth + 1, tier => do
    let operand := match tier.tighter? with
      | some tighter => binary depth tighter
      | none => unary depth
    let first ← operand
    loop (fun left => do
      match ← accept? tier.operators with
      | none => return .inr left
      | some operator => return .inl (tier.node left operator (← operand))) first

def unary : (depth : Nat) → Parser Node
  | 0 => tooDeep
  | depth + 1 => do
    match ← accept? [.bang, .minus] with
    | some operator => return .unary operator (← unary depth)
    | none => access depth

/-- Calls and properties, one after the other. -/
def access : (depth : Nat) → Parser Node
  | 0 => tooDeep
  | depth + 1 => do
    let first ← primary depth
    loop (fun object => do
      match ← accept? [.leftParen, .dot] with
      | none => return .inr object
      | some opening =>
        if opening.kind = .leftParen then
          let values ← arguments depth
          let paren ← expect .rightParen .expectArgumentsEnd
          return .inl (.call object paren values)
        else
          return .inl (.property object (← expect .identifier .expectPropertyName))) first

/-- The arguments of a call, up to the closing parenthesis. Too many are complained of and read. -/
def arguments : (depth : Nat) → Parser (List Node)
  | 0 => tooDeep
  | depth + 1 => do
    if ← check .rightParen then return []
    let first ← expression depth
    loop (fun values => do
      match ← accept? [.comma] with
      | none => return .inr values
      | some _ =>
        if maxArguments ≤ values.length then complain (← peek) .tooManyArguments
        return .inl (values ++ [← expression depth])) [first]

def primary : (depth : Nat) → Parser Node
  | 0 => tooDeep
  | depth + 1 => do
    match ← accept? primaryKinds with
    | none => fail .expectExpression
    | some token =>
      match token.kind with
      | .falseWord => return .literal (.bool false)
      | .trueWord => return .literal (.bool true)
      | .nilWord => return .literal .nil
      | .superWord =>
        let _ ← expect .dot .expectSuperDot
        return .superMethod ⟨token, none⟩ (← expect .identifier .expectSuperMethod)
      | .thisWord => return .receiver ⟨token, none⟩
      | .identifier => return .ident ⟨token, none⟩
      | .leftParen =>
        let inner ← expression depth
        let _ ← expect .rightParen .expectGroupEnd
        return .group inner
      | _ => return .literal token.literal

end

end Parser

end Lox
