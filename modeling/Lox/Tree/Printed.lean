import Lox.Tree

/-!
# Trees as parenthesised text

Every node with parts is printed as a parenthesis that opens with its head and lists its parts,
split by single spaces. Names and operators are printed by their lexemes, literals as the language
writes them. What is no node has no text, and a tree that needs the text of such a thing cannot be
printed: `Node.printFault?` is the first fault on the way.
-/

namespace Lox

/-- A parenthesis with a head and the parts after it. -/
def parenthesis (head : String) (parts : List String) : String :=
  "(" ++ " ".intercalate (head :: parts) ++ ")"

def Literal.printed : Literal → String
  | nil => "nil"
  | bool true => "true"
  | bool false => "false"
  | number x => x.text .literal
  | string s => "\"" ++ s ++ "\""

mutual

def Node.printed : Node → String
  | .assign target value => parenthesis ("= " ++ target.name.lexeme) [value.printed]
  | .binary left operator right => parenthesis operator.lexeme [left.printed, right.printed]
  | .call callee _ arguments => parenthesis "call" (callee.printed :: Node.printedAll arguments)
  | .property object name => parenthesis (". " ++ name.lexeme) [object.printed]
  | .group inner => parenthesis "group" [inner.printed]
  | .literal value => value.printed
  | .logical left operator right => parenthesis operator.lexeme [left.printed, right.printed]
  | .setProperty object name value =>
    parenthesis ("= " ++ name.lexeme) [object.printed, value.printed]
  | .superMethod _ method => parenthesis "super" [method.lexeme]
  | .receiver _ => "this"
  | .unary operator right => parenthesis operator.lexeme [right.printed]
  | .ident name => name.name.lexeme
  | .block statements => parenthesis "block" (Node.printedAll statements)
  | .classDecl name none methods =>
    parenthesis "class" (name.lexeme :: Node.printedAll methods)
  | .classDecl name (some parent) methods =>
    parenthesis "class" (name.lexeme :: "<" :: parent.printed :: Node.printedAll methods)
  | .expression value => parenthesis ";" [value.printed]
  | .function name params body =>
    let head := "fun " ++ name.lexeme ++ " (" ++ " ".intercalate (params.map (·.lexeme)) ++ ")"
    parenthesis head (Node.printedAll body)
  | .conditional condition thenBranch none =>
    parenthesis "if" [condition.printed, thenBranch.printed]
  | .conditional condition thenBranch (some elseBranch) =>
    parenthesis "if-else" [condition.printed, thenBranch.printed, elseBranch.printed]
  | .print value => parenthesis "print" [value.printed]
  | .returning _ value => parenthesis "return" (Node.printedOption value)
  | .varDecl name initializer =>
    parenthesis ("var " ++ name.lexeme) (Node.printedOption initializer)
  | .loop condition body => parenthesis "while" [condition.printed, body.printed]
  | .misfit (.quoted q) => q.text
  | .misfit _ => ""

/-- The items of a list. What stands in the place of a list has none. -/
def Node.printedAll : List Node → List String
  | [] => []
  | n :: rest =>
    if n.isUnlisted then Node.printedAll rest else n.printed :: Node.printedAll rest

def Node.printedOption : Option Node → List String
  | none => []
  | some n => [n.printed]

end

/-! ## What cannot be printed -/

/-- A lexeme is asked for. -/
def Token.fault? (t : Token) : Option Fault := if t.isMissing then some .noMember else none

/-- The items of a list are asked for, one by one or all at once as `fault` says. -/
def Node.listFault? (fault : String → Fault) : List Node → Option Fault
  | [.misfit (.unlisted content)] => content.iterationFault? fault
  | _ => none

mutual

/-- The first fault that printing meets. -/
def Node.printFault? : Node → Option Fault
  | .assign target value => target.name.fault?.or value.printFault?
  | .binary left operator right =>
    operator.fault?.or (left.printFault?.or right.printFault?)
  | .call callee _ arguments =>
    (Node.listFault? .notSpreadable arguments).or
      (callee.printFault?.or (Node.printFaultAll? arguments))
  | .property object name => name.fault?.or object.printFault?
  | .group inner => inner.printFault?
  | .literal _ => none
  | .logical left operator right =>
    operator.fault?.or (left.printFault?.or right.printFault?)
  | .setProperty object name value => name.fault?.or (object.printFault?.or value.printFault?)
  | .superMethod _ method => method.fault?
  | .receiver _ => none
  | .unary operator right => operator.fault?.or right.printFault?
  | .ident name => name.name.fault?
  | .block statements =>
    (Node.listFault? .notSpreadable statements).or (Node.printFaultAll? statements)
  | .classDecl name superclass methods =>
    name.fault?.or ((Node.printFaultOption? superclass).or
      ((Node.listFault? .notIterable methods).or (Node.printFaultAll? methods)))
  | .expression value => value.printFault?
  | .function name params body =>
    (params.findSome? Token.fault?).or ((Node.listFault? .notIterable body).or
      ((Node.printFaultAll? body).or name.fault?))
  | .conditional condition thenBranch elseBranch =>
    condition.printFault?.or (thenBranch.printFault?.or (Node.printFaultOption? elseBranch))
  | .print value => value.printFault?
  | .returning _ value => Node.printFaultOption? value
  | .varDecl name initializer => name.fault?.or (Node.printFaultOption? initializer)
  | .loop condition body => condition.printFault?.or body.printFault?
  | .misfit (.quoted _) => none
  | .misfit (.unlisted _) => none
  | .misfit (.function _ params _) => params.iterationFault? .notIterable
  | .misfit _ => some .noMember

def Node.printFaultAll? : List Node → Option Fault
  | [] => none
  | n :: rest => n.printFault?.or (Node.printFaultAll? rest)

def Node.printFaultOption? : Option Node → Option Fault
  | none => none
  | some n => n.printFault?

end

/-- The text of a tree that may not have one. -/
def Node.printed? (n : Node) : Except Fault String :=
  match n.printFault? with
  | some fault => .error fault
  | none => .ok n.printed

end Lox
