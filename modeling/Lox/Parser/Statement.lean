import Lox.Parser.Expression

/-!
# The grammar of statements and programs

A program is a sequence of declarations up to the end of the source. A declaration that fails is
given up, with its complaint, and reading resumes at the next boundary. A `for` loop is read as
the `while` loop it stands for.
-/

namespace Lox

/-- A `for` loop as a `while` loop: the increment ends each turn, an absent condition is true, and
the initializer comes first, in a block of its own. -/
def Node.forLoop (initializer condition increment : Option Node) (body : Node) : Node :=
  let body := match increment with
    | none => body
    | some increment => .block [body, .expression increment]
  let loop := Node.loop (condition.getD (.literal (.bool true))) body
  match initializer with
  | none => loop
  | some initializer => .block [initializer, loop]

namespace Parser

/-- An expression, unless the next token is of the kind. -/
def expressionUnless (kind : TokenKind) (depth : Nat) : Parser (Option Node) := do
  if ← check kind then return none
  return some (← expression depth)

def expressionStatement (depth : Nat) : Parser Node := do
  let value ← expression depth
  let _ ← expect .semicolon .expectExpressionEnd
  return .expression value

def printStatement (depth : Nat) : Parser Node := do
  let value ← expression depth
  let _ ← expect .semicolon .expectPrintEnd
  return .print value

def returnStatement (keyword : Token) (depth : Nat) : Parser Node := do
  let value ← expressionUnless .semicolon depth
  let _ ← expect .semicolon .expectReturnEnd
  return .returning keyword value

def varDeclaration (depth : Nat) : Parser Node := do
  let name ← expect .identifier .expectVariableName
  let initializer ← match ← accept? [.equal] with
    | none => Pure.pure none
    | some _ => some <$> expression depth
  let _ ← expect .semicolon .expectVariableEnd
  return .varDecl name initializer

/-- What a `for` loop starts with. -/
def forInitializer (depth : Nat) : Parser (Option Node) := do
  match ← accept? [.semicolon, .varWord] with
  | none => some <$> expressionStatement depth
  | some token => if token.kind = .semicolon then return none else some <$> varDeclaration depth

/-- The parameters of a function, up to the closing parenthesis. Too many are complained of and
read. -/
def parameters : Parser (List Token) := do
  if ← check .rightParen then return []
  let first ← expect .identifier .expectParameterName
  loop (fun names => do
    match ← accept? [.comma] with
    | none => return .inr names
    | some _ =>
      if maxArguments ≤ names.length then complain (← peek) .tooManyParameters
      return .inl (names ++ [← expect .identifier .expectParameterName])) [first]

def superclass : Parser (Option Node) := do
  match ← accept? [.less] with
  | none => return none
  | some _ => return some (.ident ⟨← expect .identifier .expectSuperclassName, none⟩)

mutual

/-- A declaration or statement, or `none` if it was given up. -/
def declaration : (depth : Nat) → Parser (Option Node)
  | 0 => tooDeep
  | depth + 1 => recover do
    match ← accept? [.classWord, .funWord, .varWord] with
    | none => statement depth
    | some token =>
      match token.kind with
      | .classWord => classDeclaration depth
      | .funWord => function .function depth
      | _ => varDeclaration depth

def classDeclaration : (depth : Nat) → Parser Node
  | 0 => tooDeep
  | depth + 1 => do
    let name ← expect .identifier .expectClassName
    let parent ← superclass
    let _ ← expect .leftBrace .expectClassBody
    let methods ← loop (fun methods => do
      let token ← peek
      if token.kind = .eof ∨ token.kind = .rightBrace then return .inr methods
      return .inl (methods ++ [← function .method depth])) []
    let _ ← expect .rightBrace .expectClassEnd
    return .classDecl name parent methods

def function (kind : FunctionKind) : (depth : Nat) → Parser Node
  | 0 => tooDeep
  | depth + 1 => do
    let name ← expect .identifier (.expectFunctionName kind)
    let _ ← expect .leftParen (.expectParameters kind)
    let params ← parameters
    let _ ← expect .rightParen .expectParametersEnd
    let _ ← expect .leftBrace (.expectFunctionBody kind)
    return .function name params (← block depth)

/-- The declarations of a block and its closing brace. -/
def block : (depth : Nat) → Parser (List Node)
  | 0 => tooDeep
  | depth + 1 => do
    let statements ← loop (fun statements => do
      let token ← peek
      if token.kind = .rightBrace ∨ token.kind = .eof then return .inr statements
      return .inl (statements ++ (← declaration depth).toList)) []
    let _ ← expect .rightBrace .expectBlockEnd
    return statements

def statement : (depth : Nat) → Parser Node
  | 0 => tooDeep
  | depth + 1 => do
    match ← accept? [.forWord, .ifWord, .printWord, .returnWord, .whileWord, .leftBrace] with
    | none => expressionStatement depth
    | some token =>
      match token.kind with
      | .forWord => forStatement depth
      | .ifWord => ifStatement depth
      | .printWord => printStatement depth
      | .returnWord => returnStatement token depth
      | .whileWord => whileStatement depth
      | _ => .block <$> block depth

def forStatement : (depth : Nat) → Parser Node
  | 0 => tooDeep
  | depth + 1 => do
    let _ ← expect .leftParen .expectForParen
    let initializer ← forInitializer depth
    let condition ← expressionUnless .semicolon depth
    let _ ← expect .semicolon .expectLoopConditionEnd
    let increment ← expressionUnless .rightParen depth
    let _ ← expect .rightParen .expectForClausesEnd
    return .forLoop initializer condition increment (← statement depth)

def ifStatement : (depth : Nat) → Parser Node
  | 0 => tooDeep
  | depth + 1 => do
    let _ ← expect .leftParen .expectIfParen
    let condition ← expression depth
    let _ ← expect .rightParen .expectIfConditionEnd
    let thenBranch ← statement depth
    match ← accept? [.elseWord] with
    | none => return .conditional condition thenBranch none
    | some _ => return .conditional condition thenBranch (some (← statement depth))

def whileStatement : (depth : Nat) → Parser Node
  | 0 => tooDeep
  | depth + 1 => do
    let _ ← expect .leftParen .expectWhileParen
    let condition ← expression depth
    let _ ← expect .rightParen .expectWhileConditionEnd
    return .loop condition (← statement depth)

end

/-- All declarations up to the end of the source, without those given up. -/
def program (depth : Nat) : Parser (List Node) :=
  loop (fun statements => do
    if ← check .eof then return .inr statements
    return .inl (statements ++ (← declaration depth).toList)) []

end Parser

end Lox
