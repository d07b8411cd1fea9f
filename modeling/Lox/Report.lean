import Lox.Token.Scan

/-!
# Problems and their reports

A `Problem` is what can be wrong with a source before it runs, and its `message` is the only place
that words it. A `Complaint` is a problem at a token. Reports, static or of a running program, go
to a `Reporter`, which keeps those since its last reset, the flags they raised, and all it ever
wrote.
-/

namespace Lox

/-- What a declaration with parameters is called in messages. -/
inductive FunctionKind where
  | function
  | method
deriving DecidableEq

def FunctionKind.noun : FunctionKind → String
  | function => "function"
  | method => "method"

/-- The most parameters a function may have and the most arguments a call may have. -/
def maxArguments : Nat := 255

inductive Problem where
  | unexpectedCharacter
  | unterminatedString
  | expectClassName
  | expectSuperclassName
  | expectClassBody
  | expectClassEnd
  | expectFunctionName (kind : FunctionKind)
  | expectParameters (kind : FunctionKind)
  | expectParameterName
  | tooManyParameters
  | expectParametersEnd
  | expectFunctionBody (kind : FunctionKind)
  | expectBlockEnd
  | expectForParen
  | expectLoopConditionEnd
  | expectForClausesEnd
  | expectIfParen
  | expectIfConditionEnd
  | expectExpressionEnd
  | expectPrintEnd
  | expectReturnEnd
  | expectVariableName
  | expectVariableEnd
  | expectWhileParen
  | expectWhileConditionEnd
  | invalidAssignmentTarget
  | expectPropertyName
  | tooManyArguments
  | expectArgumentsEnd
  | expectSuperDot
  | expectSuperMethod
  | expectGroupEnd
  | expectExpression
  | inheritsFromItself
  | returnAtTopLevel
  | returnsFromInitializer
  | superOutsideClass
  | superWithoutSuperclass
  | thisOutsideClass
  | readsOwnInitializer
  | neverUsed
  | alreadyDeclared
deriving DecidableEq

def Problem.message : Problem → String
  | unexpectedCharacter => "Unexpected character."
  | unterminatedString => "Unterminated string."
  | expectClassName => "Expect class name."
  | expectSuperclassName => "Expect superclass name."
  | expectClassBody => "Expect '\x7b' before class body."
  | expectClassEnd => "Expect '\x7d' after class body."
  | expectFunctionName kind => "Expect " ++ kind.noun ++ " name."
  | expectParameters kind => "Expect '(' after " ++ kind.noun ++ " name."
  | expectParameterName => "Expect parameter name."
  | tooManyParameters => "Can't have more than " ++ toString maxArguments ++ " parameters."
  | expectParametersEnd => "Expect ')' after parameters."
  | expectFunctionBody kind => "Expect '\x7b' before " ++ kind.noun ++ " body."
  | expectBlockEnd => "Expect '\x7d' after block."
  | expectForParen => "Expect '(' after 'for'."
  | expectLoopConditionEnd => "Expect ';' after loop condition."
  | expectForClausesEnd => "Expect ')' after for clauses."
  | expectIfParen => "Expect '(' after 'if'."
  | expectIfConditionEnd => "Expect ')' after if condition."
  | expectExpressionEnd => "Expect ';' after expression."
  | expectPrintEnd => "Expect ';' after value."
  | expectReturnEnd => "Expect ';' after return value."
  | expectVariableName => "Expect variable name."
  | expectVariableEnd => "Expect ';' after variable declaration."
  | expectWhileParen => "Expect '(' after 'while'."
  | expectWhileConditionEnd => "Expect ')' after condition."
  | invalidAssignmentTarget => "Invalid assignment target."
  | expectPropertyName => "Expect property name after '.'."
  | tooManyArguments => "Can't have more than " ++ toString maxArguments ++ " arguments."
  | expectArgumentsEnd => "Expect ')' after arguments."
  | expectSuperDot => "Expect '.' after 'super'."
  | expectSuperMethod => "Expect superclass method name."
  | expectGroupEnd => "Expect ')' after expression."
  | expectExpression => "Expect expression."
  | inheritsFromItself => "A class can't inherit from itself."
  | returnAtTopLevel => "Can't return from top-level code."
  | returnsFromInitializer => "Can't return a value from an initializer."
  | superOutsideClass => "Can't use 'super' outside of a class."
  | superWithoutSuperclass => "Can't use 'super' in a class with no superclass."
  | thisOutsideClass => "Can't use 'this' outside of a class."
  | readsOwnInitializer => "Can't read local variable in its own initializer."
  | neverUsed => "The variable is never used."
  | alreadyDeclared => "Already a variable with this name in this scope."

def Scan.Fault.problem : Scan.Fault → Problem
  | unexpectedCharacter => .unexpectedCharacter
  | unterminatedString => .unterminatedString

/-- A problem at a token. -/
structure Complaint where
  token : Token
  problem : Problem
deriving DecidableEq

/-- A report of a problem in a source, or of the error that ended a running program. -/
inductive Report where
  | static (line : Int) (place : String) (message : String)
  | runtime (message : String) (line : Int)
deriving DecidableEq

namespace Report

def text : Report → String
  | static line place message => s!"[line {line}] Error{place}: {message}"
  | runtime message line => s!"{message}\n[line {line}]"

def isStatic : Report → Bool
  | static .. => true
  | runtime .. => false

/-- A report at a token names its lexeme, or the end of the source. -/
def atToken (token : Token) (message : String) : Report :=
  let place := if token.kind = .eof then " at end" else s!" at '{token.lexeme}'"
  static token.line place message

def ofComplaint (c : Complaint) : Report := atToken c.token c.problem.message

def ofFault (line : Int) (fault : Scan.Fault) : Report := static line "" fault.problem.message

end Report

structure Reporter where
  /-- The reports since the last reset. -/
  reports : Array Report := #[]
  /-- Every report ever made. -/
  written : Array Report := #[]
  hadError : Bool := false
  hadRuntimeError : Bool := false
deriving DecidableEq

namespace Reporter

def add (r : Reporter) (report : Report) : Reporter where
  reports := r.reports.push report
  written := r.written.push report
  hadError := r.hadError || report.isStatic
  hadRuntimeError := r.hadRuntimeError || !report.isStatic

def addAll (r : Reporter) (reports : List Report) : Reporter := reports.foldl add r

/-- Forgets the reports and lowers the flags. What was written stays written. -/
def reset (r : Reporter) : Reporter := { written := r.written }

/-- A rejected source outranks a failed run. -/
def exitStatus (r : Reporter) : Nat :=
  if r.hadError then 65 else if r.hadRuntimeError then 70 else 0

def errors (r : Reporter) : List String := r.reports.toList.map Report.text

end Reporter

/-- The text of reports as written, one after the other, each with a line break. -/
def Report.lines (reports : List Report) : String :=
  String.join (reports.map fun r => r.text ++ "\n")

end Lox
