import Lox.Number.Text

/-!
# Tokens

A token has a kind, the text it was read from, the value of a literal and the line it ends on. The
kinds are those of the Lox lexicon; a token made by hand may carry a kind of another name, which
no rule of the language accepts. What stands in the place of a token and is none is `missing`: it
has no kind, no lexeme and no line to speak of, and asking for one of them is a fault.
-/

namespace Lox

inductive TokenKind where
  | leftParen | rightParen | leftBrace | rightBrace
  | comma | dot | minus | plus | semicolon | slash | star
  | bang | bangEqual | equal | equalEqual | greater | greaterEqual | less | lessEqual
  | identifier | string | number
  | andWord | classWord | elseWord | falseWord | funWord | forWord | ifWord | nilWord | orWord
  | printWord | returnWord | superWord | thisWord | trueWord | varWord | whileWord
  | eof
  | other (name : String)
  | missing
deriving DecidableEq, Inhabited

namespace TokenKind

def name : TokenKind → String
  | leftParen => "LEFT_PAREN"
  | rightParen => "RIGHT_PAREN"
  | leftBrace => "LEFT_BRACE"
  | rightBrace => "RIGHT_BRACE"
  | comma => "COMMA"
  | dot => "DOT"
  | minus => "MINUS"
  | plus => "PLUS"
  | semicolon => "SEMICOLON"
  | slash => "SLASH"
  | star => "STAR"
  | bang => "BANG"
  | bangEqual => "BANG_EQUAL"
  | equal => "EQUAL"
  | equalEqual => "EQUAL_EQUAL"
  | greater => "GREATER"
  | greaterEqual => "GREATER_EQUAL"
  | less => "LESS"
  | lessEqual => "LESS_EQUAL"
  | identifier => "IDENTIFIER"
  | string => "STRING"
  | number => "NUMBER"
  | andWord => "AND"
  | classWord => "CLASS"
  | elseWord => "ELSE"
  | falseWord => "FALSE"
  | funWord => "FUN"
  | forWord => "FOR"
  | ifWord => "IF"
  | nilWord => "NIL"
  | orWord => "OR"
  | printWord => "PRINT"
  | returnWord => "RETURN"
  | superWord => "SUPER"
  | thisWord => "THIS"
  | trueWord => "TRUE"
  | varWord => "VAR"
  | whileWord => "WHILE"
  | eof => "EOF"
  | other name => name
  | missing => ""

/-- The keywords of the language. -/
def keywords : List (String × TokenKind) :=
  [("and", andWord), ("class", classWord), ("else", elseWord), ("false", falseWord),
   ("for", forWord), ("fun", funWord), ("if", ifWord), ("nil", nilWord), ("or", orWord),
   ("print", printWord), ("return", returnWord), ("super", superWord), ("this", thisWord),
   ("true", trueWord), ("var", varWord), ("while", whileWord)]

/-- Every kind of the lexicon. -/
def lexicon : List TokenKind :=
  [leftParen, rightParen, leftBrace, rightBrace, comma, dot, minus, plus, semicolon, slash, star,
   bang, bangEqual, equal, equalEqual, greater, greaterEqual, less, lessEqual,
   identifier, string, number, eof] ++ keywords.map (·.2)

/-- The kind of that name, in the lexicon if it is there. -/
def ofName (name : String) : TokenKind :=
  (lexicon.find? (·.name == name)).getD (other name)

end TokenKind

/-- The value of a literal. -/
inductive Literal where
  | nil
  | bool (b : Bool)
  | number (x : Number)
  | string (s : String)
deriving DecidableEq, Inhabited

/-- A literal as it stands at the end of a token's line of text. -/
def Literal.text : Literal → String
  | nil => "None"
  | bool true => "True"
  | bool false => "False"
  | number x => x.text .literal
  | string s => s

structure Token where
  kind : TokenKind
  lexeme : String
  literal : Literal
  line : Int
deriving DecidableEq, Inhabited

/-- What stands in the place of a token and is none. -/
def Token.missing : Token := ⟨.missing, "", .nil, 0⟩

def Token.isMissing (t : Token) : Bool := t.kind = .missing

def Token.text (t : Token) : String := s!"{t.kind.name} {t.lexeme} {t.literal.text}"

end Lox
