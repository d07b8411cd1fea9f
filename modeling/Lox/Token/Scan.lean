import Lox.Token

/-!
# Scanning

A source is cut into pieces, each the longest of its sort that starts where the one before ended:
blanks, comments, tokens, stray characters, and a string that is never closed. Put together again
the pieces are the source. A piece is on the line on which it ends, which is one more than the
line breaks up to there; the tokens and the faults of a source are read off its pieces with that
count.
-/

namespace Lox

namespace Scan

def isDigit (c : Char) : Bool := '0' ≤ c && c ≤ '9'

def isLetter (c : Char) : Bool := ('a' ≤ c && c ≤ 'z') || ('A' ≤ c && c ≤ 'Z') || c = '_'

def isWordChar (c : Char) : Bool := isLetter c || isDigit c

inductive Piece where
  | blank (c : Char)
  | comment (chars : List Char)
  | token (kind : TokenKind) (chars : List Char) (literal : Literal)
  | stray (c : Char)
  | unclosed (chars : List Char)
deriving DecidableEq

namespace Piece

def chars : Piece → List Char
  | blank c => [c]
  | comment chars => chars
  | token _ chars _ => chars
  | stray c => [c]
  | unclosed chars => chars

def lineBreaks (p : Piece) : Nat := p.chars.count '\n'

end Piece

/-- The operators and marks of one character that begin no longer one. -/
def mark? : Char → Option TokenKind
  | '(' => some .leftParen
  | ')' => some .rightParen
  | '{' => some .leftBrace
  | '}' => some .rightBrace
  | ',' => some .comma
  | '.' => some .dot
  | '-' => some .minus
  | '+' => some .plus
  | ';' => some .semicolon
  | '*' => some .star
  | _ => none

/-- The operators that an `=` makes longer: the kind alone, and the kind with it. -/
def comparison? : Char → Option (TokenKind × TokenKind)
  | '!' => some (.bang, .bangEqual)
  | '=' => some (.equal, .equalEqual)
  | '<' => some (.less, .lessEqual)
  | '>' => some (.greater, .greaterEqual)
  | _ => none

def isBlank (c : Char) : Bool := c = ' ' || c = '\r' || c = '\t' || c = '\n'

def slashPiece (cs : List Char) : Piece × List Char :=
  match cs with
  | '/' :: rest =>
    (.comment ('/' :: '/' :: rest.takeWhile (· ≠ '\n')), rest.dropWhile (· ≠ '\n'))
  | _ => (.token .slash ['/'] .nil, cs)

def stringPiece (cs : List Char) : Piece × List Char :=
  let body := cs.takeWhile (· ≠ '"')
  match cs.dropWhile (· ≠ '"') with
  | [] => (.unclosed ('"' :: body), [])
  | quote :: rest =>
    (.token .string ('"' :: (body ++ [quote])) (.string (String.ofList body)), rest)

/-- A number has a fraction only if a digit follows its point. -/
def numberPiece (c : Char) (cs : List Char) : Piece × List Char :=
  let whole := c :: cs.takeWhile isDigit
  match cs.dropWhile isDigit with
  | '.' :: d :: rest =>
    if isDigit d then
      let fraction := d :: rest.takeWhile isDigit
      (.token .number (whole ++ '.' :: fraction) (.number (.ofDigits whole fraction)),
        rest.dropWhile isDigit)
    else (.token .number whole (.number (.ofDigits whole [])), '.' :: d :: rest)
  | rest => (.token .number whole (.number (.ofDigits whole [])), rest)

def wordKind (word : String) : TokenKind := (TokenKind.keywords.lookup word).getD .identifier

def wordPiece (c : Char) (cs : List Char) : Piece × List Char :=
  let word := c :: cs.takeWhile isWordChar
  (.token (wordKind (String.ofList word)) word .nil, cs.dropWhile isWordChar)

/-- The first piece of `c :: cs`, and what is left. -/
def next (c : Char) (cs : List Char) : Piece × List Char :=
  match mark? c with
  | some kind => (.token kind [c] .nil, cs)
  | none =>
    match comparison? c with
    | some (alone, longer) =>
      match cs with
      | '=' :: rest => (.token longer [c, '='] .nil, rest)
      | _ => (.token alone [c] .nil, cs)
    | none =>
      if c = '/' then slashPiece cs
      else if c = '"' then stringPiece cs
      else if isBlank c then (.blank c, cs)
      else if isDigit c then numberPiece c cs
      else if isLetter c then wordPiece c cs
      else (.stray c, cs)

/-! ## Nothing of the source is lost -/

theorem slashPiece_append (cs : List Char) :
    (slashPiece cs).1.chars ++ (slashPiece cs).2 = '/' :: cs := by
  unfold slashPiece
  split <;> simp [Piece.chars, List.takeWhile_append_dropWhile]

theorem stringPiece_append (cs : List Char) :
    (stringPiece cs).1.chars ++ (stringPiece cs).2 = '"' :: cs := by
  have h := List.takeWhile_append_dropWhile (p := (· ≠ '"')) (l := cs)
  unfold stringPiece
  split <;> rename_i hd <;> rw [hd] at h <;> simpa [Piece.chars] using h

theorem numberPiece_append (c : Char) (cs : List Char) :
    (numberPiece c cs).1.chars ++ (numberPiece c cs).2 = c :: cs := by
  have h := List.takeWhile_append_dropWhile (p := isDigit) (l := cs)
  unfold numberPiece
  split
  · rename_i d rest hd
    rw [hd] at h
    split <;> simp [Piece.chars, List.takeWhile_append_dropWhile, h]
  · simp [Piece.chars]

theorem wordPiece_append (c : Char) (cs : List Char) :
    (wordPiece c cs).1.chars ++ (wordPiece c cs).2 = c :: cs := by
  simp [wordPiece, Piece.chars, List.takeWhile_append_dropWhile]

theorem next_append (c : Char) (cs : List Char) :
    (next c cs).1.chars ++ (next c cs).2 = c :: cs := by
  unfold next
  split
  · rfl
  split
  · split <;> rfl
  split
  · rename_i h
    rw [slashPiece_append, h]
  split
  · rename_i h
    rw [stringPiece_append, h]
  split
  · rfl
  split
  · exact numberPiece_append c cs
  split
  · exact wordPiece_append c cs
  · rfl

theorem next_chars_ne_nil (c : Char) (cs : List Char) : (next c cs).1.chars ≠ [] := by
  unfold next slashPiece stringPiece numberPiece wordPiece
  repeat' split
  all_goals simp [Piece.chars]

theorem length_next (c : Char) (cs : List Char) : (next c cs).2.length < (c :: cs).length := by
  have h := congrArg List.length (next_append c cs)
  have := List.length_pos_iff.2 (next_chars_ne_nil c cs)
  simp only [List.length_append] at h
  omega

/-- The source cut into its pieces. -/
def pieces : List Char → List Piece
  | [] => []
  | c :: cs => (next c cs).1 :: pieces (next c cs).2
termination_by cs => cs.length
decreasing_by exact length_next c cs

theorem flatMap_pieces (cs : List Char) : (pieces cs).flatMap Piece.chars = cs := by
  fun_induction pieces cs with
  | case1 => rfl
  | case2 c cs ih => simp [ih, next_append]

/-! ## Tokens and faults -/

inductive Fault where
  | unexpectedCharacter
  | unterminatedString
deriving DecidableEq

/-- The tokens of the pieces, the first of which starts on the given line, and the end of the source
after them. -/
def tokens (line : Nat) : List Piece → List Token
  | [] => [⟨.eof, "", .nil, line⟩]
  | p :: rest =>
    let line := line + p.lineBreaks
    match p with
    | .token kind chars literal => ⟨kind, String.ofList chars, literal, line⟩ :: tokens line rest
    | _ => tokens line rest

/-- What is wrong in the pieces, with the lines. -/
def faults (line : Nat) : List Piece → List (Nat × Fault)
  | [] => []
  | p :: rest =>
    let line := line + p.lineBreaks
    match p with
    | .stray _ => (line, .unexpectedCharacter) :: faults line rest
    | .unclosed _ => (line, .unterminatedString) :: faults line rest
    | _ => faults line rest

end Scan

/-- What scanning a source finds. -/
structure Scanned where
  tokens : List Token
  faults : List (Nat × Scan.Fault)
deriving DecidableEq

def scan (source : String) : Scanned :=
  let pieces := Scan.pieces source.toList
  ⟨Scan.tokens 1 pieces, Scan.faults 1 pieces⟩

end Lox
