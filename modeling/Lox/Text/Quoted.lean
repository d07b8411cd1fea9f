import Lox.Text.Printable

/-!
# Text in quotes

A text is shown between single quotes, or between double quotes when it holds a single quote and
no double one. The quote in use and the backslash are escaped, so are the line breaks and tabs by
their letters, and the other characters that are not printable by two, four or eight hexadecimal
digits, as many as they need. All others stand for themselves.
-/

namespace Lox

namespace Text

def quoteFor (cs : List Char) : Char := if '\'' ∈ cs ∧ '"' ∉ cs then '"' else '\''

/-- The last digits of a number in base sixteen, as many as wanted. -/
def hexDigits (n : Nat) : (width : Nat) → List Char
  | 0 => []
  | width + 1 => hexDigits (n / 16) width ++ [Nat.digitChar (n % 16)]

/-- The number of a character, in as many digits as its size asks for. -/
def numbered (c : Char) : List Char :=
  let n := c.toNat
  if n < 0x100 then '\\' :: 'x' :: hexDigits n 2
  else if n < 0x10000 then '\\' :: 'u' :: hexDigits n 4
  else '\\' :: 'U' :: hexDigits n 8

def escaped (quote c : Char) : List Char :=
  if c = quote ∨ c = '\\' then ['\\', c]
  else if c = '\n' then ['\\', 'n']
  else if c = '\r' then ['\\', 'r']
  else if c = '\t' then ['\\', 't']
  else if isPrintable c then [c]
  else numbered c

def quotedChars (cs : List Char) : List Char :=
  let quote := quoteFor cs
  quote :: (cs.flatMap (escaped quote) ++ [quote])

def quoted (s : String) : String := String.ofList (quotedChars s.toList)

end Text

end Lox
