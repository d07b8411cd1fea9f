import Lox.Number.Nearest
import Lox.Number.Shortest

/-!
# Numbers as text

A finite number is written with its shortest digits, positionally while its decimal exponent is at
least -4 and below 16, and otherwise in scientific notation with a signed exponent of two digits
or more. What the two styles of the language disagree on is a `Style`: `literal` shows a number as
the source of a tree or token does, `printed` as a program prints it.

`Number.read?` reads every such text, and decimal text in general.
-/

namespace Lox

namespace Number

structure Style where
  /-- What follows the digits of a whole number written positionally. -/
  whole : List Char
  nan : List Char
  infinity : List Char

/-- Whole numbers end in `.0`, the rest is in lower case. -/
def Style.literal : Style := ⟨['.', '0'], "nan".toList, "inf".toList⟩

/-- Whole numbers have no point, the rest is spelled out. -/
def Style.printed : Style := ⟨[], "NaN".toList, "Infinity".toList⟩

/-- Whether a number whose leading digit stands at `10 ^ e` is written without an exponent. -/
def isPositional (e : Int) : Bool := -4 ≤ e && e < 16

def positionalText (style : Style) (d : Decimal) : List Char :=
  let digits := Nat.toDigits 10 d.digits
  if 0 ≤ d.exponent then digits ++ List.replicate d.exponent.toNat '0' ++ style.whole
  else
    let places := (-d.exponent).toNat
    if places < digits.length then
      digits.take (digits.length - places) ++ '.' :: digits.drop (digits.length - places)
    else '0' :: '.' :: (List.replicate (places - digits.length) '0' ++ digits)

def exponentText (e : Int) : List Char :=
  let digits := Nat.toDigits 10 e.natAbs
  (if e < 0 then '-' else '+') :: (if digits.length < 2 then '0' :: digits else digits)

def scientificText (d : Decimal) : List Char :=
  let fraction := match Nat.toDigits 10 d.digits with
    | first :: [] => [first]
    | first :: rest => first :: '.' :: rest
    | [] => []
  fraction ++ 'e' :: exponentText d.leading

def decimalText (style : Style) (d : Decimal) : List Char :=
  if isPositional d.leading then positionalText style d else scientificText d

/-- The text of a magnitude, without a sign. -/
def magnitudeText (style : Style) (magnitude : Nat) : List Char :=
  if magnitude = 0 then '0' :: style.whole
  else if infinityBits < magnitude then style.nan
  else if magnitude = infinityBits then style.infinity
  else decimalText style (shortest (significand magnitude) (exponent magnitude))

def text (style : Style) (x : Number) : String :=
  let digits := magnitudeText style x.magnitude
  String.ofList (if x.isNegative && !x.isNaN then '-' :: digits else digits)

/-! ## Reading -/

def isDigit (c : Char) : Bool := '0' ≤ c && c ≤ '9'

/-- The natural written by decimal digits. -/
def digitsValue (cs : List Char) : Nat := cs.foldl (fun n c => 10 * n + (c.toNat - '0'.toNat)) 0

/-- The number written as `whole.fraction`. -/
def ofDigits (whole fraction : List Char) : Number :=
  ofMagnitude false (nearestDecimal (digitsValue (whole ++ fraction)) (-fraction.length))

def readExponent? : List Char → Option Int
  | '-' :: cs => if cs ≠ [] ∧ cs.all isDigit then some (-(digitsValue cs : Int)) else none
  | '+' :: cs => if cs ≠ [] ∧ cs.all isDigit then some (digitsValue cs) else none
  | cs => if cs ≠ [] ∧ cs.all isDigit then some (digitsValue cs) else none

/-- An exponent so large or small that it decides the number by itself, brought nearer without a
change to it. -/
def clampExponent (digits : Nat) (e : Int) : Int := max (-(digits.log2 + 400 : Int)) (min 400 e)

def readMagnitude? (cs : List Char) : Option Nat :=
  if cs = "nan".toList then some nan.magnitude
  else if cs = "inf".toList then some infinityBits
  else
    let whole := cs.takeWhile isDigit
    let rest := cs.dropWhile isDigit
    let (fraction, rest) := match rest with
      | '.' :: rest => (rest.takeWhile isDigit, rest.dropWhile isDigit)
      | rest => ([], rest)
    let exponent? := match rest with
      | [] => some 0
      | c :: rest => if c = 'e' ∨ c = 'E' then readExponent? rest else none
    if whole ++ fraction = [] then none
    else exponent?.map fun e =>
      let digits := digitsValue (whole ++ fraction)
      nearestDecimal digits (clampExponent digits (e - fraction.length))

/-- The number that decimal text stands for: digits with an optional sign, point and exponent, or
`inf` or `nan`. -/
def read? (s : String) : Option Number :=
  match s.toList with
  | '-' :: cs => (readMagnitude? cs).map (ofMagnitude true)
  | '+' :: cs => (readMagnitude? cs).map (ofMagnitude false)
  | cs => (readMagnitude? cs).map (ofMagnitude false)

end Number

end Lox
