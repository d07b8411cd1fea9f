/-!
# Lox numbers are IEEE doubles, kept as their 64 bits

The bits are the whole identity of a number: its class, its sign and the integer `m` and exponent
`q` of its magnitude `m · 2 ^ q` are read off them. The arithmetic is the machine's, and every
result that is not a number is the one `nan`, so that two numbers made by arithmetic are the same
number exactly when their bits are.
-/

namespace Lox

structure Number where
  bits : UInt64
deriving DecidableEq, Inhabited

namespace Number

/-- The bit above the 52 that a double stores of its significand. -/
def leadingBit : Nat := Nat.pow 2 52

def signBit : Nat := Nat.pow 2 63

/-- The bits of positive infinity; a larger magnitude is not a number. -/
def infinityBits : Nat := 2047 * leadingBit

def nan : Number := ⟨0x7ff8000000000000⟩

def zero : Number := ⟨0⟩

/-- The bits with the sign cleared. -/
def magnitude (x : Number) : Nat := x.bits.toNat % signBit

def isNegative (x : Number) : Bool := signBit ≤ x.bits.toNat

def isNaN (x : Number) : Bool := infinityBits < x.magnitude

def isInfinite (x : Number) : Bool := x.magnitude == infinityBits

/-- A number with the given sign and magnitude bits. -/
def ofMagnitude (negative : Bool) (magnitude : Nat) : Number :=
  ⟨UInt64.ofNat (if negative then signBit + magnitude else magnitude)⟩

def infinity (negative : Bool) : Number := ofMagnitude negative infinityBits

/-- The integer `m` of a finite magnitude `m · 2 ^ q`: 53 bits, or fewer at the smallest exponent.
-/
def significand (magnitude : Nat) : Nat :=
  if magnitude < leadingBit then magnitude else leadingBit + magnitude % leadingBit

/-- The exponent `q` of a finite magnitude `m · 2 ^ q`. -/
def exponent (magnitude : Nat) : Int :=
  if magnitude < leadingBit then -1074 else (magnitude / leadingBit : Nat) - 1075

def toFloat (x : Number) : Float := Float.ofBits x.bits

def ofFloat (x : Float) : Number :=
  let r : Number := ⟨x.toBits⟩
  if r.isNaN then nan else r

def ofNat (n : Nat) : Number := ofFloat n.toFloat

def add (x y : Number) : Number := ofFloat (x.toFloat + y.toFloat)

def sub (x y : Number) : Number := ofFloat (x.toFloat - y.toFloat)

def mul (x y : Number) : Number := ofFloat (x.toFloat * y.toFloat)

/-- A nonzero number over a zero is the infinity of the product of their signs; zero over zero is
not a number. -/
def div (x y : Number) : Number := ofFloat (x.toFloat / y.toFloat)

def neg (x : Number) : Number := ofFloat (-x.toFloat)

def lt (x y : Number) : Bool := x.toFloat < y.toFloat

def le (x y : Number) : Bool := x.toFloat ≤ y.toFloat

/-- The same number: `nan` is itself, and the two zeros are apart. -/
def same (x y : Number) : Bool := (x.isNaN && y.isNaN) || x == y

end Number

end Lox
