import Lox.Number

/-!
# The number nearest to a fraction

`nearest` rounds a fraction of naturals to the closest double, a tie to the even significand, with
exact integer arithmetic throughout. Decimal text is read through it, so every literal is rounded
correctly however long it is, and one beyond the largest double is infinite.
-/

namespace Lox

namespace Number

/-- The quotient rounded to the nearest natural, a half to the even neighbour. -/
def roundHalfEven (num den : Nat) : Nat :=
  let floor := num / den
  let twice := 2 * (num % den)
  if twice < den then floor
  else if den < twice then floor + 1
  else floor + floor % 2

/-- The numerator and denominator of `num / den / 2 ^ q`. -/
def scaled (num den : Nat) (q : Int) : Nat × Nat :=
  (num * Nat.pow 2 (-q).toNat, den * Nat.pow 2 q.toNat)

/-- The least exponent, not below that of the smallest double, at which the fraction has at most 53
bits before the point. -/
def quantum (num den : Nat) : Int :=
  let k : Int := (num.log2 : Int) - den.log2 - 53
  let (n, d) := scaled num den k
  max (-1074) (if n < 2 * leadingBit * d then k else k + 1)

/-- The magnitude bits of the double nearest to `num / den`. A significand that rounds up to the
next power of two carries into the exponent by itself. -/
def nearestMagnitude (num den : Nat) : Nat :=
  if num = 0 then 0
  else
    let q := quantum num den
    let (n, d) := scaled num den q
    min ((q + 1074).toNat * leadingBit + roundHalfEven n d) infinityBits

/-- The magnitude bits of the double nearest to `digits · 10 ^ e`. -/
def nearestDecimal (digits : Nat) (e : Int) : Nat :=
  nearestMagnitude (digits * Nat.pow 10 e.toNat) (Nat.pow 10 (-e).toNat)

end Number

end Lox
