import Lox.Number

/-!
# The shortest decimal of a number

A double stands for every real that rounds to it, an interval whose ends belong to it when its
significand is even. Its shortest decimal is the point of that interval on the coarsest grid of
powers of ten that has one; of the two grid points beside the value the nearer is taken, a tie to
the even digit. If no grid of the search has such a point the exact expansion is taken, which
always reads back.
-/

namespace Lox

/-- The decimal `digits · 10 ^ exponent`. -/
structure Decimal where
  digits : Nat
  exponent : Int
deriving DecidableEq

/-- The exponent of the power of ten at which the leading digit stands. -/
def Decimal.leading (d : Decimal) : Int :=
  d.exponent + (Nat.toDigits 10 d.digits).length - 1

namespace Number

/-- The finite magnitude `m · 2 ^ q` is `value · 2 ^ (q - 2)`, and the reals that round to it lie
between `low · 2 ^ (q - 2)` and `high · 2 ^ (q - 2)`. Below a power of two the next double is half
as far. -/
structure Interval where
  low : Nat
  value : Nat
  high : Nat
  closed : Bool

def interval (m : Nat) (q : Int) : Interval where
  low := if m = leadingBit ∧ -1074 < q then 4 * m - 1 else 4 * m - 2
  value := 4 * m
  high := 4 * m + 2
  closed := m % 2 = 0

/-- The size of one grid step `10 ^ g` in units where `2 ^ (q - 2)` has the size `binaryUnit q g`.
-/
def gridUnit (q g : Int) : Nat := Nat.pow 10 g.toNat * Nat.pow 2 (2 - q).toNat

def binaryUnit (q g : Int) : Nat := Nat.pow 2 (q - 2).toNat * Nat.pow 10 (-g).toNat

/-- Whether the grid point `d · 10 ^ g` rounds to the magnitude of the interval. -/
def Interval.contains (i : Interval) (q g : Int) (d : Nat) : Bool :=
  let point := d * gridUnit q g
  let low := i.low * binaryUnit q g
  let high := i.high * binaryUnit q g
  if i.closed then low ≤ point && point ≤ high else low < point && point < high

/-- The nearer of the two grid points beside the value that round to it. -/
def Interval.gridPoint? (i : Interval) (q g : Int) : Option Nat :=
  let value := i.value * binaryUnit q g
  let unit := gridUnit q g
  let below := value / unit
  match i.contains q g below, i.contains q g (below + 1) with
  | false, false => none
  | true, false => some below
  | false, true => some (below + 1)
  | true, true =>
    let twice := 2 * (value % unit)
    if twice < unit then some below
    else if unit < twice then some (below + 1)
    else some (below + below % 2)

/-- Tries the grids `10 ^ g`, `10 ^ (g - 1)`, … in turn. -/
def Interval.search (i : Interval) (q : Int) : Nat → Int → Option Decimal
  | 0, _ => none
  | n + 1, g =>
    match i.gridPoint? q g with
    | some d => some ⟨d, g⟩
    | none => i.search q n (g - 1)

/-- A power of ten above `m · 2 ^ q`: 30103 / 100000 is a little more than the logarithm of two. -/
def topExponent (m : Nat) (q : Int) : Int := ((m.log2 + 1 : Int) + q) * 30103 / 100000 + 1

/-- The exact value `m · 2 ^ q` as a decimal. -/
def exactDecimal (m : Nat) (q : Int) : Decimal :=
  if 0 ≤ q then ⟨m * Nat.pow 2 q.toNat, 0⟩ else ⟨m * Nat.pow 5 (-q).toNat, q⟩

/-- The shortest decimal that reads back as the finite magnitude `m · 2 ^ q`. Seventeen digits
always suffice, and the search starts at most two powers of ten too high. -/
def shortest (m : Nat) (q : Int) : Decimal :=
  ((interval m q).search q 20 (topExponent m q)).getD (exactDecimal m q)

end Number

end Lox
