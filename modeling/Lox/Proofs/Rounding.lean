import Mathlib.Tactic
import Lox.Number.Shortest

/-!
# The fractions that round to a number

The finite magnitudes divide the fractions up: each of them has the interval of those that round to
it, and where it ends the interval of the next one begins (`highEnd_eq_lowEnd_succ`). An end that
two intervals share belongs to that of the even significand, and of two neighbours one is even. So
a fraction rounds to one magnitude only (`RoundsTo.unique`).

The search for a shortest decimal tries points of the interval alone, and the exact value that it
falls back on is one too. The decimal it finds therefore rounds to the number that it is the decimal
of (`roundsTo_shortest`).
-/

namespace Lox

/-- The fraction that a decimal stands for. -/
def Decimal.value (d : Decimal) : ℚ := d.digits * 10 ^ d.exponent

namespace Number

/-- The fraction lies in the interval, which has its ends if it is closed. -/
def Interval.Has (i : Interval) (q : Int) (v : ℚ) : Prop :=
  if i.closed then i.low * 2 ^ (q - 2) ≤ v ∧ v ≤ i.high * 2 ^ (q - 2)
  else i.low * 2 ^ (q - 2) < v ∧ v < i.high * 2 ^ (q - 2)

/-- The interval of a magnitude. -/
def intervalOf (magnitude : Nat) : Interval := interval (significand magnitude) (exponent magnitude)

/-- The magnitude is the one to which the fraction is rounded. -/
def RoundsTo (v : ℚ) (magnitude : Nat) : Prop :=
  (intervalOf magnitude).Has (exponent magnitude) v

/-! ## Intervals one after the other -/

def lowEnd (magnitude : Nat) : ℚ := (intervalOf magnitude).low * 2 ^ (exponent magnitude - 2)

def highEnd (magnitude : Nat) : ℚ := (intervalOf magnitude).high * 2 ^ (exponent magnitude - 2)

theorem leadingBit_eq : leadingBit = 4503599627370496 := rfl

theorem Interval.Has.le {i : Interval} {q : Int} {v : ℚ} (h : i.Has q v) :
    i.low * 2 ^ (q - 2) ≤ v ∧ v ≤ i.high * 2 ^ (q - 2) := by
  unfold Has at h
  split at h
  · exact h
  · exact ⟨h.1.le, h.2.le⟩

/-- The smallest exponent is that of all magnitudes below the leading bit. -/
theorem significand_cases (magnitude : Nat) :
    (magnitude < leadingBit ∧ significand magnitude = magnitude ∧ exponent magnitude = -1074) ∨
      (leadingBit ≤ magnitude ∧ significand magnitude = leadingBit + magnitude % leadingBit ∧
        exponent magnitude = (magnitude / leadingBit : Nat) - 1075) := by
  rcases Nat.lt_or_ge magnitude leadingBit with hlt | hge
  · exact .inl ⟨hlt, if_pos hlt, if_pos hlt⟩
  · exact .inr ⟨hge, if_neg hge.not_gt, if_neg hge.not_gt⟩

/-- The significand and exponent of a magnitude, and of the next one: the first power of two has the
smallest exponent still, and each later one begins a new exponent. -/
theorem significand_succ (magnitude : Nat) :
    (significand (magnitude + 1) = significand magnitude + 1 ∧
        exponent (magnitude + 1) = exponent magnitude ∧
        (significand (magnitude + 1) = leadingBit → exponent magnitude = -1074)) ∨
      (significand magnitude + 1 = 2 * leadingBit ∧ significand (magnitude + 1) = leadingBit ∧
        exponent (magnitude + 1) = exponent magnitude + 1 ∧ -1074 ≤ exponent magnitude) := by
  have h := significand_cases magnitude
  have hsucc := significand_cases (magnitude + 1)
  rw [leadingBit_eq] at *
  omega

theorem low_interval {m : Nat} {q : Int} (h : m + 1 = leadingBit → q = -1074) :
    (interval (m + 1) q).low = 4 * m + 2 := by
  have hnot : ¬ (m + 1 = leadingBit ∧ -1074 < q) := fun ⟨hm, hq⟩ => by
    rw [h hm] at hq
    exact absurd hq (lt_irrefl _)
  have hlow : (interval (m + 1) q).low = 4 * (m + 1) - 2 := if_neg hnot
  omega

/-- Where the interval of a magnitude ends that of the next one begins. -/
theorem highEnd_eq_lowEnd_succ (magnitude : Nat) : highEnd magnitude = lowEnd (magnitude + 1) := by
  have hhigh : (intervalOf magnitude).high = 4 * significand magnitude + 2 := rfl
  rw [highEnd, lowEnd, hhigh, intervalOf]
  rcases significand_succ magnitude with ⟨hm, hq, hleading⟩ | ⟨hm, hm', hq, hle⟩
  · rw [hm] at hleading ⊢
    rw [hq, low_interval hleading]
  · -- the steps are twice as long from here on, and the one before is half as long
    have hlow : (interval leadingBit (exponent magnitude + 1)).low = 4 * leadingBit - 1 :=
      if_pos ⟨rfl, by omega⟩
    have hpower : (2 : ℚ) ^ (exponent magnitude + 1 - 2) = 2 * 2 ^ (exponent magnitude - 2) := by
      rw [add_sub_right_comm, zpow_add_one₀ two_ne_zero, mul_comm]
    have hends : 4 * significand magnitude + 2 = 2 * (4 * leadingBit - 1) := by
      rw [leadingBit_eq] at hm ⊢
      omega
    rw [hm', hq, hlow, hpower, hends]
    push_cast
    ring

theorem lowEnd_lt_highEnd (magnitude : Nat) : lowEnd magnitude < highEnd magnitude := by
  have hlt : (intervalOf magnitude).low < (intervalOf magnitude).high := by
    simp only [intervalOf, interval]
    split_ifs <;> omega
  have hpos : (0 : ℚ) < 2 ^ (exponent magnitude - 2) := by positivity
  exact mul_lt_mul_of_pos_right (by exact_mod_cast hlt) hpos

theorem highEnd_le_lowEnd {magnitude larger : Nat} (h : magnitude < larger) :
    highEnd magnitude ≤ lowEnd larger := by
  induction larger, h using Nat.le_induction with
  | base => exact (highEnd_eq_lowEnd_succ magnitude).le
  | succ larger _ ih =>
    exact (ih.trans (lowEnd_lt_highEnd larger).le).trans (highEnd_eq_lowEnd_succ larger).le

theorem closed_intervalOf (magnitude : Nat) :
    (intervalOf magnitude).closed = decide (magnitude % 2 = 0) := by
  have hparity : significand magnitude % 2 = magnitude % 2 := by
    have h := significand_cases magnitude
    rw [leadingBit_eq] at h
    omega
  simp [intervalOf, interval, hparity]

theorem RoundsTo.le {v : ℚ} {magnitude : Nat} (h : RoundsTo v magnitude) :
    lowEnd magnitude ≤ v ∧ v ≤ highEnd magnitude := Interval.Has.le h

/-- An end belongs to the interval of an even magnitude only. -/
theorem RoundsTo.even {v : ℚ} {magnitude : Nat} (h : RoundsTo v magnitude)
    (hend : v = lowEnd magnitude ∨ v = highEnd magnitude) : magnitude % 2 = 0 := by
  by_contra hodd
  have hopen : (intervalOf magnitude).closed = false := by
    rw [closed_intervalOf]
    exact decide_eq_false hodd
  rw [RoundsTo, Interval.Has, hopen] at h
  rcases hend with rfl | rfl
  · exact lt_irrefl _ h.1
  · exact lt_irrefl _ h.2

theorem RoundsTo.not_lt {v : ℚ} {magnitude larger : Nat} (h : RoundsTo v magnitude)
    (h' : RoundsTo v larger) : ¬ magnitude < larger := by
  intro hlt
  have hends : highEnd magnitude = lowEnd larger :=
    le_antisymm (highEnd_le_lowEnd hlt) (h'.le.1.trans h.le.2)
  have hv : v = highEnd magnitude := le_antisymm h.le.2 (hends.trans_le h'.le.1)
  -- with another magnitude between them the ends would be apart
  have hnext : larger = magnitude + 1 := by
    by_contra hne
    have hbetween := highEnd_le_lowEnd (show magnitude + 1 < larger by omega)
    have hwide := lowEnd_lt_highEnd (magnitude + 1)
    rw [← highEnd_eq_lowEnd_succ] at hwide
    exact absurd hends (hwide.trans_le hbetween).ne
  have heven := h.even (.inr hv)
  have heven' := h'.even (.inl (hv.trans hends))
  omega

/-- A fraction rounds to one magnitude only. -/
theorem RoundsTo.unique {v : ℚ} {magnitude other : Nat} (h : RoundsTo v magnitude)
    (h' : RoundsTo v other) : magnitude = other :=
  le_antisymm (Nat.le_of_not_lt (h'.not_lt h)) (Nat.le_of_not_lt (h.not_lt h'))

/-! ## Points of an interval -/

theorem pow_toNat {a : ℚ} (ha : a ≠ 0) (n : Int) : a ^ n.toNat = a ^ n * a ^ (-n).toNat := by
  rw [← zpow_natCast, ← zpow_natCast, ← zpow_add₀ ha]
  congr 1
  omega

/-- Grid points and ends of intervals are compared in units of one size. -/
theorem units_eq (q g : Int) : ∃ scale : ℚ, 0 < scale ∧
    (gridUnit q g : ℚ) = 10 ^ g * scale ∧ (binaryUnit q g : ℚ) = 2 ^ (q - 2) * scale := by
  refine ⟨10 ^ (-g).toNat * 2 ^ (2 - q).toNat, by positivity, ?_, ?_⟩
  · have hten := pow_toNat (by norm_num : (10 : ℚ) ≠ 0) g
    simp only [gridUnit, Nat.pow_eq, Nat.cast_mul, Nat.cast_pow, Nat.cast_ofNat, hten]
    ring
  · have htwo := pow_toNat two_ne_zero (q - 2)
    rw [neg_sub] at htwo
    simp only [binaryUnit, Nat.pow_eq, Nat.cast_mul, Nat.cast_pow, Nat.cast_ofNat, htwo]
    ring

theorem Interval.contains_iff (i : Interval) (q g : Int) (d : Nat) :
    i.contains q g d = true ↔ i.Has q (Decimal.value ⟨d, g⟩) := by
  obtain ⟨scale, hscale, hgrid, hbinary⟩ := units_eq q g
  have hle : ∀ a : Nat, a * binaryUnit q g ≤ d * gridUnit q g ↔
      (a : ℚ) * 2 ^ (q - 2) ≤ Decimal.value ⟨d, g⟩ := by
    intro a
    rw [← Nat.cast_le (α := ℚ), Nat.cast_mul, Nat.cast_mul, hgrid, hbinary, Decimal.value,
      ← mul_assoc, ← mul_assoc, mul_le_mul_iff_of_pos_right hscale]
  have hge : ∀ a : Nat, d * gridUnit q g ≤ a * binaryUnit q g ↔
      Decimal.value ⟨d, g⟩ ≤ (a : ℚ) * 2 ^ (q - 2) := by
    intro a
    rw [← Nat.cast_le (α := ℚ), Nat.cast_mul, Nat.cast_mul, hgrid, hbinary, Decimal.value,
      ← mul_assoc, ← mul_assoc, mul_le_mul_iff_of_pos_right hscale]
  unfold contains Has
  cases i.closed <;> simp [hle, hge, ← not_le]

theorem Interval.has_of_gridPoint? {i : Interval} {q g : Int} {d : Nat}
    (h : i.gridPoint? q g = some d) : i.Has q (Decimal.value ⟨d, g⟩) := by
  rw [← contains_iff]
  simp only [gridPoint?] at h
  split at h
  · cases h
  · rename_i hbelow _
    cases h
    exact hbelow
  · rename_i habove
    cases h
    exact habove
  · rename_i hbelow habove
    split_ifs at h
    · cases h
      exact hbelow
    · cases h
      exact habove
    · cases h
      -- a tie goes to the even one of the two
      rcases Nat.mod_two_eq_zero_or_one (i.value * binaryUnit q g / gridUnit q g) with heven | hodd
      · rwa [heven]
      · rwa [hodd]

theorem Interval.has_of_search {i : Interval} {q : Int} {d : Decimal} {n : Nat} {g : Int}
    (h : i.search q n g = some d) : i.Has q d.value := by
  induction n generalizing g with
  | zero => cases h
  | succ n ih =>
    rw [search] at h
    split at h
    · rename_i point hpoint
      cases h
      exact has_of_gridPoint? hpoint
    · exact ih h

theorem value_exactDecimal (m : Nat) (q : Int) : (exactDecimal m q).value = m * 2 ^ q := by
  unfold exactDecimal
  split
  · rename_i hq
    obtain ⟨n, rfl⟩ := Int.eq_ofNat_of_zero_le hq
    simp [Decimal.value]
  · rename_i hq
    obtain ⟨n, rfl⟩ : ∃ n : Nat, q = -n := ⟨q.natAbs, by omega⟩
    have hten : (10 : ℚ) ^ n = 5 ^ n * 2 ^ n := by rw [← mul_pow]; norm_num
    have hfive : (5 : ℚ) ^ n ≠ 0 := by positivity
    simp only [Decimal.value, neg_neg, Int.toNat_natCast, Nat.pow_eq, Nat.cast_mul, Nat.cast_pow,
      Nat.cast_ofNat, zpow_neg, zpow_natCast, hten]
    field_simp

theorem Interval.has_value (m : Nat) (q : Int) : (interval m q).Has q (m * 2 ^ q) := by
  have hpos : (0 : ℚ) < 2 ^ (q - 2) := by positivity
  have hvalue : (m : ℚ) * 2 ^ q = (4 * m : ℕ) * 2 ^ (q - 2) := by
    rw [zpow_sub₀ two_ne_zero]
    push_cast
    ring
  have hlow : (interval m q).low ≤ 4 * m ∧ (m % 2 ≠ 0 → (interval m q).low < 4 * m) := by
    simp only [interval]
    split_ifs <;> omega
  have hhigh : 4 * m < (interval m q).high := Nat.lt_add_of_pos_right two_pos
  rw [hvalue, Has]
  split
  · exact ⟨mul_le_mul_of_nonneg_right (by exact_mod_cast hlow.1) hpos.le,
      mul_le_mul_of_nonneg_right (by exact_mod_cast hhigh.le) hpos.le⟩
  · rename_i hopen
    have hodd : m % 2 ≠ 0 := fun heven => hopen (decide_eq_true heven)
    exact ⟨mul_lt_mul_of_pos_right (by exact_mod_cast hlow.2 hodd) hpos,
      mul_lt_mul_of_pos_right (by exact_mod_cast hhigh) hpos⟩

theorem roundsTo_zero : RoundsTo 0 0 := by
  have h := Interval.has_value (significand 0) (exponent 0)
  rwa [show significand 0 = 0 from rfl, Nat.cast_zero, zero_mul] at h

/-- The shortest decimal of a magnitude rounds to it. -/
theorem roundsTo_shortest (magnitude : Nat) :
    RoundsTo (shortest (significand magnitude) (exponent magnitude)).value magnitude := by
  unfold RoundsTo intervalOf shortest
  rcases hsearch : (interval (significand magnitude) (exponent magnitude)).search
    (exponent magnitude) 20 (topExponent (significand magnitude) (exponent magnitude)) with _ | d
  · rw [Option.getD_none, value_exactDecimal]
    exact Interval.has_value _ _
  · rw [Option.getD_some]
    exact Interval.has_of_search hsearch

end Number

end Lox
