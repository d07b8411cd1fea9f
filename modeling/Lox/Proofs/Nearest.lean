import Mathlib.Tactic
import Lox.Number.Nearest
import Lox.Proofs.Rounding

/-!
# The nearest number is the one that a fraction rounds to

A fraction is rounded at the exponent at which it has 53 bits before the point, or at the smallest
one (`quantum_spec`). There it is between two naturals, and the nearer of them is the significand,
a tie going to the even one. If that is the next power of two, then it carries into the exponent,
and the magnitude is that of the next exponent (`roundsTo_of_halfEven`).

So what is computed is the magnitude that the fraction rounds to, if that is finite
(`nearestMagnitude_eq`). Every text that stands for such a fraction is read as this number.
-/

namespace Lox

namespace Number

/-! ## Rounding to a natural -/

/-- The natural is at most a half away from the fraction, and even if it is just a half. -/
structure HalfEven (num den r : Nat) : Prop where
  low : 2 * (r * den) ≤ 2 * num + den
  high : 2 * num ≤ 2 * (r * den) + den
  tie : 2 * (r * den) = 2 * num + den ∨ 2 * num = 2 * (r * den) + den → r % 2 = 0

theorem halfEven_roundHalfEven (num : Nat) {den : Nat} (hden : 0 < den) :
    HalfEven num den (roundHalfEven num den) := by
  have hlt : num % den < den := Nat.mod_lt num hden
  have hnum : num / den * den + num % den = num := Nat.div_add_mod' num den
  have hsucc : (num / den + 1) * den = num / den * den + den := Nat.succ_mul _ _
  unfold roundHalfEven
  dsimp only
  split_ifs with hbelow habove
  · exact ⟨by omega, by omega, by omega⟩
  · exact ⟨by omega, by omega, by omega⟩
  · rcases Nat.mod_two_eq_zero_or_one (num / den) with heven | hodd
    · rw [heven, add_zero]
      exact ⟨by omega, by omega, by omega⟩
    · rw [hodd]
      exact ⟨by omega, by omega, by omega⟩

/-! ## The exponent of a fraction -/

theorem scaled_pos {num den : Nat} (hden : 0 < den) (q : Int) : 0 < (scaled num den q).2 :=
  Nat.mul_pos hden (Nat.pow_pos two_pos)

/-- Scaling divides the fraction by a power of two. -/
theorem scaled_eq {num den : Nat} (hden : 0 < den) (q : Int) :
    ((scaled num den q).1 : ℚ) * 2 ^ q = num / den * (scaled num den q).2 := by
  have hpos : (den : ℚ) ≠ 0 := by exact_mod_cast hden.ne'
  have htwo := pow_toNat two_ne_zero (a := (2 : ℚ)) q
  simp only [scaled, Nat.pow_eq, Nat.cast_mul, Nat.cast_pow, Nat.cast_ofNat, htwo]
  field_simp

/-- The fraction has at most 53 bits before the point at the exponent, and not fewer unless it is
the smallest exponent. -/
structure Quantum (v : ℚ) (q : Int) : Prop where
  smallest : -1074 ≤ q
  high : v < 2 * leadingBit * 2 ^ q
  low : q = -1074 ∨ leadingBit * 2 ^ q ≤ v

theorem leadingBit_eq_zpow : (leadingBit : ℚ) = 2 ^ (52 : Int) := by
  norm_num [leadingBit_eq]

/-- The logarithms of numerator and denominator leave two exponents to choose from. -/
theorem log2_bounds {num den : Nat} (hnum : 0 < num) (hden : 0 < den) {k : Int}
    (hk : k = (num.log2 : Int) - den.log2 - 53) :
    leadingBit * 2 ^ k ≤ (num / den : ℚ) ∧ (num / den : ℚ) < 2 * leadingBit * 2 ^ (k + 1) := by
  have hpos : (0 : ℚ) < den := by exact_mod_cast hden
  have hnumlow : (2 : ℚ) ^ num.log2 ≤ num := by exact_mod_cast Nat.log2_self_le hnum.ne'
  have hnumhigh : (num : ℚ) < 2 ^ (num.log2 + 1) := by exact_mod_cast Nat.lt_log2_self
  have hdenlow : (2 : ℚ) ^ den.log2 ≤ den := by exact_mod_cast Nat.log2_self_le hden.ne'
  have hdenhigh : (den : ℚ) < 2 ^ (den.log2 + 1) := by exact_mod_cast Nat.lt_log2_self
  have hmiddle : (leadingBit : ℚ) * 2 ^ k * 2 ^ (den.log2 + 1) = 2 ^ num.log2 := by
    rw [leadingBit_eq_zpow, ← zpow_natCast, ← zpow_natCast, ← zpow_add₀ two_ne_zero,
      ← zpow_add₀ two_ne_zero]
    congr 1
    push_cast
    omega
  have hscale : (0 : ℚ) < leadingBit * 2 ^ k := by
    rw [leadingBit_eq_zpow]
    positivity
  constructor
  · rw [le_div_iff₀ hpos]
    exact ((mul_le_mul_of_nonneg_left hdenhigh.le hscale.le).trans hmiddle.le).trans hnumlow
  · rw [div_lt_iff₀ hpos]
    have hpower : 2 * (leadingBit : ℚ) * 2 ^ (k + 1) * 2 ^ den.log2 = 2 ^ (num.log2 + 1) := by
      rw [zpow_add_one₀ two_ne_zero, pow_succ _ num.log2, ← hmiddle, pow_succ]
      ring
    refine hnumhigh.trans_le (hpower.symm.le.trans ?_)
    refine mul_le_mul_of_nonneg_left hdenlow ?_
    rw [zpow_add_one₀ two_ne_zero]
    linarith

theorem quantum_spec {num den : Nat} (hnum : 0 < num) (hden : 0 < den) :
    Quantum (num / den) (quantum num den) := by
  obtain ⟨k, hk⟩ : ∃ k : Int, k = (num.log2 : Int) - den.log2 - 53 := ⟨_, rfl⟩
  obtain ⟨hlow, hhigh⟩ := log2_bounds hnum hden hk
  have hscale : (0 : ℚ) < 2 ^ k := by positivity
  have hpos : (0 : ℚ) < (scaled num den k).2 := by exact_mod_cast scaled_pos hden k
  have htest : (scaled num den k).1 < 2 * leadingBit * (scaled num den k).2 ↔
      (num / den : ℚ) < 2 * leadingBit * 2 ^ k := by
    rw [← mul_lt_mul_iff_of_pos_right hpos, ← scaled_eq hden k,
      mul_right_comm (2 * leadingBit : ℚ), mul_lt_mul_iff_of_pos_right hscale]
    exact_mod_cast Iff.rfl
  -- an exponent that is too small is raised to the smallest one
  have hraise : ∀ {q : Int}, (num / den : ℚ) < 2 * leadingBit * 2 ^ q →
      leadingBit * 2 ^ q ≤ (num / den : ℚ) → Quantum (num / den) (max (-1074) q) := by
    intro q hbelow habove
    refine ⟨le_max_left _ _, hbelow.trans_le ?_, ?_⟩
    · exact mul_le_mul_of_nonneg_left (zpow_le_zpow_right₀ one_le_two (le_max_right _ _))
        (by positivity)
    · rcases le_total q (-1074) with hq | hq
      · exact .inl (max_eq_left hq)
      · rw [max_eq_right hq]
        exact .inr habove
  rw [quantum, ← hk]
  dsimp only
  split_ifs with hsmall
  · exact hraise (htest.1 hsmall) hlow
  · refine hraise hhigh ?_
    rw [htest, not_lt] at hsmall
    rw [zpow_add_one₀ two_ne_zero]
    linarith

/-! ## The magnitude nearest to a fraction -/

/-- A magnitude is made up of its exponent and its significand. -/
theorem significand_add {q : Int} {m : Nat} (hq : -1074 ≤ q) (hm : m < 2 * leadingBit)
    (hlow : q = -1074 ∨ leadingBit ≤ m) :
    significand ((q + 1074).toNat * leadingBit + m) = m ∧
      exponent ((q + 1074).toNat * leadingBit + m) = q := by
  have h := significand_cases ((q + 1074).toNat * leadingBit + m)
  rw [leadingBit_eq] at *
  omega

theorem zpow_eq_four_mul (q : Int) : (2 : ℚ) ^ q = 4 * 2 ^ (q - 2) := by
  rw [zpow_sub₀ two_ne_zero]
  norm_num
  ring

/-- The fraction in quarters of the last bit. -/
theorem HalfEven.quarters {v : ℚ} {num den m : Nat} {q : Int} (h : HalfEven num den m)
    (hden : 0 < den) (hv : (num : ℚ) * 2 ^ q = v * den) :
    (4 * m - 2) * 2 ^ (q - 2) ≤ v ∧ v ≤ (4 * m + 2) * 2 ^ (q - 2) ∧
      (v = (4 * m - 2) * 2 ^ (q - 2) ∨ v = (4 * m + 2) * 2 ^ (q - 2) → m % 2 = 0) := by
  have hpos : (0 : ℚ) < den := by exact_mod_cast hden
  have hunit : (0 : ℚ) < 2 ^ (q - 2) := by positivity
  rw [zpow_eq_four_mul q] at hv
  generalize (2 : ℚ) ^ (q - 2) = unit at hunit hv ⊢
  have hlow : (2 : ℚ) * (m * den) ≤ 2 * num + den := by exact_mod_cast h.low
  have hhigh : (2 : ℚ) * num ≤ 2 * (m * den) + den := by exact_mod_cast h.high
  have htie : (2 : ℚ) * (m * den) = 2 * num + den ∨ (2 : ℚ) * num = 2 * (m * den) + den →
      m % 2 = 0 := by exact_mod_cast h.tie
  obtain rfl : v = 4 * (num / den) * unit := by
    field_simp
    linarith
  have hside : ∀ a : ℚ, a * unit ≤ 4 * (num / den) * unit ↔ a * den ≤ 4 * num := by
    intro a
    rw [mul_le_mul_iff_of_pos_right hunit, ← mul_div_assoc, le_div_iff₀ hpos]
  have hside' : ∀ a : ℚ, 4 * (num / den) * unit ≤ a * unit ↔ 4 * num ≤ a * den := by
    intro a
    rw [mul_le_mul_iff_of_pos_right hunit, ← mul_div_assoc, div_le_iff₀ hpos]
  refine ⟨(hside _).2 (by linarith), (hside' _).2 (by linarith), fun hend => htie ?_⟩
  rcases hend with hend | hend
  · have hle := (hside' _).1 hend.le
    exact .inl (by linarith)
  · have hge := (hside _).1 hend.ge
    exact .inr (by linarith)

/-- What lies between the ends of an interval is in it, unless it is open and that is an end. -/
theorem Interval.has_of_le {i : Interval} {q : Int} {v : ℚ} (hlow : i.low * 2 ^ (q - 2) ≤ v)
    (hhigh : v ≤ i.high * 2 ^ (q - 2))
    (hends : v = i.low * 2 ^ (q - 2) ∨ v = i.high * 2 ^ (q - 2) → i.closed = true) :
    i.Has q v := by
  unfold Has
  split_ifs with hclosed
  · exact ⟨hlow, hhigh⟩
  · exact ⟨lt_of_le_of_ne hlow fun h => hclosed (hends (.inl h.symm)),
      lt_of_le_of_ne hhigh fun h => hclosed (hends (.inr h))⟩

theorem interval_high (m : Nat) (q : Int) : ((interval m q).high : ℚ) = 4 * m + 2 := by
  simp [interval]

/-- Below a power of two the next double is half as far. -/
theorem interval_low_leadingBit {q : Int} (hq : -1074 < q) :
    ((interval leadingBit q).low : ℚ) = 4 * leadingBit - 1 := by
  have hlow : (interval leadingBit q).low = 4 * leadingBit - 1 := if_pos ⟨rfl, hq⟩
  rw [hlow, leadingBit_eq]
  norm_num

theorem closed_interval_leadingBit (q : Int) : (interval leadingBit q).closed = true := by
  rw [leadingBit_eq]
  rfl

/-- A significand to which the fraction is rounded, unless it is rounded up to the next power of
two. -/
theorem Interval.has_of_quarters {v : ℚ} {m : Nat} {q : Int}
    (hlow : (4 * m - 2) * 2 ^ (q - 2) ≤ v) (hhigh : v ≤ (4 * m + 2) * 2 ^ (q - 2))
    (htie : v = (4 * m - 2) * 2 ^ (q - 2) ∨ v = (4 * m + 2) * 2 ^ (q - 2) → m % 2 = 0)
    (hnonneg : 0 ≤ v) (habove : q = -1074 ∨ leadingBit * (4 * 2 ^ (q - 2)) ≤ v) :
    (interval m q).Has q v := by
  have hunit : (0 : ℚ) < 2 ^ (q - 2) := by positivity
  have hclosed : (interval m q).closed = decide (m % 2 = 0) := rfl
  rw [← interval_high m q] at hhigh htie
  by_cases hleading : m = leadingBit ∧ -1074 < q
  · -- the fraction is not below the power of two
    obtain ⟨rfl, hq⟩ := hleading
    have habove' := habove.resolve_left hq.ne'
    refine has_of_le ?_ hhigh fun _ => closed_interval_leadingBit q
    rw [interval_low_leadingBit hq]
    linarith
  · have hlowEnd : (interval m q).low = 4 * m - 2 := if_neg hleading
    rcases Nat.eq_zero_or_pos m with rfl | hm
    · refine has_of_le ?_ hhigh fun _ => hclosed
      rw [hlowEnd]
      simpa using hnonneg
    · have hcast : ((interval m q).low : ℚ) = 4 * m - 2 := by
        rw [hlowEnd, Nat.cast_sub (by omega)]
        push_cast
        ring
      rw [← hcast] at hlow htie
      refine has_of_le hlow hhigh fun hend => ?_
      rw [hclosed, htie hend]
      rfl

/-- A fraction that is rounded up to the next power of two. -/
theorem Interval.has_of_carry {v : ℚ} {q : Int} (hq : -1074 ≤ q)
    (hlow : (4 * (2 * leadingBit) - 2) * 2 ^ (q - 2) ≤ v)
    (hbelow : v < 2 * leadingBit * (4 * 2 ^ (q - 2))) :
    (interval leadingBit (q + 1)).Has (q + 1) v := by
  have hunit : (0 : ℚ) < 2 ^ (q - 2) := by positivity
  have hnext : (2 : ℚ) ^ (q + 1 - 2) = 2 * 2 ^ (q - 2) := by
    rw [add_sub_right_comm, zpow_add_one₀ two_ne_zero, mul_comm]
  refine has_of_le ?_ ?_ fun _ => closed_interval_leadingBit (q + 1)
  · rw [interval_low_leadingBit (by omega), hnext]
    linarith
  · rw [interval_high, hnext]
    linarith

/-- What a fraction is rounded to at its exponent has 53 bits, or is the next power of two. -/
theorem le_of_quarters {v : ℚ} {m : Nat} {q : Int} (hlow : (4 * m - 2) * 2 ^ (q - 2) ≤ v)
    (hhigh : v ≤ (4 * m + 2) * 2 ^ (q - 2)) (hbelow : v < 2 * leadingBit * (4 * 2 ^ (q - 2)))
    (habove : q = -1074 ∨ leadingBit * (4 * 2 ^ (q - 2)) ≤ v) :
    m ≤ 2 * leadingBit ∧ (q = -1074 ∨ leadingBit ≤ m) := by
  have hunit : (0 : ℚ) < 2 ^ (q - 2) := by positivity
  constructor
  · have hbound : (4 * m - 2 : ℚ) < 8 * leadingBit := by
      rw [← mul_lt_mul_iff_of_pos_right hunit]
      linarith
    have hcast : (4 * m : ℚ) < (8 * leadingBit + 2 : Nat) := by
      push_cast
      linarith
    have : 4 * m < 8 * leadingBit + 2 := by exact_mod_cast hcast
    omega
  · refine habove.imp_right fun habove => ?_
    have hbound : (4 * leadingBit : ℚ) ≤ 4 * m + 2 := by
      rw [← mul_le_mul_iff_of_pos_right hunit]
      linarith
    have : 4 * leadingBit ≤ 4 * m + 2 := by exact_mod_cast hbound
    omega

/-- What rounds to the significand at the exponent rounds to the magnitude. A significand that is
rounded up to the next power of two is that of the next exponent. -/
theorem roundsTo_of_halfEven {v : ℚ} {num den m : Nat} {q : Int} (hden : 0 < den)
    (hv : (num : ℚ) * 2 ^ q = v * den) (hround : HalfEven num den m) (hquantum : Quantum v q)
    (hnonneg : 0 ≤ v) :
    RoundsTo v ((q + 1074).toNat * leadingBit + m) := by
  obtain ⟨hlow, hhigh, htie⟩ := hround.quarters hden hv
  obtain ⟨hsmallest, hbelow, habove⟩ := hquantum
  rw [zpow_eq_four_mul q] at hbelow habove
  obtain ⟨hle, hge⟩ := le_of_quarters hlow hhigh hbelow habove
  unfold RoundsTo intervalOf
  rcases hle.lt_or_eq with hlt | rfl
  · obtain ⟨hm, hq⟩ := significand_add hsmallest hlt hge
    rw [hm, hq]
    exact Interval.has_of_quarters hlow hhigh htie hnonneg habove
  · have hcarry : (q + 1074).toNat * leadingBit + 2 * leadingBit =
        (q + 1 + 1074).toNat * leadingBit + leadingBit := by
      rw [leadingBit_eq]
      omega
    have hpos : leadingBit < 2 * leadingBit := by
      rw [leadingBit_eq]
      norm_num
    have hsucc : -1074 ≤ q + 1 := by linarith
    have hparts := significand_add hsucc hpos (.inr (le_refl leadingBit))
    rw [hcarry, hparts.1, hparts.2]
    push_cast at hlow
    exact Interval.has_of_carry hsmallest hlow hbelow

/-- The nearest magnitude is the one that the fraction rounds to. -/
theorem nearestMagnitude_eq {num den magnitude : Nat} (hden : 0 < den)
    (h : RoundsTo (num / den) magnitude) (hfinite : magnitude < infinityBits) :
    nearestMagnitude num den = magnitude := by
  unfold nearestMagnitude
  split_ifs with hnum
  · rw [hnum, Nat.cast_zero, zero_div] at h
    exact roundsTo_zero.unique h
  · have hrounds := roundsTo_of_halfEven (scaled_pos hden _) (scaled_eq hden _)
      (halfEven_roundHalfEven _ (scaled_pos hden _))
      (quantum_spec (Nat.pos_of_ne_zero hnum) hden) (by positivity)
    exact (congrArg (min · infinityBits) (hrounds.unique h)).trans (min_eq_left hfinite.le)

theorem nearestDecimal_eq {digits magnitude : Nat} {e : Int}
    (h : RoundsTo (Decimal.value ⟨digits, e⟩) magnitude) (hfinite : magnitude < infinityBits) :
    nearestDecimal digits e = magnitude := by
  have hpos : 0 < Nat.pow 10 (-e).toNat := Nat.pow_pos (by decide)
  refine nearestMagnitude_eq hpos ?_ hfinite
  have hten := pow_toNat (by norm_num : (10 : ℚ) ≠ 0) e
  have hvalue : ((digits * Nat.pow 10 e.toNat : Nat) : ℚ) / (Nat.pow 10 (-e).toNat : Nat) =
      Decimal.value ⟨digits, e⟩ := by
    simp only [Decimal.value, Nat.pow_eq, Nat.cast_mul, Nat.cast_pow, Nat.cast_ofNat, hten]
    field_simp
  rwa [hvalue]

end Number

end Lox
