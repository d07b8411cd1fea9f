import Mathlib
import Lox.Proofs.Numerals

/-!
# Signs

A number is its sign and its magnitude (`ofMagnitude_magnitude`). Negation is done on floats, whose
bits are taken apart into a sign, an exponent and a mantissa and put together again; unless the
number is not one, that comes to turning the sign around (`neg_eq`), and the text of a negative
number is a minus before that of its negation (`toList_text_neg`).
-/

namespace Lox

namespace Number

open Float.Model Float.Model.UnpackedFloat

theorem signBit_eq : signBit = 9223372036854775808 := rfl

theorem infinityBits_eq : infinityBits = 9218868437227405312 := rfl

/-! ## Bits -/

/-- The number with the given sign. -/
def resign (s : Sign) : UnpackedFloat → UnpackedFloat
  | .infinity _ => .infinity s
  | .notANumber => .notANumber
  | .zero _ => .zero s
  | .finite _ m e h => .finite s m e h

theorem toNat_append {v w : Nat} (high : BitVec v) (low : BitVec w) :
    (high ++ low).toNat = high.toNat * 2 ^ w + low.toNat := by
  rw [BitVec.toNat_append, ← Nat.shiftLeft_add_eq_or_of_lt low.isLt, Nat.shiftLeft_eq]

theorem toNat_packComponents (s : Sign) (e : BitVec 11) (m : BitVec 52) :
    (packComponents .binary64 s e m).toNat =
      s.toBitVec.toNat * 2 ^ 63 + (e.toNat * 2 ^ 52 + m.toNat) := by
  have h : (packComponents .binary64 s e m).toNat = (s.toBitVec ++ e ++ m).toNat := rfl
  rw [h, toNat_append, toNat_append]
  omega

/-- What the sign of a word is, and what its exponent and its mantissa come to. -/
theorem toNat_eq_fields (b : BitVec 64) :
    (@unpackSign .binary64 b).toNat = b.toNat / 2 ^ 63 ∧
      (@unpackExponent .binary64 b).toNat * 2 ^ 52 + (@unpackMantissa .binary64 b).toNat =
        b.toNat % 2 ^ 63 := by
  have hmantissa : (@unpackMantissa .binary64 b).toNat = b.toNat % 2 ^ 52 := by
    simp [unpackMantissa, BitVec.extractLsb, BitVec.extractLsb'_toNat]
  have hexponent : (@unpackExponent .binary64 b).toNat = b.toNat / 2 ^ 52 % 2 ^ 11 := by
    simp [unpackExponent, BitVec.extractLsb, BitVec.extractLsb'_toNat, Nat.shiftRight_eq_div_pow]
  have hsign : (@unpackSign .binary64 b).toNat = b.toNat / 2 ^ 63 % 2 := by
    simp [unpackSign, BitVec.extractLsb, BitVec.extractLsb'_toNat, Nat.shiftRight_eq_div_pow]
  have := b.isLt
  omega

/-- The mantissa after the bit that is not stored. -/
theorem toNat_implicit (m : BitVec 52) : (1#1 ++ m).toNat = 2 ^ 52 + m.toNat := by
  rw [toNat_append]
  rfl

theorem log2_implicit (m : BitVec 52) : (2 ^ 52 + m.toNat).log2 = 52 := by
  have hm : m.toNat < 2 ^ 52 := m.isLt
  exact (Nat.log2_eq_iff (by omega)).mpr (by omega)

theorem ofNat_implicit (m : BitVec 52) : BitVec.ofNat 52 (2 ^ 52 + m.toNat) = m := by
  apply BitVec.eq_of_toNat_eq
  rw [BitVec.toNat_ofNat, Nat.add_mod_left, Nat.mod_eq_of_lt m.isLt]

/-- Packing puts the exponent and the mantissa back that unpacking read, whatever the sign is. -/
theorem pack_resign {b : BitVec 64}
    (hb : @unpackExponent .binary64 b = -1#11 → @unpackMantissa .binary64 b = 0#52) (s : Sign) :
    UnpackedFloat.pack .binary64 (resign s (UnpackedFloat.unpack .binary64 b)) =
      packComponents .binary64 s (@unpackExponent .binary64 b) (@unpackMantissa .binary64 b) := by
  have hbias : ((Format.binary64.exponentBias : Nat) : Int) = 1023 := rfl
  have hwidth : ((Format.binary64.mantissaBitsWithoutImplicit : Nat) : Int) = 52 := rfl
  have hbits : Format.binary64.mantissaBits = 53 := rfl
  have hm : (@unpackMantissa .binary64 b).toNat < 2 ^ 52 := BitVec.isLt _
  have he : (@unpackExponent .binary64 b).toNat < 2 ^ 11 := BitVec.isLt _
  rw [UnpackedFloat.unpack]
  split_ifs with hall hzero hnone hzero
  · rw [hall, hzero]
    rfl
  · exact absurd (hb hall) hzero
  · rw [hnone, hzero]
    rfl
  · have hpos : (@unpackMantissa .binary64 b).toNat ≠ 0 :=
      fun h => hzero (BitVec.eq_of_toNat_eq (by simpa using h))
    have hlog : (@unpackMantissa .binary64 b).toNat.log2 < 52 := (Nat.log2_lt hpos).mpr hm
    have hexponent : (@unpackExponent .binary64 b).toNat = 0 := by
      rw [hnone]
      rfl
    rw [resign, UnpackedFloat.pack]
    simp only [hexponent, hbias, hwidth, hbits]
    rw [if_neg (by decide), if_neg (by omega), hnone, BitVec.ofNat_toNat, BitVec.setWidth_eq]
  · have hexponent : (@unpackExponent .binary64 b).toNat ≠ 2 ^ 11 - 1 :=
      fun h => hall (BitVec.eq_of_toNat_eq (by simpa using h))
    have hshift : ((@unpackExponent .binary64 b).toNat - (1023 + 52) + 1023 + 52 : Int).toNat =
        (@unpackExponent .binary64 b).toNat := by
      omega
    rw [resign, UnpackedFloat.pack]
    simp only [toNat_implicit, log2_implicit, hbias, hwidth, hbits, hshift]
    rw [if_neg (show ¬ 2 ^ 11 ≤ _ by omega), if_pos trivial, BitVec.ofNat_toNat,
      BitVec.setWidth_eq]
    exact congrArg _ (ofNat_implicit _)

theorem unpack_eq_resign (b : BitVec 64) :
    UnpackedFloat.unpack .binary64 b =
      resign (.ofBitVec (@unpackSign .binary64 b)) (UnpackedFloat.unpack .binary64 b) := by
  rw [UnpackedFloat.unpack]
  split_ifs <;> rfl

theorem neg_resign (s : Sign) (u : UnpackedFloat) : (resign s u).neg = resign (-s) u := by
  cases u <;> rfl

/-! ## Signs and magnitudes -/

theorem magnitude_lt (x : Number) : x.magnitude < signBit := Nat.mod_lt _ (by decide)

theorem toNat_bits (x : Number) :
    x.bits.toNat = (if x.isNegative then signBit else 0) + x.magnitude := by
  have hbits := x.bits.toNat_lt
  have hmagnitude : x.magnitude = x.bits.toNat % signBit := rfl
  have hnegative : x.isNegative = decide (signBit ≤ x.bits.toNat) := rfl
  rw [hnegative, hmagnitude, signBit_eq]
  by_cases h : 9223372036854775808 ≤ x.bits.toNat <;> simp [h] <;> omega

theorem toNat_bits_ofMagnitude {magnitude : Nat} (negative : Bool) (h : magnitude < signBit) :
    (ofMagnitude negative magnitude).bits.toNat =
      (if negative then signBit else 0) + magnitude := by
  have hsign := signBit_eq
  rw [ofMagnitude, UInt64.toNat_ofNat']
  cases negative <;> simp <;> omega

theorem eq_ofMagnitude {x : Number} {negative : Bool} {magnitude : Nat} (h : magnitude < signBit)
    (hbits : x.bits.toNat = (if negative then signBit else 0) + magnitude) :
    x = ofMagnitude negative magnitude := by
  have hsame := hbits.trans (toNat_bits_ofMagnitude negative h).symm
  exact congrArg Number.mk (UInt64.toNat_inj.1 hsame)

/-- A number is its sign and its magnitude. -/
theorem ofMagnitude_magnitude (x : Number) : ofMagnitude x.isNegative x.magnitude = x :=
  (eq_ofMagnitude x.magnitude_lt x.toNat_bits).symm

theorem isNegative_ofMagnitude {magnitude : Nat} (negative : Bool) (h : magnitude < signBit) :
    (ofMagnitude negative magnitude).isNegative = negative := by
  rw [isNegative, toNat_bits_ofMagnitude negative h]
  cases negative
  · simp [h]
  · simp

theorem magnitude_ofMagnitude {magnitude : Nat} (negative : Bool) (h : magnitude < signBit) :
    (ofMagnitude negative magnitude).magnitude = magnitude := by
  rw [Number.magnitude, toNat_bits_ofMagnitude negative h]
  cases negative <;> simp [Nat.mod_eq_of_lt h]

theorem toNat_toBitVec_neg (s : Sign) : (-s).toBitVec.toNat = 1 - s.toBitVec.toNat := by
  cases s <;> rfl

theorem toBitVec_ofBitVec (v : BitVec 1) : (Sign.ofBitVec v).toBitVec = v := by
  revert v
  decide

/-- Only what is not a number has all bits of the exponent and some of the mantissa. -/
theorem mantissa_eq_zero {x : Number} (h : x.isNaN = false)
    (hall : @unpackExponent .binary64 x.bits.toBitVec = -1#11) :
    @unpackMantissa .binary64 x.bits.toBitVec = 0#52 := by
  have hle : x.magnitude ≤ infinityBits := Nat.le_of_not_lt (of_decide_eq_false h)
  have hfields := (toNat_eq_fields x.bits.toBitVec).2
  have hmagnitude : x.magnitude = x.bits.toBitVec.toNat % 2 ^ 63 := rfl
  have hexponent : (@unpackExponent .binary64 x.bits.toBitVec).toNat = 2047 := by
    rw [hall]
    rfl
  have hinfinity := infinityBits_eq
  apply BitVec.eq_of_toNat_eq
  rw [BitVec.toNat_zero]
  omega

theorem toBits_neg {x : Number} (h : x.isNaN = false) :
    (-x.toFloat).toBits.toBitVec = packComponents .binary64
      (-.ofBitVec (@unpackSign .binary64 x.bits.toBitVec))
      (@unpackExponent .binary64 x.bits.toBitVec) (@unpackMantissa .binary64 x.bits.toBitVec) := by
  have hb := mantissa_eq_zero h
  have hread : UnpackedFloat.pack .binary64 (UnpackedFloat.unpack .binary64 x.bits.toBitVec) =
      x.bits.toBitVec := by
    obtain ⟨hsign, hfields⟩ := toNat_eq_fields x.bits.toBitVec
    rw [unpack_eq_resign, pack_resign hb]
    apply BitVec.eq_of_toNat_eq
    rw [toNat_packComponents, toBitVec_ofBitVec, hsign, hfields, Nat.div_add_mod']
  -- the bits are unpacked and packed twice, once to read the number and once to negate it
  have hbits : (-x.toFloat).toBits.toBitVec =
      UnpackedFloat.pack .binary64 (UnpackedFloat.unpack .binary64
        (UnpackedFloat.pack .binary64 (UnpackedFloat.unpack .binary64 x.bits.toBitVec))).neg := rfl
  rw [hbits, hread, unpack_eq_resign, neg_resign, pack_resign hb]

/-- Negation turns the sign around and leaves the magnitude. -/
theorem neg_eq {x : Number} (h : x.isNaN = false) :
    x.neg = ofMagnitude (!x.isNegative) x.magnitude := by
  obtain ⟨hsign, hfields⟩ := toNat_eq_fields x.bits.toBitVec
  have hbits : (-x.toFloat).toBits.toNat =
      (1 - x.bits.toNat / 2 ^ 63) * 2 ^ 63 + x.bits.toNat % 2 ^ 63 := by
    have hword := congrArg BitVec.toNat (toBits_neg h)
    rw [toNat_packComponents, toNat_toBitVec_neg, toBitVec_ofBitVec, hfields, hsign] at hword
    exact hword
  have hturned : (⟨(-x.toFloat).toBits⟩ : Number) = ofMagnitude (!x.isNegative) x.magnitude := by
    apply eq_ofMagnitude x.magnitude_lt
    have hnegative : x.isNegative = decide (signBit ≤ x.bits.toNat) := rfl
    have hmagnitude : x.magnitude = x.bits.toNat % signBit := rfl
    have hword := x.bits.toNat_lt
    rw [hbits, hnegative, hmagnitude, signBit_eq]
    by_cases hle : 9223372036854775808 ≤ x.bits.toNat <;> simp [hle] <;> omega
  rw [neg, ofFloat, hturned]
  have hnumber : (ofMagnitude (!x.isNegative) x.magnitude).isNaN = false := by
    rw [isNaN, magnitude_ofMagnitude _ x.magnitude_lt]
    exact h
  simp [hnumber]

/-! ## The text of a negative number -/

theorem toList_text_of_isNegative {style : Style} {x : Number} (hsign : x.isNegative = true)
    (hnan : x.isNaN = false) : (x.text style).toList = '-' :: magnitudeText style x.magnitude := by
  simp [text, hsign, hnan]

theorem toList_text_neg {style : Style} {x : Number} (hsign : x.isNegative = true)
    (hnan : x.isNaN = false) : (x.text style).toList = '-' :: (x.neg.text style).toList := by
  have hneg : x.neg = ofMagnitude false x.magnitude := by rw [neg_eq hnan, hsign, Bool.not_true]
  rw [toList_text_of_isNegative hsign hnan, hneg,
    toList_text (isNegative_ofMagnitude false x.magnitude_lt),
    magnitude_ofMagnitude false x.magnitude_lt]

end Number

end Lox
