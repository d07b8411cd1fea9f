import Mathlib.Tactic
import Lox.Store
import Lox.Proofs.Signs

/-!
# Equality

Two values are equal when what is compared of them is the same, and neither is nil
(`Value.isEqual_iff`). So equality is symmetric and transitive, and nil is the one value that is not
equal to itself.

All that is not a number is compared as one number and printed as one word. The text of any other
number tells its sign, whether it is infinite, and the finite number it rounds to, so that two
numbers are equal exactly when their texts are (`Number.same_iff_text_eq`).
-/

namespace Lox

/-! ## What is compared -/

namespace Number

/-- What is not a number has many bits, and counts as one. -/
def canonical (x : Number) : Number := if x.isNaN then nan else x

theorem same_iff_canonical_eq {x y : Number} : x.same y = true ↔ x.canonical = y.canonical := by
  have hnan : nan.isNaN = true := rfl
  rw [same, Bool.or_eq_true, Bool.and_eq_true, beq_iff_eq, canonical, canonical]
  by_cases hx : x.isNaN = true <;> by_cases hy : y.isNaN = true
  · simp [hx, hy]
  · have hne : y ≠ nan := by
      rintro rfl
      exact hy hnan
    have hxy : x ≠ y := by
      rintro rfl
      exact hy hx
    simp [hx, hy, hxy, hne.symm]
  · have hne : x ≠ nan := by
      rintro rfl
      exact hx hnan
    have hxy : x ≠ y := by
      rintro rfl
      exact hx hy
    simp [hx, hy, hxy, hne]
  · simp [hx, hy]

end Number

namespace Value

/-- What equality compares of a value. -/
def compared : Value → Value ⊕ Quotation.Identity
  | number x => .inl (.number x.canonical)
  | quoted q => .inr q.identity
  | v => .inl v

theorem isEqual_iff {a b : Value} :
    a.isEqual b = true ↔ a ≠ .nil ∧ a.compared = b.compared := by
  cases a <;> cases b <;>
    simp [isEqual, compared, Number.same_iff_canonical_eq]

theorem compared_ne_nil {a b : Value} (ha : a ≠ .nil) (h : a.compared = b.compared) : b ≠ .nil := by
  rintro rfl
  cases a <;> simp_all [compared]

theorem isEqual_symm {a b : Value} (h : a.isEqual b = true) : b.isEqual a = true := by
  obtain ⟨ha, hab⟩ := isEqual_iff.1 h
  exact isEqual_iff.2 ⟨compared_ne_nil ha hab, hab.symm⟩

theorem isEqual_trans {a b c : Value} (hab : a.isEqual b = true) (hbc : b.isEqual c = true) :
    a.isEqual c = true := by
  obtain ⟨ha, hab⟩ := isEqual_iff.1 hab
  obtain ⟨-, hbc⟩ := isEqual_iff.1 hbc
  exact isEqual_iff.2 ⟨ha, hab.trans hbc⟩

theorem isEqual_self_iff {a : Value} : a.isEqual a = true ↔ a ≠ .nil := by
  simp [isEqual_iff]

end Value

/-! ## What is printed -/

namespace Number

theorem toList_text_of_isNaN {style : Style} {x : Number} (h : x.isNaN = true) :
    (x.text style).toList = style.nan := by
  have hlt : infinityBits < x.magnitude := of_decide_eq_true h
  have hpos : x.magnitude ≠ 0 := Nat.ne_zero_of_lt hlt
  simp [text, magnitudeText, h, hlt, hpos]

theorem magnitudeText_infinityBits (style : Style) :
    magnitudeText style infinityBits = style.infinity := by
  have hpos : infinityBits ≠ 0 := by decide
  simp [magnitudeText, hpos]

/-- A magnitude begins with a digit, or is infinite. -/
theorem head_magnitudeText {m : Nat} (h : m ≤ infinityBits) :
    ∃ c rest, magnitudeText .printed m = c :: rest ∧
      (m < infinityBits ∧ isDigit c = true ∨ m = infinityBits ∧ c = 'I') := by
  rcases h.lt_or_eq with hlt | rfl
  · have hplain : Style.printed.IsPlain := .inl rfl
    obtain ⟨v, hv, -⟩ := exists_numeral hplain hlt
    obtain ⟨c, rest, htext, hc⟩ := hv.head
    exact ⟨c, rest, htext, .inl ⟨hlt, hc⟩⟩
  · exact ⟨'I', _, magnitudeText_infinityBits .printed, .inr ⟨rfl, rfl⟩⟩

theorem magnitudeText_printed_inj {m n : Nat} (hm : m ≤ infinityBits) (hn : n ≤ infinityBits)
    (h : magnitudeText .printed m = magnitudeText .printed n) : m = n := by
  obtain ⟨c, rest, hc, hcm⟩ := head_magnitudeText hm
  obtain ⟨d, rest', hd, hdn⟩ := head_magnitudeText hn
  obtain ⟨rfl, -⟩ := List.cons.inj ((hc.symm.trans h).trans hd)
  rcases hcm with ⟨hm, hdigit⟩ | ⟨rfl, rfl⟩ <;> rcases hdn with ⟨hn, hdigit'⟩ | ⟨rfl, hI⟩
  · have hplain : Style.printed.IsPlain := .inl rfl
    exact magnitudeText_inj hplain hm hn h
  · subst hI
    exact absurd hdigit (by decide)
  · exact absurd hdigit' (by decide)
  · rfl

/-- The first character of a text says whether the number is negative, or not a number. -/
theorem head_text {x : Number} (h : x.isNaN = false) :
    ∃ c rest, (x.text .printed).toList = c :: rest ∧ c ≠ 'N' ∧ (c = '-' ↔ x.isNegative = true) := by
  have hle : x.magnitude ≤ infinityBits := not_lt.1 (of_decide_eq_false h)
  by_cases hsign : x.isNegative = true
  · exact ⟨'-', _, toList_text_of_isNegative hsign h, by decide, by simp [hsign]⟩
  · obtain ⟨c, rest, htext, hc⟩ := head_magnitudeText hle
    refine ⟨c, rest, by rw [toList_text (by simpa using hsign), htext], ?_⟩
    have hother : c ≠ 'N' ∧ c ≠ '-' := by
      rcases hc with ⟨-, hdigit⟩ | ⟨-, rfl⟩
      · constructor <;> rintro rfl <;> exact absurd hdigit (by decide)
      · decide
    exact ⟨hother.1, by simp [hother.2, hsign]⟩

theorem eq_of_text_printed_eq {x y : Number} (hx : x.isNaN = false) (hy : y.isNaN = false)
    (h : x.text .printed = y.text .printed) : x = y := by
  obtain ⟨c, rest, hc, -, hcsign⟩ := head_text hx
  obtain ⟨d, rest', hd, -, hdsign⟩ := head_text hy
  rw [← h, hc] at hd
  obtain ⟨rfl, -⟩ := List.cons.inj hd
  have hsign : x.isNegative = y.isNegative := Bool.eq_iff_iff.2 (hcsign.symm.trans hdsign)
  have htexts : magnitudeText .printed x.magnitude = magnitudeText .printed y.magnitude := by
    by_cases hneg : x.isNegative = true
    · have htails := congrArg (fun t => t.toList.tail) h
      rwa [toList_text_of_isNegative hneg hx, toList_text_of_isNegative (hsign ▸ hneg) hy] at htails
    · rw [Bool.not_eq_true] at hneg
      rw [← toList_text hneg, ← toList_text (hsign ▸ hneg), h]
  have hmagnitude := magnitudeText_printed_inj (not_lt.1 (of_decide_eq_false hx))
    (not_lt.1 (of_decide_eq_false hy)) htexts
  rw [← ofMagnitude_magnitude x, ← ofMagnitude_magnitude y, hsign, hmagnitude]

theorem text_ne_of_isNaN {x y : Number} (hx : x.isNaN = true) (hy : y.isNaN = false) :
    x.text .printed ≠ y.text .printed := by
  intro h
  obtain ⟨c, rest, hc, hne, -⟩ := head_text hy
  rw [← h, toList_text_of_isNaN hx] at hc
  exact hne (List.cons.inj hc).1.symm

/-- Two numbers are the same exactly when they are printed alike. -/
theorem same_iff_text_eq (x y : Number) : x.same y = true ↔ x.text .printed = y.text .printed := by
  rw [same, Bool.or_eq_true, Bool.and_eq_true, beq_iff_eq]
  by_cases hx : x.isNaN = true <;> by_cases hy : y.isNaN = true
  · have htext : x.text .printed = y.text .printed := by
      rw [← String.toList_inj, toList_text_of_isNaN hx, toList_text_of_isNaN hy]
    simp [hx, hy, htext]
  · have hne := text_ne_of_isNaN hx (Bool.not_eq_true _ ▸ hy)
    have hxy : x ≠ y := fun h => hne (congrArg _ h)
    simp [hy, hne, hxy]
  · have hne := (text_ne_of_isNaN hy (Bool.not_eq_true _ ▸ hx)).symm
    have hxy : x ≠ y := fun h => hne (congrArg _ h)
    simp [hx, hne, hxy]
  · rw [Bool.not_eq_true] at hx hy
    simp only [hx, Bool.false_eq_true, false_and, false_or]
    exact ⟨congrArg _, eq_of_text_printed_eq hx hy⟩

end Number

/-- Equality is symmetric and transitive, fails to be reflexive at nil alone, and on numbers says
whether they are printed alike. -/
theorem isEqual_partial_equivalence (s : Store) :
    (∀ a b : Value, a.isEqual b = true → b.isEqual a = true) ∧
    (∀ a b c : Value, a.isEqual b = true → b.isEqual c = true → a.isEqual c = true) ∧
    (∀ a : Value, a.isEqual a = true ↔ a ≠ .nil) ∧
    ∀ x y : Number, (Value.number x).isEqual (.number y) = true ↔
      s.stringify (.number x) = s.stringify (.number y) :=
  ⟨fun _ _ => Value.isEqual_symm, fun _ _ _ => Value.isEqual_trans,
    fun _ => Value.isEqual_self_iff, Number.same_iff_text_eq⟩

/-- Whatever is not a number is equal to what is not a number, in either order and by way of a
third, and is printed alike; the two zeros are apart. -/
theorem isEqual_partial_equivalence_nan :
    (Value.number ⟨0xFFF8000000000001⟩).isEqual (.number .nan) = true ∧
    (Value.number .nan).isEqual (.number ⟨0x7FF8000000000002⟩) = true ∧
    Store.stringify default (.number .nan) =
      Store.stringify default (.number ⟨0xFFF8000000000001⟩) ∧
    Store.stringify default (.number .zero) ≠
      Store.stringify default (.number ⟨0x8000000000000000⟩) := by
  obtain ⟨hsymm, htrans, -, htext⟩ := isEqual_partial_equivalence default
  have hnan : (Value.number .nan).isEqual (.number ⟨0xFFF8000000000001⟩) = true := by decide
  refine ⟨hsymm _ _ hnan, htrans _ _ _ hnan (by decide), (htext _ _).1 hnan, ?_⟩
  rw [Ne, ← htext]
  decide

end Lox
