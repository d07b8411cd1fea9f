import Mathlib.Tactic
import Lox.Number.Text
import Lox.Proofs.Rounding

/-!
# Numerals

A numeral is digits, a point and more digits or none, and an exponent or none. What a numeral stands
for can be read off it in one way only (`Numeral.unique`).

The text of a decimal is a numeral that stands for it, however the digits, the point and the
exponent are laid out (`numeral_decimalText`). Since a fraction rounds to one number only, the text
of a finite number is the text of no other (`eq_of_text_eq`).
-/

namespace Lox

/-- What comes before the first member that is not of the sort is settled by the whole. -/
theorem append_inj_of_boundary {α : Type} {p : α → Bool} {xs ys rest rest' : List α}
    (hxs : ∀ a ∈ xs, p a = true) (hys : ∀ a ∈ ys, p a = true)
    (hrest : ∀ a, rest.head? = some a → p a = false)
    (hrest' : ∀ a, rest'.head? = some a → p a = false)
    (h : xs ++ rest = ys ++ rest') : xs = ys ∧ rest = rest' := by
  have htake : ∀ {l tail : List α}, (∀ a ∈ l, p a = true) →
      (∀ a, tail.head? = some a → p a = false) → (l ++ tail).takeWhile p = l := by
    intro l tail hl htail
    rw [List.takeWhile_append_of_pos hl]
    cases tail with
    | nil => simp
    | cons a tail => simp [htail a rfl]
  have hsame : xs = ys := by rw [← htake hxs hrest, h, htake hys hrest']
  subst hsame
  exact ⟨rfl, List.append_cancel_left h⟩

namespace Number

/-! ## Digits -/

theorem digitsValue_eq (cs : List Char) : digitsValue cs = Nat.ofDigitChars 10 cs 0 := rfl

theorem digitsValue_append (cs ds : List Char) :
    digitsValue (cs ++ ds) = digitsValue cs * 10 ^ ds.length + digitsValue ds := by
  rw [digitsValue_eq, Nat.ofDigitChars_append, Nat.ofDigitChars_eq_ofDigitChars_zero, mul_comm]
  rfl

@[simp]
theorem digitsValue_toDigits (n : Nat) : digitsValue (Nat.toDigits 10 n) = n :=
  Nat.ofDigitChars_ten_toDigits

@[simp]
theorem digitsValue_replicate (n : Nat) : digitsValue (List.replicate n '0') = 0 := by
  rw [digitsValue_eq, Nat.ofDigitChars_replicate_zero, mul_zero]

theorem digitsValue_zero_cons (cs : List Char) : digitsValue ('0' :: cs) = digitsValue cs := rfl

/-- All characters are digits. -/
def AllDigits (cs : List Char) : Prop := ∀ c ∈ cs, isDigit c = true

theorem AllDigits.append {cs ds : List Char} (hcs : AllDigits cs) (hds : AllDigits ds) :
    AllDigits (cs ++ ds) := by
  intro c hc
  exact (List.mem_append.1 hc).elim (hcs c) (hds c)

theorem allDigits_toDigits (n : Nat) : AllDigits (Nat.toDigits 10 n) := by
  intro c hc
  have hdigit := Nat.isDigit_of_mem_toDigits (by decide) (by decide) hc
  simpa [Char.isDigit, isDigit, Char.le_def] using hdigit

theorem allDigits_replicate (n : Nat) : AllDigits (List.replicate n '0') := by
  intro c hc
  rw [List.eq_of_mem_replicate hc]
  rfl

/-! ## Numerals -/

/-- An exponent, or none. -/
inductive Scale : List Char → Int → Prop
  | none : Scale [] 0
  | positive {ds : List Char} : AllDigits ds → Scale ('e' :: '+' :: ds) (digitsValue ds)
  | negative {ds : List Char} : AllDigits ds → Scale ('e' :: '-' :: ds) (-digitsValue ds)

/-- The numeral stands for the fraction. -/
inductive Numeral : List Char → ℚ → Prop
  | whole {ds tail : List Char} {e : Int} : ds ≠ [] → AllDigits ds → Scale tail e →
    Numeral (ds ++ tail) (digitsValue ds * 10 ^ e)
  | point {ds fs tail : List Char} {e : Int} : ds ≠ [] → AllDigits ds → AllDigits fs →
    Scale tail e →
    Numeral (ds ++ '.' :: (fs ++ tail)) (digitsValue (ds ++ fs) * 10 ^ (e - fs.length))

theorem Scale.head? {tail : List Char} {e : Int} (h : Scale tail e) :
    ∀ c, tail.head? = some c → c = 'e' := by
  intro c hc
  cases h with
  | none => cases hc
  | positive _ => exact (Option.some.inj hc).symm
  | negative _ => exact (Option.some.inj hc).symm

theorem Scale.unique {tail : List Char} {e e' : Int} (h : Scale tail e) (h' : Scale tail e') :
    e = e' := by
  cases h <;> cases h' <;> rfl

theorem Numeral.unique {cs : List Char} {v v' : ℚ} (h : Numeral cs v) (h' : Numeral cs v') :
    v = v' := by
  have hscale : ∀ {tail : List Char} {e : Int}, Scale tail e →
      ∀ c, tail.head? = some c → isDigit c = false := by
    intro tail e htail c hc
    rw [htail.head? c hc]
    rfl
  have hpoint : ∀ tail : List Char, ∀ c, ('.' :: tail).head? = some c → isDigit c = false := by
    rintro tail c ⟨⟩
    rfl
  generalize hcs : cs = cs' at h'
  cases h with
  | whole hne hds htail =>
    cases h' with
    | whole hne' hds' htail' =>
      obtain ⟨rfl, rfl⟩ := append_inj_of_boundary hds hds' (hscale htail) (hscale htail') hcs
      rw [htail.unique htail']
    | point hne' hds' hfs' htail' =>
      obtain ⟨-, htails⟩ := append_inj_of_boundary hds hds' (hscale htail) (hpoint _) hcs
      have hcontra := htail.head? '.' (by rw [htails]; rfl)
      cases hcontra
  | point hne hds hfs htail =>
    cases h' with
    | whole hne' hds' htail' =>
      obtain ⟨-, htails⟩ := append_inj_of_boundary hds hds' (hpoint _) (hscale htail') hcs
      have hcontra := htail'.head? '.' (by rw [← htails]; rfl)
      cases hcontra
    | point hne' hds' hfs' htail' =>
      obtain ⟨rfl, hrest⟩ := append_inj_of_boundary hds hds' (hpoint _) (hpoint _) hcs
      obtain ⟨rfl, rfl⟩ := append_inj_of_boundary hfs hfs' (hscale htail) (hscale htail')
        (List.cons.inj hrest).2
      rw [htail.unique htail']

/-- A numeral begins with a digit. -/
theorem Numeral.head {cs : List Char} {v : ℚ} (h : Numeral cs v) :
    ∃ c rest, cs = c :: rest ∧ isDigit c = true := by
  have hfirst : ∀ {ds rest : List Char}, ds ≠ [] → AllDigits ds →
      ∃ c tail, ds ++ rest = c :: tail ∧ isDigit c = true := by
    intro ds rest hne hds
    obtain ⟨c, tail, rfl⟩ := List.exists_cons_of_ne_nil hne
    exact ⟨c, tail ++ rest, rfl, hds c List.mem_cons_self⟩
  cases h with
  | whole hne hds _ => exact hfirst hne hds
  | point hne hds _ _ => exact hfirst hne hds

theorem Numeral.mem {cs : List Char} {v : ℚ} (h : Numeral cs v) :
    ∀ c ∈ cs, isDigit c = true ∨ c ∈ ['.', 'e', '+', '-'] := by
  have hscale : ∀ {tail : List Char} {e : Int}, Scale tail e →
      ∀ c ∈ tail, isDigit c = true ∨ c ∈ ['.', 'e', '+', '-'] := by
    intro tail e htail c hc
    cases htail with
    | none => cases hc
    | positive hds | negative hds =>
      simp only [List.mem_cons] at hc
      rcases hc with rfl | rfl | hc
      · simp
      · simp
      · exact .inl (hds c hc)
  intro c hc
  cases h with
  | whole _ hds htail =>
    exact (List.mem_append.1 hc).elim (fun hc => .inl (hds c hc)) (hscale htail c)
  | point _ hds hfs htail =>
    rcases List.mem_append.1 hc with hc | hc
    · exact .inl (hds c hc)
    rcases List.mem_cons.1 hc with rfl | hc
    · simp
    · exact (List.mem_append.1 hc).elim (fun hc => .inl (hfs c hc)) (hscale htail c)

/-! ## The text of a decimal -/

/-- The two ways in which a whole number can end. -/
def Style.IsPlain (style : Style) : Prop := style.whole = [] ∨ style.whole = ['.', '0']

/-- Digits before and after a point. -/
theorem numeral_point {ds fs : List Char} (hne : ds ≠ []) (hds : AllDigits ds)
    (hfs : AllDigits fs) :
    Numeral (ds ++ '.' :: fs) (digitsValue (ds ++ fs) * 10 ^ (-fs.length : Int)) := by
  have h := Numeral.point hne hds hfs .none
  rwa [List.append_nil, zero_sub] at h

/-- A whole number is written with a point and a zero after it, or without. -/
theorem numeral_whole {style : Style} (hstyle : style.IsPlain) {ds : List Char} (hne : ds ≠ [])
    (hds : AllDigits ds) : Numeral (ds ++ style.whole) (digitsValue ds) := by
  rcases hstyle with hwhole | hwhole
  · have h := Numeral.whole hne hds .none
    rwa [zpow_zero, mul_one, ← hwhole] at h
  · have h := numeral_point hne hds (allDigits_replicate 1)
    have hvalue : (digitsValue (ds ++ List.replicate 1 '0') : ℚ) *
        10 ^ (-(List.replicate 1 '0').length : Int) = digitsValue ds := by
      rw [digitsValue_append, digitsValue_replicate]
      simp
    rw [hvalue] at h
    rwa [hwhole]

theorem scale_exponentText (e : Int) : Scale ('e' :: exponentText e) e := by
  unfold exponentText
  -- a zero in front of a single digit changes nothing
  have hpadded : ∀ ds : List Char, AllDigits ds → digitsValue ds = e.natAbs →
      AllDigits (if ds.length < 2 then '0' :: ds else ds) ∧
        digitsValue (if ds.length < 2 then '0' :: ds else ds) = e.natAbs := by
    intro ds hds hvalue
    split
    · exact ⟨(allDigits_replicate 1).append hds, hvalue⟩
    · exact ⟨hds, hvalue⟩
  obtain ⟨hds, hvalue⟩ := hpadded _ (allDigits_toDigits e.natAbs) (digitsValue_toDigits e.natAbs)
  split
  · have h := Scale.negative hds
    rwa [hvalue, show -(e.natAbs : Int) = e by omega] at h
  · have h := Scale.positive hds
    rwa [hvalue, show (e.natAbs : Int) = e by omega] at h

theorem numeral_positionalText {style : Style} (hstyle : style.IsPlain) (d : Decimal) :
    Numeral (positionalText style d) d.value := by
  have hvalue := digitsValue_toDigits d.digits
  have hdigits := allDigits_toDigits d.digits
  have hne : Nat.toDigits 10 d.digits ≠ [] := Nat.toDigits_ne_nil
  simp only [positionalText, Decimal.value]
  generalize Nat.toDigits 10 d.digits = ds at hvalue hdigits hne ⊢
  split
  · rename_i hexponent
    obtain ⟨zeros, hzeros⟩ := Int.eq_ofNat_of_zero_le hexponent
    have h := numeral_whole hstyle (List.append_ne_nil_of_left_ne_nil hne _)
      (hdigits.append (allDigits_replicate zeros))
    rw [digitsValue_append, hvalue, digitsValue_replicate, List.length_replicate, add_zero] at h
    rw [hzeros, Int.toNat_natCast, zpow_natCast]
    exact_mod_cast h
  · rename_i hexponent
    obtain ⟨places, hplaces⟩ : ∃ places : Nat, d.exponent = -places :=
      ⟨d.exponent.natAbs, by omega⟩
    rw [hplaces, neg_neg, Int.toNat_natCast]
    split
    · rename_i hlt
      have hdrop : (ds.drop (ds.length - places)).length = places := by
        rw [List.length_drop]
        omega
      have htake : ds.take (ds.length - places) ≠ [] := by
        rw [Ne, List.take_eq_nil_iff]
        exact not_or_intro (by omega) hne
      have h := numeral_point htake (fun c hc => hdigits c (List.mem_of_mem_take hc))
        fun c (hc : c ∈ ds.drop (ds.length - places)) => hdigits c (List.mem_of_mem_drop hc)
      rwa [List.take_append_drop, hvalue, hdrop] at h
    · rename_i hge
      have hlength : (List.replicate (places - ds.length) '0' ++ ds).length = places := by
        rw [List.length_append, List.length_replicate]
        omega
      have hsame : digitsValue (['0'] ++ (List.replicate (places - ds.length) '0' ++ ds)) =
          d.digits := by
        rw [List.singleton_append, digitsValue_zero_cons, digitsValue_append,
          digitsValue_replicate, hvalue, zero_mul, zero_add]
      have h := numeral_point (List.cons_ne_nil '0' []) (allDigits_replicate 1)
        ((allDigits_replicate (places - ds.length)).append hdigits)
      rwa [hsame, hlength] at h

theorem numeral_scientificText (d : Decimal) : Numeral (scientificText d) d.value := by
  have hdigits := allDigits_toDigits d.digits
  have hvalue := digitsValue_toDigits d.digits
  simp only [scientificText]
  split
  · rename_i first heq
    rw [heq] at hdigits hvalue
    have hleading : d.leading = d.exponent := by
      rw [Decimal.leading, heq, List.length_singleton]
      omega
    have h := Numeral.whole (by simp) hdigits (scale_exponentText d.leading)
    rw [hvalue, hleading] at h
    rw [hleading]
    exact h
  · rename_i first rest _ heq
    rw [heq] at hdigits hvalue
    have hleading : d.leading - rest.length = d.exponent := by
      rw [Decimal.leading, heq, List.length_cons]
      push_cast
      omega
    have h : Numeral ([first] ++ '.' :: (rest ++ 'e' :: exponentText d.leading)) _ :=
      .point (by simp) (fun c hc => hdigits c (by simp_all)) (fun c hc => hdigits c (by simp_all))
        (scale_exponentText d.leading)
    rw [hleading, List.singleton_append, List.singleton_append, hvalue] at h
    exact h
  · rename_i heq
    exact absurd heq Nat.toDigits_ne_nil

theorem numeral_decimalText {style : Style} (hstyle : style.IsPlain) (d : Decimal) :
    Numeral (decimalText style d) d.value := by
  unfold decimalText
  split
  · exact numeral_positionalText hstyle d
  · exact numeral_scientificText d

/-! ## The text of a number -/

theorem exists_numeral {style : Style} (hstyle : style.IsPlain) {magnitude : Nat}
    (hfinite : magnitude < infinityBits) :
    ∃ v, Numeral (magnitudeText style magnitude) v ∧ RoundsTo v magnitude := by
  unfold magnitudeText
  split
  · rename_i hzero
    subst hzero
    have h := numeral_whole hstyle (List.cons_ne_nil '0' []) (allDigits_replicate 1)
    exact ⟨0, by exact_mod_cast h, roundsTo_zero⟩
  · rw [if_neg hfinite.not_gt, if_neg hfinite.ne]
    exact ⟨_, numeral_decimalText hstyle _, roundsTo_shortest magnitude⟩

/-- A finite magnitude is written as no other is. -/
theorem magnitudeText_inj {style : Style} (hstyle : style.IsPlain) {m n : Nat}
    (hm : m < infinityBits) (hn : n < infinityBits)
    (h : magnitudeText style m = magnitudeText style n) : m = n := by
  obtain ⟨v, hv, hvm⟩ := exists_numeral hstyle hm
  obtain ⟨w, hw, hwn⟩ := exists_numeral hstyle hn
  rw [h] at hv
  obtain rfl := hv.unique hw
  exact hvm.unique hwn

theorem toList_text {style : Style} {x : Number} (hsign : x.isNegative = false) :
    (x.text style).toList = magnitudeText style x.magnitude := by
  simp [text, hsign]

theorem eq_of_magnitude_eq {x y : Number} (hx : x.isNegative = false) (hy : y.isNegative = false)
    (h : x.magnitude = y.magnitude) : x = y := by
  have hbits : ∀ {z : Number}, z.isNegative = false → z.magnitude = z.bits.toNat := by
    intro z hz
    exact Nat.mod_eq_of_lt (Nat.lt_of_not_le (of_decide_eq_false hz))
  rw [hbits hx, hbits hy] at h
  exact congrArg Number.mk (UInt64.toNat_inj.1 h)

/-- The text of a finite number without a sign is the text of no other. -/
theorem eq_of_text_eq {style : Style} (hstyle : style.IsPlain) {x y : Number}
    (hx : x.isNegative = false) (hxfinite : x.magnitude < infinityBits)
    (hy : y.isNegative = false) (hyfinite : y.magnitude < infinityBits)
    (h : x.text style = y.text style) : x = y := by
  have htexts : magnitudeText style x.magnitude = magnitudeText style y.magnitude := by
    rw [← toList_text hx, ← toList_text hy, h]
  exact eq_of_magnitude_eq hx hy (magnitudeText_inj hstyle hxfinite hyfinite htexts)

end Number

end Lox
