import Mathlib.Tactic
import Lox.Store
import Lox.Proofs.Lexicon
import Lox.Proofs.Nearest
import Lox.Proofs.Signs

/-!
# Printed numbers read back

The text of a number lexeme is a numeral, and its literal the number nearest to what the numeral
stands for (`Lexeme.numeral`). A number written without an exponent is printed as such a lexeme
(`exists_lexeme_magnitudeText`), and since its text rounds to it, the nearest number is the one that
was printed (`Lexeme.literal_eq`). The minus of a negative number is a token of its own.
-/

namespace Lox

open Number

/-! ## Lexemes on their own -/

namespace Scan

variable {kind : TokenKind} {cs : List Char} {literal : Literal}

/-- No lexeme opens a comment. -/
theorem Lexeme.not_starts_slashes (h : Lexeme kind cs literal) : ¬ ['/', '/'] <+: cs := by
  obtain ⟨c, rest, rfl, hfollows⟩ := h.follows
  intro hprefix
  obtain ⟨rfl, hrest⟩ := List.cons_prefix_cons.1 hprefix
  rcases hfollows.of_isSymbol (by decide) with rfl | ⟨rfl, -⟩
  · exact absurd hrest (by decide)
  · exact absurd hrest (by decide)

theorem Lexeme.pieces_eq (h : Lexeme kind cs literal) :
    pieces cs = [.token kind cs literal] := by
  have hcut : Cut (.token kind cs literal) [] := by
    refine .lexeme h (fun kind' longer literal' hprefix _ => ?_) ?_
    · rw [List.append_nil] at hprefix
      exact hprefix.length_le
    · rw [List.append_nil]
      exact h.not_starts_slashes
  have htiles := Tiles.cons hcut .nil
  rw [List.append_nil] at htiles
  exact htiles.eq_pieces.symm

theorem Lexeme.numeral (h : Lexeme .number cs literal) :
    ∃ whole fraction, literal = .number (ofDigits whole fraction) ∧
      Numeral cs (Decimal.value ⟨digitsValue (whole ++ fraction), -fraction.length⟩) := by
  generalize hkind : TokenKind.number = kind at h
  cases h with
  | operator hmem =>
    subst hkind
    exact absurd hmem (by simp [operators])
  | keyword hmem =>
    subst hkind
    exact absurd hmem (by simp [keywords])
  | identifier _ _ _ => cases hkind
  | whole hne hds =>
    have h := Numeral.whole hne (forall_isDigit.2 hds) .none
    rw [List.append_nil] at h
    exact ⟨_, [], rfl, by simpa [Decimal.value] using h⟩
  | fraction hne hds _ hfs =>
    exact ⟨_, _, rfl, numeral_point hne (forall_isDigit.2 hds) (forall_isDigit.2 hfs)⟩

/-- The text of a number reads as that number. -/
theorem Lexeme.literal_eq {magnitude : Nat}
    (h : Lexeme .number (magnitudeText .printed magnitude) literal)
    (hfinite : magnitude < infinityBits) : literal = .number (ofMagnitude false magnitude) := by
  obtain ⟨whole, fraction, rfl, hnumeral⟩ := h.numeral
  have hplain : Style.printed.IsPlain := .inl rfl
  obtain ⟨v, hv, hrounds⟩ := exists_numeral hplain hfinite
  rw [hv.unique hnumeral] at hrounds
  rw [ofDigits, nearestDecimal_eq hrounds hfinite]

theorem Lexeme.count_newline (h : Lexeme .number cs literal) : cs.count '\n' = 0 := by
  obtain ⟨_, _, -, hnumeral⟩ := h.numeral
  refine List.count_eq_zero.2 fun hmem => ?_
  exact absurd (hnumeral.mem _ hmem) (by decide)

end Scan

/-! ## Numbers written without an exponent -/

namespace Number

open Scan (Lexeme forall_isDigit)

theorem exists_lexeme_positionalText (d : Decimal) :
    ∃ literal, Lexeme .number (positionalText .printed d) literal := by
  have hdigits := allDigits_toDigits d.digits
  have hne : Nat.toDigits 10 d.digits ≠ [] := Nat.toDigits_ne_nil
  simp only [positionalText]
  generalize Nat.toDigits 10 d.digits = ds at hdigits hne ⊢
  split
  · have hwhole : Style.printed.whole = [] := rfl
    rw [hwhole, List.append_nil]
    exact ⟨_, .whole (List.append_ne_nil_of_left_ne_nil hne _)
      (forall_isDigit.1 (hdigits.append (allDigits_replicate _)))⟩
  split
  · rename_i hexponent hlt
    have htake : ds.take (ds.length - (-d.exponent).toNat) ≠ [] := by
      rw [Ne, List.take_eq_nil_iff]
      exact not_or_intro (by omega) hne
    have hdrop : ds.drop (ds.length - (-d.exponent).toNat) ≠ [] := by
      rw [Ne, List.drop_eq_nil_iff]
      omega
    have hall := forall_isDigit.1 hdigits
    exact ⟨_, .fraction htake (fun c hc => hall c (List.mem_of_mem_take hc)) hdrop
      fun c hc => hall c (List.mem_of_mem_drop hc)⟩
  · exact ⟨_, .fraction (List.cons_ne_nil '0' []) (forall_isDigit.1 (allDigits_replicate 1))
      (List.append_ne_nil_of_right_ne_nil _ hne)
      (forall_isDigit.1 ((allDigits_replicate _).append hdigits))⟩

theorem mem_scientificText (d : Decimal) : 'e' ∈ scientificText d :=
  List.mem_append_right _ List.mem_cons_self

/-- Whether a text has an exponent does not depend on how whole numbers end. -/
theorem exists_lexeme_magnitudeText {magnitude : Nat} (hfinite : magnitude < infinityBits)
    (hpositional : 'e' ∉ magnitudeText .literal magnitude) :
    ∃ literal, Lexeme .number (magnitudeText .printed magnitude) literal := by
  unfold magnitudeText at hpositional ⊢
  by_cases hzero : magnitude = 0
  · rw [if_pos hzero]
    exact ⟨_, .whole (List.cons_ne_nil _ _) (forall_isDigit.1 (allDigits_replicate 1))⟩
  rw [if_neg hzero, if_neg hfinite.not_gt, if_neg hfinite.ne] at hpositional ⊢
  unfold decimalText at hpositional ⊢
  split
  · exact exists_lexeme_positionalText _
  · rename_i hscientific
    rw [if_neg hscientific] at hpositional
    exact absurd (mem_scientificText _) hpositional

theorem mem_text_of_mem_magnitudeText {style : Style} {x : Number} {c : Char}
    (h : c ∈ magnitudeText style x.magnitude) : c ∈ (x.text style).toList := by
  rw [text, String.toList_ofList]
  split
  · exact List.mem_cons_of_mem _ h
  · exact h

theorem lexeme_text {x : Number} (hfinite : x.magnitude < infinityBits)
    (hsign : x.isNegative = false) (hpositional : 'e' ∉ (x.text .literal).toList) :
    Lexeme .number (x.text .printed).toList (.number x) := by
  obtain ⟨literal, hlexeme⟩ := exists_lexeme_magnitudeText hfinite
    fun hmem => hpositional (mem_text_of_mem_magnitudeText hmem)
  have hliteral : literal = .number x := by
    rw [hlexeme.literal_eq hfinite, ← hsign, ofMagnitude_magnitude]
  rw [toList_text hsign, ← hliteral]
  exact hlexeme

end Number

open Scan

theorem scan_eq_of_lexeme {source : String} {literal : Literal}
    (h : Lexeme .number source.toList literal) :
    scan source = ⟨[⟨.number, source, literal, 1⟩, ⟨.eof, "", .nil, 1⟩], []⟩ := by
  simp [scan, h.pieces_eq, tokens, faults, Piece.lineBreaks, Piece.chars, h.count_newline]

theorem scan_eq_of_minus_lexeme {source text : String} {literal : Literal}
    (hsource : source.toList = '-' :: text.toList) (h : Lexeme .number text.toList literal) :
    scan source =
      ⟨[⟨.minus, "-", .nil, 1⟩, ⟨.number, text, literal, 1⟩, ⟨.eof, "", .nil, 1⟩], []⟩ := by
  have hpieces : pieces source.toList =
      [.token .minus ['-'] .nil, .token .number text.toList literal] := by
    rw [hsource, pieces]
    simp only [next, mark?, h.pieces_eq]
  simp [scan, hpieces, tokens, faults, Piece.lineBreaks, Piece.chars, h.count_newline]

/-- A finite number that is written without an exponent is printed as a text that reads back as it:
one number token, or a minus and the number token of its negation. -/
theorem scan_stringify_number (s : Store) (x : Number) (hnan : x.isNaN = false)
    (hinfinite : x.isInfinite = false) (hpositional : 'e' ∉ (x.text .literal).toList) :
    (x.isNegative = false → scan (s.stringify (.number x)) =
      ⟨[⟨.number, s.stringify (.number x), .number x, 1⟩, ⟨.eof, "", .nil, 1⟩], []⟩) ∧
    (x.isNegative = true → scan (s.stringify (.number x)) =
      ⟨[⟨.minus, "-", .nil, 1⟩, ⟨.number, s.stringify (.number x.neg), .number x.neg, 1⟩,
        ⟨.eof, "", .nil, 1⟩], []⟩) := by
  have hfinite : x.magnitude < infinityBits :=
    lt_of_le_of_ne (not_lt.1 (of_decide_eq_false hnan)) (beq_eq_false_iff_ne.1 hinfinite)
  refine ⟨fun hsign => ?_, fun hsign => ?_⟩
  · exact scan_eq_of_lexeme (lexeme_text hfinite hsign hpositional)
  · have hneg : x.neg = ofMagnitude false x.magnitude := by rw [neg_eq hnan, hsign, Bool.not_true]
    have hmagnitude : x.neg.magnitude = x.magnitude := by
      rw [hneg, magnitude_ofMagnitude false x.magnitude_lt]
    refine scan_eq_of_minus_lexeme (toList_text_neg hsign hnan) (lexeme_text ?_ ?_ ?_)
    · rwa [hmagnitude]
    · rw [hneg, isNegative_ofMagnitude false x.magnitude_lt]
    · rw [toList_text_neg hsign hnan] at hpositional
      exact fun hmem => hpositional (List.mem_cons_of_mem _ hmem)

theorem scan_stringify_tenth :
    scan (Store.stringify default (.number ⟨0x3FB999999999999A⟩)) =
      ⟨[⟨.number, "0.1", .number ⟨0x3FB999999999999A⟩, 1⟩, ⟨.eof, "", .nil, 1⟩], []⟩ ∧
    scan (Store.stringify default (.number ⟨0xBFB999999999999A⟩)) =
      ⟨[⟨.minus, "-", .nil, 1⟩, ⟨.number, "0.1", .number ⟨0x3FB999999999999A⟩, 1⟩,
        ⟨.eof, "", .nil, 1⟩], []⟩ :=
  ⟨(scan_stringify_number default ⟨0x3FB999999999999A⟩ (by decide) (by decide)
      (by decide +kernel)).1 (by decide),
    (scan_stringify_number default ⟨0xBFB999999999999A⟩ (by decide) (by decide)
      (by decide +kernel)).2 (by decide)⟩

end Lox
