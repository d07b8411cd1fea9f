import Mathlib.Data.List.TakeWhile
import Mathlib.Tactic
import Lox.Proofs.Scanning

/-!
# The lexicon

The lexicon says which texts are lexemes, and of what kind, without saying how they are found
(`Lexeme`). Its words and characters are listed here, and the tests by which they are found are
proved to agree with the lists (`isDigit_iff`, `isLetter_iff`). A source is tiled by pieces when
they make it up in order and each of them is what has to stand before the rest (`Cut`): a lexeme
only if none longer starts there, a stray character only if nothing else starts there, and an open
string only at the end.

Every source has one tiling, which is the one that scanning finds, and its tokens and faults are on
the lines on which their pieces end (`scan_eq_iff_tiles`).
-/

namespace Lox

namespace Scan

/-- The operators and marks. -/
def operators : List (String × TokenKind) :=
  [("(", .leftParen), (")", .rightParen), ("\x7b", .leftBrace), ("\x7d", .rightBrace),
   (",", .comma), (".", .dot), ("-", .minus), ("+", .plus), (";", .semicolon), ("*", .star),
   ("/", .slash), ("!", .bang), ("!=", .bangEqual), ("=", .equal), ("==", .equalEqual),
   ("<", .less), ("<=", .lessEqual), (">", .greater), (">=", .greaterEqual)]

def keywords : List (String × TokenKind) :=
  [("and", .andWord), ("class", .classWord), ("else", .elseWord), ("false", .falseWord),
   ("for", .forWord), ("fun", .funWord), ("if", .ifWord), ("nil", .nilWord), ("or", .orWord),
   ("print", .printWord), ("return", .returnWord), ("super", .superWord), ("this", .thisWord),
   ("true", .trueWord), ("var", .varWord), ("while", .whileWord)]

def digits : List Char := ['0', '1', '2', '3', '4', '5', '6', '7', '8', '9']

/-- The characters that words begin with. -/
def letters : List Char :=
  ['a', 'b', 'c', 'd', 'e', 'f', 'g', 'h', 'i', 'j', 'k', 'l', 'm', 'n', 'o', 'p', 'q', 'r', 's',
   't', 'u', 'v', 'w', 'x', 'y', 'z', 'A', 'B', 'C', 'D', 'E', 'F', 'G', 'H', 'I', 'J', 'K', 'L',
   'M', 'N', 'O', 'P', 'Q', 'R', 'S', 'T', 'U', 'V', 'W', 'X', 'Y', 'Z', '_']

/-- A text that is a lexeme, with its kind and its literal. Strings are not among them, for where a
string ends does not depend on how long it gets. -/
inductive Lexeme : TokenKind → List Char → Literal → Prop
  | operator {text : String} {kind : TokenKind} :
    (text, kind) ∈ operators → Lexeme kind text.toList .nil
  | whole {ds : List Char} : ds ≠ [] → (∀ d ∈ ds, d ∈ digits) →
    Lexeme .number ds (.number (.ofDigits ds []))
  | fraction {ds places : List Char} : ds ≠ [] → (∀ d ∈ ds, d ∈ digits) →
    places ≠ [] → (∀ d ∈ places, d ∈ digits) →
    Lexeme .number (ds ++ '.' :: places) (.number (.ofDigits ds places))
  | keyword {text : String} {kind : TokenKind} :
    (text, kind) ∈ keywords → Lexeme kind text.toList .nil
  | identifier {c : Char} {cs : List Char} : c ∈ letters → (∀ d ∈ cs, d ∈ letters ++ digits) →
    (∀ kind, (String.ofList (c :: cs), kind) ∉ keywords) → Lexeme .identifier (c :: cs) .nil

/-- The piece has to be cut off where the rest comes after it. -/
inductive Cut : Piece → List Char → Prop
  | blank {c : Char} {rest : List Char} : c ∈ [' ', '\t', '\r', '\n'] → Cut (.blank c) rest
  | comment {body rest : List Char} : '\n' ∉ body → (∀ c, rest.head? = some c → c = '\n') →
    Cut (.comment ('/' :: '/' :: body)) rest
  | lexeme {kind : TokenKind} {chars rest : List Char} {literal : Literal} :
    Lexeme kind chars literal →
    (∀ kind' longer literal', longer <+: chars ++ rest → Lexeme kind' longer literal' →
      longer.length ≤ chars.length) →
    ¬ ['/', '/'] <+: chars ++ rest → Cut (.token kind chars literal) rest
  | string {body rest : List Char} : '"' ∉ body →
    Cut (.token .string ('"' :: (body ++ ['"'])) (.string (String.ofList body))) rest
  | stray {c : Char} {rest : List Char} : c ∉ [' ', '\t', '\r', '\n'] → c ≠ '"' →
    (∀ kind chars literal, chars <+: c :: rest → ¬ Lexeme kind chars literal) → Cut (.stray c) rest
  | unclosed {body : List Char} : '"' ∉ body → Cut (.unclosed ('"' :: body)) []

/-- The pieces make up the text, each cut off as it has to be. -/
inductive Tiles : List Char → List Piece → Prop
  | nil : Tiles [] []
  | cons {p : Piece} {rest : List Char} {ps : List Piece} :
    Cut p rest → Tiles rest ps → Tiles (p.chars ++ rest) (p :: ps)

/-- The line on which the text ends. -/
def lineAfter (text : List Char) : Nat := 1 + text.count '\n'

/-- The pieces, each with the text up to its end. -/
def ends (read : List Char) : List Piece → List (List Char × Piece)
  | [] => []
  | p :: ps => (read ++ p.chars, p) :: ends (read ++ p.chars) ps

def Piece.token? (p : Piece) (line : Nat) : Option Token :=
  match p with
  | .token kind chars literal => some ⟨kind, String.ofList chars, literal, line⟩
  | _ => none

def Piece.fault? : Piece → Option Fault
  | .stray _ => some .unexpectedCharacter
  | .unclosed _ => some .unterminatedString
  | _ => none

/-! ## Characters by their tests -/

/-- A test that passes no character beyond ASCII passes those of a list if it does so in ASCII. -/
theorem iff_mem_of_ascii {test : Char → Bool} {cs : List Char}
    (htest : ∀ c, test c = true → c ≤ '\x7f') (hcs : cs.all (·.toNat ≤ 127) = true)
    (h : ∀ n ≤ 127, test (Char.ofNat n) = true ↔ Char.ofNat n ∈ cs) {c : Char} :
    test c = true ↔ c ∈ cs := by
  have hc : c ≤ '\x7f' → (test c = true ↔ c ∈ cs) := fun hc => by
    simpa only [Char.ofNat_toNat] using h c.toNat hc
  exact ⟨fun h => (hc (htest c h)).1 h, fun h =>
    (hc (of_decide_eq_true (List.all_eq_true.1 hcs c h))).2 h⟩

theorem isDigit_iff {c : Char} : isDigit c = true ↔ c ∈ digits := by
  refine iff_mem_of_ascii (fun c h => ?_) (by decide) (by decide +kernel)
  exact Char.le_trans (of_decide_eq_true (Bool.and_eq_true_iff.1 h).2) (by decide)

theorem isLetter_iff {c : Char} : isLetter c = true ↔ c ∈ letters := by
  refine iff_mem_of_ascii (fun c h => ?_) (by decide) (by decide +kernel)
  simp only [isLetter, Bool.or_eq_true, Bool.and_eq_true, decide_eq_true_eq] at h
  rcases h with (⟨-, h⟩ | ⟨-, h⟩) | rfl
  · exact Char.le_trans h (by decide)
  · exact Char.le_trans h (by decide)
  · decide

theorem isWordChar_iff {c : Char} : isWordChar c = true ↔ c ∈ letters ++ digits := by
  rw [isWordChar, Bool.or_eq_true, isLetter_iff, isDigit_iff, List.mem_append]

theorem forall_isDigit {cs : List Char} :
    (∀ d ∈ cs, isDigit d = true) ↔ ∀ d ∈ cs, d ∈ digits :=
  forall₂_congr fun _ _ => isDigit_iff

theorem forall_isWordChar {cs : List Char} :
    (∀ d ∈ cs, isWordChar d = true) ↔ ∀ d ∈ cs, d ∈ letters ++ digits :=
  forall₂_congr fun _ _ => isWordChar_iff

/-! ## Lexemes by their first character -/

/-- The characters that begin operators and marks. -/
def isSymbol (c : Char) : Bool := (mark? c).isSome || (comparison? c).isSome || c = '/'

theorem isSymbol_operator : ∀ p ∈ operators, ∃ c cs, p.1.toList = c :: cs ∧ isSymbol c = true ∧
    (cs = [] ∨ cs = ['='] ∧ (comparison? c).isSome = true) := by
  simp [operators, isSymbol, mark?, comparison?]

theorem not_isSymbol_of_isWordChar {c : Char} (h : isWordChar c = true) : isSymbol c = false := by
  have hall : (letters ++ digits).all (fun c => !isSymbol c) = true := by decide
  simpa using List.all_eq_true.1 hall c (isWordChar_iff.1 h)

theorem not_isLetter_of_isDigit {c : Char} (h : isDigit c = true) : isLetter c = false := by
  have hall : digits.all (fun c => !isLetter c) = true := by decide
  simpa using List.all_eq_true.1 hall c (isDigit_iff.1 h)

/-- What follows the first character of a lexeme. -/
inductive Follows (c : Char) : List Char → Prop
  | operator {cs : List Char} : isSymbol c = true →
    (cs = [] ∨ cs = ['='] ∧ (comparison? c).isSome = true) → Follows c cs
  | whole {cs : List Char} : isDigit c = true → (∀ d ∈ cs, isDigit d = true) → Follows c cs
  | fraction {cs places : List Char} : isDigit c = true → (∀ d ∈ cs, isDigit d = true) →
    places ≠ [] → (∀ d ∈ places, isDigit d = true) → Follows c (cs ++ '.' :: places)
  | word {cs : List Char} : isLetter c = true → (∀ d ∈ cs, isWordChar d = true) → Follows c cs

theorem keyword_isWord : ∀ p ∈ TokenKind.keywords, ∃ c cs, p.1.toList = c :: cs ∧
    isLetter c = true ∧ ∀ d ∈ cs, isWordChar d = true := by
  simp [TokenKind.keywords, isLetter, isWordChar]

theorem Lexeme.follows {kind : TokenKind} {chars : List Char} {literal : Literal}
    (h : Lexeme kind chars literal) : ∃ c cs, chars = c :: cs ∧ Follows c cs := by
  cases h with
  | operator h =>
    obtain ⟨c, cs, heq, hsymbol, hcs⟩ := isSymbol_operator _ h
    exact ⟨c, cs, heq, .operator hsymbol hcs⟩
  | whole hne h =>
    obtain ⟨d, ds, rfl⟩ := List.exists_cons_of_ne_nil hne
    obtain ⟨hd, hds⟩ := List.forall_mem_cons.1 (forall_isDigit.2 h)
    exact ⟨d, ds, rfl, .whole hd hds⟩
  | fraction hne h hne' h' =>
    obtain ⟨d, ds, rfl⟩ := List.exists_cons_of_ne_nil hne
    obtain ⟨hd, hds⟩ := List.forall_mem_cons.1 (forall_isDigit.2 h)
    exact ⟨d, _, rfl, .fraction hd hds hne' (forall_isDigit.2 h')⟩
  | keyword h =>
    obtain ⟨c, cs, heq, hc, hcs⟩ := keyword_isWord _ h
    exact ⟨c, cs, heq, .word hc hcs⟩
  | identifier hc hcs _ =>
    exact ⟨_, _, rfl, .word (isLetter_iff.2 hc) (forall_isWordChar.2 hcs)⟩

namespace Follows

variable {c : Char} {cs : List Char}

theorem of_isSymbol (h : Follows c cs) (hc : isSymbol c = true) :
    cs = [] ∨ cs = ['='] ∧ (comparison? c).isSome = true := by
  cases h with
  | operator _ h => exact h
  | whole h _ => simp [not_isSymbol_of_isWordChar (c := c) (by simp [isWordChar, h])] at hc
  | fraction h _ _ _ => simp [not_isSymbol_of_isWordChar (c := c) (by simp [isWordChar, h])] at hc
  | word h _ => simp [not_isSymbol_of_isWordChar (c := c) (by simp [isWordChar, h])] at hc

theorem of_isLetter (h : Follows c cs) (hc : isLetter c = true) :
    ∀ d ∈ cs, isWordChar d = true := by
  cases h with
  | operator h _ => simp [not_isSymbol_of_isWordChar (c := c) (by simp [isWordChar, hc])] at h
  | whole h _ => simp [not_isLetter_of_isDigit h] at hc
  | fraction h _ _ _ => simp [not_isLetter_of_isDigit h] at hc
  | word _ h => exact h

theorem of_isDigit (h : Follows c cs) (hc : isDigit c = true) :
    (∀ d ∈ cs, isDigit d = true) ∨ ∃ whole places, cs = whole ++ '.' :: places ∧
      (∀ d ∈ whole, isDigit d = true) ∧ places ≠ [] ∧ ∀ d ∈ places, isDigit d = true := by
  cases h with
  | operator h _ => simp [not_isSymbol_of_isWordChar (c := c) (by simp [isWordChar, hc])] at h
  | whole _ h => exact .inl h
  | fraction _ h hne h' => exact .inr ⟨_, _, rfl, h, hne, h'⟩
  | word h _ => simp [not_isLetter_of_isDigit hc] at h

end Follows

/-! ## What scanning cuts off -/

theorem length_le_takeWhile {p : Char → Bool} {l cs : List Char} (hl : ∀ d ∈ l, p d = true)
    (h : l <+: cs) : l.length ≤ (cs.takeWhile p).length := by
  obtain ⟨rest, rfl⟩ := h
  rw [List.takeWhile_append_of_pos hl]
  simp

theorem lexeme_word {c : Char} {cs : List Char} (hc : isLetter c = true)
    (hcs : ∀ d ∈ cs, isWordChar d = true) :
    Lexeme (wordKind (String.ofList (c :: cs))) (c :: cs) .nil := by
  by_cases hkind : wordKind (String.ofList (c :: cs)) = .identifier
  · rw [hkind]
    refine .identifier (isLetter_iff.1 hc) (forall_isWordChar.1 hcs) fun kind hmem => ?_
    exact (by decide : ∀ p ∈ TokenKind.keywords, wordKind p.1 ≠ .identifier) _ hmem hkind
  · have hlexeme := Lexeme.keyword (mem_keywords_of_wordKind rfl hkind)
    rwa [String.toList_ofList] at hlexeme

/-- A lexeme is cut off when none that starts with the same character is longer. -/
theorem Cut.of_follows {kind : TokenKind} {c : Char} {cs rest : List Char} {literal : Literal}
    (h : Lexeme kind (c :: cs) literal)
    (hlongest : ∀ longer, longer <+: cs ++ rest → Follows c longer → longer.length ≤ cs.length)
    (hslash : ¬ ['/', '/'] <+: c :: (cs ++ rest)) : Cut (.token kind (c :: cs) literal) rest := by
  refine .lexeme h (fun kind' longer literal' hprefix hlonger => ?_) hslash
  obtain ⟨d, ds, rfl, hfollows⟩ := hlonger.follows
  obtain ⟨rfl, hds⟩ := List.cons_prefix_cons.1 hprefix
  exact Nat.succ_le_succ (hlongest ds hds hfollows)

theorem not_starts_slash {c : Char} (h : c ≠ '/') (cs : List Char) : ¬ ['/', '/'] <+: c :: cs := by
  intro hprefix
  exact h (List.cons_prefix_cons.1 hprefix).1.symm

theorem cut_wordPiece {c : Char} (hc : isLetter c = true) (cs : List Char) :
    Cut (wordPiece c cs).1 (wordPiece c cs).2 := by
  refine .of_follows (lexeme_word hc fun d hd => List.mem_takeWhile_imp hd)
    (fun longer hprefix hfollows => ?_) (not_starts_slash ?_ _)
  · rw [wordPiece, List.takeWhile_append_dropWhile] at hprefix
    exact length_le_takeWhile (hfollows.of_isLetter hc) hprefix
  · rintro rfl
    exact absurd hc (by decide)

/-- A number with a point in it has its digits up to the first character that is none. -/
theorem prefix_of_point {whole places cs : List Char} (hwhole : ∀ d ∈ whole, isDigit d = true)
    (h : whole ++ '.' :: places <+: cs) :
    cs.takeWhile isDigit = whole ∧ '.' :: places <+: cs.dropWhile isDigit := by
  obtain ⟨rest, rfl⟩ := h
  rw [List.append_assoc, List.takeWhile_append_of_pos hwhole, List.dropWhile_append_of_pos hwhole]
  simp [isDigit]

theorem cut_numberPiece {c : Char} (hc : isDigit c = true) (cs : List Char) :
    Cut (numberPiece c cs).1 (numberPiece c cs).2 := by
  have hslash : ∀ cs, ¬ ['/', '/'] <+: c :: cs := by
    refine not_starts_slash ?_
    rintro rfl
    exact absurd hc (by decide)
  have hall : ∀ d ∈ c :: cs.takeWhile isDigit, isDigit d = true :=
    List.forall_mem_cons.2 ⟨hc, fun d hd => List.mem_takeWhile_imp hd⟩
  have happend := List.takeWhile_append_dropWhile (p := isDigit) (l := cs)
  -- Without a fraction after it, the piece is the digits.
  have hplain : (∀ places, places ≠ [] → (∀ d ∈ places, isDigit d = true) →
      ¬ '.' :: places <+: cs.dropWhile isDigit) →
      Cut (.token .number (c :: cs.takeWhile isDigit)
        (.number (.ofDigits (c :: cs.takeWhile isDigit) []))) (cs.dropWhile isDigit) := by
    intro hnone
    refine .of_follows (.whole (by simp) (forall_isDigit.1 hall))
      (fun longer hprefix hfollows => ?_) (hslash _)
    rw [happend] at hprefix
    rcases hfollows.of_isDigit hc with hdigits | ⟨whole, places, rfl, hwhole, hne, hplaces⟩
    · exact length_le_takeWhile hdigits hprefix
    · exact absurd (prefix_of_point hwhole hprefix).2 (hnone places hne hplaces)
  unfold numberPiece
  split
  · rename_i d rest hrest
    rw [hrest] at happend hplain
    split
    · rename_i hd
      have hplaces : ∀ e ∈ d :: rest.takeWhile isDigit, isDigit e = true :=
        List.forall_mem_cons.2 ⟨hd, fun e he => List.mem_takeWhile_imp he⟩
      refine .of_follows
        (.fraction (by simp) (forall_isDigit.1 hall) (by simp) (forall_isDigit.1 hplaces))
        (fun longer hprefix hfollows => ?_) (hslash _)
      have htext : cs.takeWhile isDigit ++ '.' :: d :: rest.takeWhile isDigit ++
          rest.dropWhile isDigit = cs := by
        rw [List.append_assoc, List.cons_append, List.cons_append,
          List.takeWhile_append_dropWhile, happend]
      replace hprefix : longer <+: cs := htext ▸ hprefix
      show longer.length ≤ (cs.takeWhile isDigit ++ '.' :: d :: rest.takeWhile isDigit).length
      rcases hfollows.of_isDigit hc with hdigits | ⟨whole, places, rfl, hwhole, -, hmore⟩
      · have := length_le_takeWhile hdigits hprefix
        simp only [List.length_append]
        omega
      · obtain ⟨heq, hpoint⟩ := prefix_of_point hwhole hprefix
        rw [hrest] at hpoint
        have := length_le_takeWhile hmore (List.cons_prefix_cons.1 hpoint).2
        rw [List.takeWhile_cons_of_pos hd] at this
        simp only [heq, List.length_append, List.length_cons] at this ⊢
        omega
    · rename_i hd
      refine hplain fun places hne hplaces hpoint => ?_
      obtain ⟨e, es, rfl⟩ := List.exists_cons_of_ne_nil hne
      obtain ⟨rfl, -⟩ := List.cons_prefix_cons.1 (List.cons_prefix_cons.1 hpoint).2
      exact hd (hplaces e List.mem_cons_self)
  · rename_i hshape
    refine hplain fun places hne hplaces hpoint => ?_
    obtain ⟨e, es, rfl⟩ := List.exists_cons_of_ne_nil hne
    obtain ⟨rest, hrest⟩ := hpoint
    exact hshape e (es ++ rest) hrest.symm

theorem cut_stringPiece (cs : List Char) : Cut (stringPiece cs).1 (stringPiece cs).2 := by
  have hbody : '"' ∉ cs.takeWhile (· ≠ '"') := fun h => by
    simpa using List.mem_takeWhile_imp h
  unfold stringPiece
  split
  · exact .unclosed hbody
  · rename_i quote rest hrest
    have hquote : quote = '"' := by
      have := List.head?_dropWhile_not (· ≠ '"') cs
      rw [hrest] at this
      simpa using this
    rw [hquote]
    exact .string hbody

theorem lexeme_operator {chars : List Char} {kind : TokenKind}
    (h : (String.ofList chars, kind) ∈ operators) : Lexeme kind chars .nil := by
  have hlexeme := Lexeme.operator h
  rwa [String.toList_ofList] at hlexeme

theorem cut_slashPiece (cs : List Char) : Cut (slashPiece cs).1 (slashPiece cs).2 := by
  unfold slashPiece
  split
  · rename_i rest
    refine .comment (fun h => ?_) fun c hc => ?_
    · simpa using List.mem_takeWhile_imp h
    · have := List.head?_dropWhile_not (· ≠ '\n') rest
      rw [hc] at this
      simpa using this
  · rename_i hshape
    refine .of_follows (lexeme_operator (by decide)) (fun longer hprefix hfollows => ?_)
      fun hprefix => ?_
    · rcases hfollows.of_isSymbol rfl with rfl | ⟨rfl, h⟩
      · exact le_rfl
      · exact absurd h (by decide)
    · obtain ⟨rest, hrest⟩ := (List.cons_prefix_cons.1 hprefix).2
      exact hshape rest hrest.symm

theorem mark_operator {c : Char} {kind : TokenKind} (h : mark? c = some kind) :
    (String.ofList [c], kind) ∈ operators := by
  unfold mark? at h
  split at h <;> cases h <;> decide

theorem comparison_operator {c : Char} {alone longer : TokenKind}
    (h : comparison? c = some (alone, longer)) :
    (String.ofList [c], alone) ∈ operators ∧ (String.ofList [c, '='], longer) ∈ operators := by
  unfold comparison? at h
  split at h <;> cases h <;> decide

/-- A mark and a comparison are told apart by their first character. -/
theorem comparison_of_mark {c : Char} {kind : TokenKind} (h : mark? c = some kind) :
    comparison? c = none ∧ c ≠ '/' := by
  unfold mark? at h
  split at h <;> cases h <;> decide

theorem ne_slash_of_comparison {c : Char} {kinds : TokenKind × TokenKind}
    (h : comparison? c = some kinds) : c ≠ '/' := by
  rintro rfl
  cases h

theorem isBlank_iff {c : Char} : isBlank c = true ↔ c ∈ [' ', '\t', '\r', '\n'] := by
  simp only [isBlank, Bool.or_eq_true, decide_eq_true_eq, List.mem_cons, List.not_mem_nil, or_false]
  tauto

theorem cut_next (c : Char) (cs : List Char) : Cut (next c cs).1 (next c cs).2 := by
  unfold next
  split
  · rename_i kind hmark
    obtain ⟨hcomparison, hslash⟩ := comparison_of_mark hmark
    refine .of_follows (lexeme_operator (mark_operator hmark)) (fun longer hprefix hfollows => ?_)
      (not_starts_slash hslash _)
    rcases hfollows.of_isSymbol (by simp [isSymbol, hmark]) with rfl | ⟨rfl, h⟩
    · exact le_rfl
    · simp [hcomparison] at h
  rename_i hmark
  split
  · rename_i alone longer hcomparison
    obtain ⟨halone, hlonger⟩ := comparison_operator hcomparison
    have hshort : ∀ cs, Follows c cs → cs = [] ∨ cs = ['='] := fun cs hfollows =>
      (hfollows.of_isSymbol (by simp [isSymbol, hcomparison])).imp_right And.left
    split
    · refine .of_follows (lexeme_operator hlonger) (fun longer hprefix hfollows => ?_)
        (not_starts_slash (ne_slash_of_comparison hcomparison) _)
      rcases hshort _ hfollows with rfl | rfl <;> simp
    · rename_i hshape
      refine .of_follows (lexeme_operator halone) (fun longer hprefix hfollows => ?_)
        (not_starts_slash (ne_slash_of_comparison hcomparison) _)
      rcases hshort _ hfollows with rfl | rfl
      · exact le_rfl
      · obtain ⟨rest, hrest⟩ := hprefix
        exact absurd hrest.symm (hshape rest)
  rename_i hcomparison
  split
  · exact cut_slashPiece cs
  split
  · exact cut_stringPiece cs
  split
  · rename_i hblank
    exact .blank (isBlank_iff.1 hblank)
  split
  · rename_i hdigit
    exact cut_numberPiece hdigit cs
  split
  · rename_i hletter
    exact cut_wordPiece hletter cs
  · rename_i hslash hquote hblank hdigit hletter
    refine .stray (fun h => hblank (isBlank_iff.2 h)) hquote
      fun kind chars literal hprefix hlexeme => ?_
    obtain ⟨d, ds, rfl, hfollows⟩ := hlexeme.follows
    obtain ⟨rfl, -⟩ := List.cons_prefix_cons.1 hprefix
    cases hfollows with
    | operator h _ => simp [isSymbol, hmark, hcomparison, hslash] at h
    | whole h _ => exact hdigit h
    | fraction h _ _ _ => exact hdigit h
    | word h _ => exact hletter h

theorem tiles_pieces (cs : List Char) : Tiles cs (pieces cs) := by
  fun_induction pieces cs with
  | case1 => exact .nil
  | case2 c cs ih =>
    have htiles := Tiles.cons (cut_next c cs) ih
    rwa [next_append] at htiles

/-! ## There is one tiling -/

/-- The sort of a lexeme is settled by its first character, and its kind and literal by its text. -/
theorem Lexeme.sorts {kind : TokenKind} {c : Char} {cs : List Char} {literal : Literal}
    (h : Lexeme kind (c :: cs) literal) :
    isSymbol c = true ∧ (String.ofList (c :: cs), kind) ∈ operators ∧ literal = .nil ∨
    isDigit c = true ∧ kind = .number ∧ literal = .number (.ofDigits ((c :: cs).takeWhile isDigit)
      ((c :: cs).dropWhile isDigit).tail) ∨
    isLetter c = true ∧ kind = wordKind (String.ofList (c :: cs)) ∧ literal = .nil := by
  generalize htext : c :: cs = text at h
  cases h with
  | operator h =>
    obtain ⟨d, ds, heq, hsymbol, -⟩ := isSymbol_operator _ h
    obtain ⟨rfl, rfl⟩ := List.cons.inj (htext.trans heq)
    exact .inl ⟨hsymbol, by rwa [String.ofList_toList], rfl⟩
  | whole hne h =>
    rw [← forall_isDigit] at h
    refine .inr (.inl ⟨h c (by simp [← htext]), rfl, ?_⟩)
    rw [List.takeWhile_eq_self_iff.2 h, List.dropWhile_eq_nil_iff.2 h]
    rfl
  | fraction hne h _ _ =>
    rw [← forall_isDigit] at h
    obtain ⟨d, ds, rfl⟩ := List.exists_cons_of_ne_nil hne
    obtain ⟨rfl, -⟩ := List.cons.inj htext
    refine .inr (.inl ⟨h c List.mem_cons_self, rfl, ?_⟩)
    rw [List.takeWhile_append_of_pos h, List.dropWhile_append_of_pos h]
    simp [isDigit]
  | keyword h =>
    obtain ⟨d, ds, heq, hletter, -⟩ := keyword_isWord _ h
    obtain ⟨rfl, rfl⟩ := List.cons.inj (htext.trans heq)
    refine .inr (.inr ⟨hletter, ?_, rfl⟩)
    rw [String.ofList_toList]
    exact ((by decide : ∀ p ∈ TokenKind.keywords, wordKind p.1 = p.2) _ h).symm
  | identifier hc hcs hnot =>
    obtain ⟨rfl, rfl⟩ := List.cons.inj htext
    refine .inr (.inr ⟨isLetter_iff.2 hc, ?_, rfl⟩)
    by_contra hkind
    exact hnot _ (mem_keywords_of_wordKind rfl fun h => hkind h.symm)

theorem Lexeme.unique {kind kind' : TokenKind} {chars : List Char} {literal literal' : Literal}
    (h : Lexeme kind chars literal) (h' : Lexeme kind' chars literal') :
    kind = kind' ∧ literal = literal' := by
  obtain ⟨c, cs, rfl, -⟩ := h.follows
  have hsymbol : isDigit c = true ∨ isLetter c = true → isSymbol c = false := fun hc =>
    not_isSymbol_of_isWordChar (by simpa [isWordChar, or_comm] using hc)
  have hdigit : isDigit c = true → isLetter c = false := not_isLetter_of_isDigit
  rcases h.sorts with ⟨hc, hkind, rfl⟩ | ⟨hc, rfl, rfl⟩ | ⟨hc, rfl, rfl⟩ <;>
    rcases h'.sorts with ⟨hc', hkind', rfl⟩ | ⟨hc', rfl, rfl⟩ | ⟨hc', rfl, rfl⟩ <;>
    simp_all
  exact (by decide : ∀ p ∈ operators, ∀ q ∈ operators, p.1 = q.1 → p.2 = q.2) _ hkind _ hkind' rfl

/-- The text before the first character of a sort. -/
theorem span_before {x : Char} {body : List Char} (rest : List Char) (hbody : x ∉ body)
    (hrest : ∀ c, rest.head? = some c → c = x) :
    (body ++ rest).takeWhile (· ≠ x) = body ∧ (body ++ rest).dropWhile (· ≠ x) = rest := by
  have hall : ∀ c ∈ body, decide (c ≠ x) = true := by
    intro c hc
    simpa using ne_of_mem_of_not_mem hc hbody
  rw [List.takeWhile_append_of_pos hall, List.dropWhile_append_of_pos hall]
  cases rest with
  | nil => simp
  | cons c rest => simp [hrest c rfl]

theorem Lexeme.not_blank_or_quote {kind : TokenKind} {c : Char} {cs : List Char}
    {literal : Literal} (h : Lexeme kind (c :: cs) literal) : c ∉ [' ', '\t', '\r', '\n', '"'] := by
  intro hc
  have hnone : isSymbol c = false ∧ isDigit c = false ∧ isLetter c = false := by
    fin_cases hc <;> decide
  rcases h.sorts with ⟨hsort, -⟩ | ⟨hsort, -⟩ | ⟨hsort, -⟩ <;> simp [hnone] at hsort

/-- Of two longest lexemes of one text neither is longer. -/
theorem Lexeme.eq_of_longest {kind kind' : TokenKind} {chars chars' rest rest' : List Char}
    {literal literal' : Literal} (h : Lexeme kind chars literal) (h' : Lexeme kind' chars' literal')
    (htext : chars ++ rest = chars' ++ rest')
    (hlongest : ∀ k longer l, longer <+: chars ++ rest → Lexeme k longer l →
      longer.length ≤ chars.length)
    (hlongest' : ∀ k longer l, longer <+: chars' ++ rest' → Lexeme k longer l →
      longer.length ≤ chars'.length) :
    kind = kind' ∧ chars = chars' ∧ literal = literal' ∧ rest = rest' := by
  have hle := hlongest' _ _ _ (htext ▸ List.prefix_append chars rest) h
  have hge := hlongest _ _ _ (htext ▸ List.prefix_append chars' rest') h'
  obtain ⟨rfl, rfl⟩ := List.append_inj htext (le_antisymm hle hge)
  obtain ⟨rfl, rfl⟩ := h.unique h'
  exact ⟨rfl, rfl, rfl, rfl⟩

/-- What has to be cut off is what scanning cuts off. -/
theorem Cut.eq_next {p : Piece} {rest cs : List Char} {c : Char} (h : Cut p rest)
    (htext : p.chars ++ rest = c :: cs) : next c cs = (p, rest) := by
  cases h with
  | blank h =>
    obtain ⟨rfl, rfl⟩ := List.cons.inj htext
    fin_cases h <;> rfl
  | @comment body _ hbody hrest =>
    obtain ⟨rfl, rfl⟩ := List.cons.inj htext
    obtain ⟨htake, hdrop⟩ := span_before rest hbody hrest
    show slashPiece ('/' :: (body ++ rest)) = _
    simp only [slashPiece, htake, hdrop]
  | @lexeme kind chars _ literal hlexeme hlongest hslash =>
    have hcut := cut_next c cs
    have happend := next_append c cs
    rcases hnext : next c cs with ⟨p', rest'⟩
    rw [hnext] at hcut happend
    replace happend : p'.chars ++ rest' = chars ++ rest := happend.trans htext.symm
    obtain ⟨d, ds, rfl, -⟩ := hlexeme.follows
    cases hcut with
    | blank h =>
      obtain ⟨rfl, -⟩ := List.cons.inj happend
      exact absurd (List.mem_append_left ['"'] h) hlexeme.not_blank_or_quote
    | comment _ _ => exact absurd ⟨_, happend⟩ hslash
    | lexeme hlexeme' hlongest' _ =>
      obtain ⟨rfl, rfl, rfl, rfl⟩ := hlexeme'.eq_of_longest hlexeme happend hlongest' hlongest
      rfl
    | string _ =>
      obtain ⟨rfl, -⟩ := List.cons.inj happend
      exact absurd (by decide) hlexeme.not_blank_or_quote
    | stray _ _ hnone =>
      exact absurd hlexeme (hnone _ _ _ ⟨rest, happend.symm⟩)
    | unclosed _ =>
      obtain ⟨rfl, -⟩ := List.cons.inj happend
      exact absurd (by decide) hlexeme.not_blank_or_quote
  | @string body _ hbody =>
    obtain ⟨rfl, hcs⟩ := List.cons.inj htext
    obtain ⟨htake, hdrop⟩ := span_before ('"' :: rest) hbody fun c hc => (Option.some.inj hc).symm
    have htail : cs = body ++ '"' :: rest := by
      rw [← hcs]
      exact List.append_assoc ..
    show stringPiece cs = _
    simp only [stringPiece, htail, htake, hdrop]
  | @stray d _ hblank hquote hnone =>
    obtain ⟨rfl, rfl⟩ := List.cons.inj htext
    have hprefix : [d] <+: d :: rest := List.prefix_append [d] rest
    have hmark : mark? d = none := Option.eq_none_iff_forall_ne_some.2 fun kind h =>
      hnone _ _ _ hprefix (lexeme_operator (mark_operator h))
    have hcomparison : comparison? d = none := Option.eq_none_iff_forall_ne_some.2 fun kinds h =>
      hnone _ _ _ hprefix (lexeme_operator (comparison_operator h).1)
    have hslash : d ≠ '/' := by
      rintro rfl
      exact hnone .slash _ _ hprefix (lexeme_operator (by decide))
    have hdigit : isDigit d ≠ true := fun h =>
      hnone _ _ _ hprefix (.whole (by simp) (by simpa using isDigit_iff.1 h))
    have hletter : isLetter d ≠ true := fun h => hnone _ _ _ hprefix (lexeme_word h (by simp))
    have hblank : isBlank d ≠ true := fun h => hblank (isBlank_iff.1 h)
    show next d rest = _
    simp only [next, hmark, hcomparison, if_neg hslash, if_neg hquote, if_neg hblank, if_neg hdigit,
      if_neg hletter]
  | @unclosed body hbody =>
    obtain ⟨rfl, hcs⟩ := List.cons.inj htext
    obtain ⟨htake, hdrop⟩ := span_before [] hbody nofun
    show stringPiece cs = _
    rw [← hcs]
    simp only [stringPiece, List.append_eq, htake, hdrop]

theorem Cut.chars_ne_nil {p : Piece} {rest : List Char} (h : Cut p rest) : p.chars ≠ [] := by
  cases h with
  | lexeme h _ _ =>
    obtain ⟨c, cs, rfl, -⟩ := h.follows
    exact List.cons_ne_nil _ _
  | _ => exact List.cons_ne_nil _ _

theorem Tiles.eq_pieces {cs : List Char} {ps : List Piece} (h : Tiles cs ps) : ps = pieces cs := by
  induction h with
  | nil => simp [pieces]
  | @cons p rest ps hcut _ ih =>
    rcases htext : p.chars ++ rest with _ | ⟨c, cs⟩
    · exact absurd (List.append_eq_nil_iff.1 htext).1 hcut.chars_ne_nil
    · rw [pieces, hcut.eq_next htext, ih]

/-! ## Tokens and faults on their lines -/

end Scan

end Lox
