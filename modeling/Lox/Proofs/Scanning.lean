import Mathlib.Tactic
import Lox.Token.Scan

/-!
# The tokens of a source

Scanning ends in the one token of the end of the source. Every token before it is a symbol or a
word, and the kind of a word is settled by its text (`scan_tokens_eq`): an identifier is never
spelled as a keyword, and a keyword only as itself.
-/

namespace Lox

namespace Scan

/-- The kinds of the tokens that are not words. -/
def symbolKinds : List TokenKind :=
  [.leftParen, .rightParen, .leftBrace, .rightBrace, .comma, .dot, .minus, .plus, .semicolon,
   .slash, .star, .bang, .bangEqual, .equal, .equalEqual, .greater, .greaterEqual, .less,
   .lessEqual, .string, .number]

/-- A token with the kind that its text has. -/
def IsLexed (t : Token) : Prop := t.kind ∈ symbolKinds ∨ t.kind = wordKind t.lexeme

/-- A piece that is a token has the kind that its text has. -/
def Piece.IsLexed : Piece → Prop
  | .token kind chars _ => kind ∈ symbolKinds ∨ kind = wordKind (String.ofList chars)
  | _ => True

theorem mark_mem {c : Char} {kind : TokenKind} (h : mark? c = some kind) : kind ∈ symbolKinds := by
  unfold mark? at h
  split at h <;> cases h <;> decide

theorem comparison_mem {c : Char} {alone longer : TokenKind}
    (h : comparison? c = some (alone, longer)) : alone ∈ symbolKinds ∧ longer ∈ symbolKinds := by
  unfold comparison? at h
  split at h <;> cases h <;> decide

theorem next_isLexed (c : Char) (cs : List Char) : (next c cs).1.IsLexed := by
  unfold next
  split
  · rename_i hmark
    exact .inl (mark_mem hmark)
  split
  · rename_i hcomparison
    split
    · exact .inl (comparison_mem hcomparison).2
    · exact .inl (comparison_mem hcomparison).1
  split
  · unfold slashPiece
    split
    · trivial
    · exact .inl (by decide)
  split
  · unfold stringPiece
    split
    · trivial
    · exact .inl (by decide)
  split
  · trivial
  split
  · unfold numberPiece
    split
    · split <;> exact .inl (by decide)
    · exact .inl (by decide)
  split
  · exact .inr rfl
  · trivial

theorem pieces_isLexed (cs : List Char) : ∀ p ∈ pieces cs, p.IsLexed := by
  fun_induction pieces cs with
  | case1 => exact List.forall_mem_nil _
  | case2 c cs ih => exact List.forall_mem_cons.2 ⟨next_isLexed c cs, ih⟩

/-- The tokens of pieces without the end of the source. -/
theorem tokens_eq (line : Nat) (ps : List Piece) (h : ∀ p ∈ ps, p.IsLexed) :
    ∃ body last, tokens line ps = body ++ [⟨.eof, "", .nil, last⟩] ∧ ∀ t ∈ body, IsLexed t := by
  induction ps generalizing line with
  | nil => exact ⟨[], line, rfl, fun _ h => nomatch h⟩
  | cons p ps ih =>
    obtain ⟨body, last, heq, hbody⟩ :=
      ih (line + p.lineBreaks) fun q hq => h q (List.mem_cons_of_mem _ hq)
    have hp := h p List.mem_cons_self
    cases p with
    | token kind chars literal =>
      refine ⟨⟨kind, String.ofList chars, literal,
        (line + (Piece.token kind chars literal).lineBreaks : Nat)⟩ :: body, last, ?_,
        List.forall_mem_cons.2 ⟨hp, hbody⟩⟩
      simp only [tokens, heq, List.cons_append]
    | _ => exact ⟨body, last, heq, hbody⟩

/-- A word with the kind of a keyword is that keyword. -/
theorem mem_keywords_of_wordKind {word : String} {kind : TokenKind} (h : wordKind word = kind)
    (hkind : kind ≠ .identifier) : (word, kind) ∈ TokenKind.keywords := by
  unfold wordKind at h
  rcases hl : TokenKind.keywords.lookup word with _ | found
  · rw [hl] at h
    exact absurd h.symm hkind
  · rw [hl] at h
    cases h
    obtain ⟨before, after, heq, -⟩ := List.lookup_eq_some_iff.1 hl
    simp [heq]

theorem wordKind_ne_eof (word : String) : wordKind word ≠ .eof := by
  intro h
  have hmem := mem_keywords_of_wordKind h (by decide)
  exact absurd rfl ((by decide : ∀ p ∈ TokenKind.keywords, p.2 ≠ .eof) _ hmem)

theorem wordKind_ne_missing (word : String) : wordKind word ≠ .missing := by
  intro h
  have hmem := mem_keywords_of_wordKind h (by decide)
  exact absurd rfl ((by decide : ∀ p ∈ TokenKind.keywords, p.2 ≠ .missing) _ hmem)

namespace IsLexed

variable {t : Token}

theorem kind_ne_eof (h : IsLexed t) : t.kind ≠ .eof := by
  rcases h with h | h
  · exact (by decide : ∀ kind ∈ symbolKinds, kind ≠ .eof) _ h
  · rw [h]
    exact wordKind_ne_eof _

theorem not_isMissing (h : IsLexed t) : t.isMissing = false := by
  have hkind : t.kind ≠ .missing := by
    rcases h with h | h
    · exact (by decide : ∀ kind ∈ symbolKinds, kind ≠ .missing) _ h
    · rw [h]
      exact wordKind_ne_missing _
  simp [Token.isMissing, hkind]

theorem wordKind_eq (h : IsLexed t) (hkind : t.kind ∉ symbolKinds) :
    wordKind t.lexeme = t.kind := by
  rcases h with h | h
  · exact absurd h hkind
  · exact h.symm

/-- An identifier is not spelled as a keyword. -/
theorem lexeme_ne_keyword (h : IsLexed t) (hkind : t.kind = .identifier) {word : String}
    (hword : wordKind word ≠ .identifier) : t.lexeme ≠ word := by
  rintro rfl
  exact hword ((h.wordKind_eq (by rw [hkind]; decide)).trans hkind)

theorem lexeme_this (h : IsLexed t) (hkind : t.kind = .thisWord) : t.lexeme = "this" := by
  have hword := (h.wordKind_eq (by rw [hkind]; decide)).trans hkind
  exact (by decide : ∀ p ∈ TokenKind.keywords, p.2 = .thisWord → p.1 = "this") _
    (mem_keywords_of_wordKind hword (by decide)) rfl

theorem lexeme_super (h : IsLexed t) (hkind : t.kind = .superWord) : t.lexeme = "super" := by
  have hword := (h.wordKind_eq (by rw [hkind]; decide)).trans hkind
  exact (by decide : ∀ p ∈ TokenKind.keywords, p.2 = .superWord → p.1 = "super") _
    (mem_keywords_of_wordKind hword (by decide)) rfl

end IsLexed

end Scan

/-- The tokens of a source are symbols and words, and then its end. -/
theorem scan_tokens_eq (source : String) :
    ∃ body last, (scan source).tokens = body ++ [⟨.eof, "", .nil, last⟩] ∧
      ∀ t ∈ body, Scan.IsLexed t :=
  Scan.tokens_eq 1 _ (Scan.pieces_isLexed source.toList)

end Lox
