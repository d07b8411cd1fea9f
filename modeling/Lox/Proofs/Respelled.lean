import Mathlib.Tactic
import Lox.Proofs.Joined

/-!
# Identifiers spelled in another way

Scanning cuts a source in the same places if some occurrences of an identifier are spelled in
another way (`Tiles.respelled`). For what a piece depends on is where it ends, and two texts that
are the same up to the beginning of a word end the pieces before it alike (`Cut.parts`). Hence there
is a source for all tokens that are those of another one but for such spellings (`scan_respelled`).
-/

namespace Lox

/-- The second token is the first, or the identifier `y` in the place of `x`. -/
def Token.Respelled (x y : String) (t t' : Token) : Prop :=
  t' = t ∨ t.kind = .identifier ∧ t.lexeme = x ∧ t' = { t with lexeme := y }

theorem Token.Respelled.relabels {x y : String} (t t' : Token) (h : Respelled x y t t') :
    t'.kind = t.kind ∧ t'.literal = t.literal := by
  rcases h with rfl | ⟨-, -, rfl⟩ <;> exact ⟨rfl, rfl⟩

namespace Scan

/-- The second piece is the first, or the identifier `y` in the place of `x`. -/
def Piece.Respelled (x y : String) (p p' : Piece) : Prop :=
  p' = p ∨ ∃ literal, p = .token .identifier x.toList literal ∧
    p' = .token .identifier y.toList literal

/-- The texts are the same, or they are up to where in each of them a word begins. -/
inductive Parts : List Char → List Char → Prop
  | nil : Parts [] []
  | words {c c' : Char} {cs cs' : List Char} : isLetter c = true → isLetter c' = true →
    Parts (c :: cs) (c' :: cs')
  | cons {c : Char} {cs cs' : List Char} : Parts cs cs' → Parts (c :: cs) (c :: cs')

namespace Parts

variable {text text' : List Char}

theorem append (h : Parts text text') : ∀ before : List Char,
    Parts (before ++ text) (before ++ text')
  | [] => h
  | _ :: before => .cons (h.append before)

/-- What the one text starts with the other does, if there is no letter in it. -/
theorem starts (h : Parts text text') : ∀ {start : List Char},
    (∀ c ∈ start, isLetter c = false) → start <+: text' → start <+: text := by
  induction h with
  | nil => exact fun _ hstart => hstart
  | words _ hc' =>
    intro start hletters hstart
    cases start with
    | nil => exact List.nil_prefix
    | cons d start =>
      obtain ⟨rfl, -⟩ := List.cons_prefix_cons.1 hstart
      rw [hletters d List.mem_cons_self] at hc'
      cases hc'
  | cons _ ih =>
    intro start hletters hstart
    cases start with
    | nil => exact List.nil_prefix
    | cons d start =>
      obtain ⟨rfl, hrest⟩ := List.cons_prefix_cons.1 hstart
      exact List.cons_prefix_cons.2
        ⟨rfl, ih (fun c hc => hletters c (List.mem_cons_of_mem _ hc)) hrest⟩

/-- The texts begin with the same character or each with a letter. -/
theorem head? (h : Parts text text') {d : Char} (hd : text'.head? = some d) :
    ∃ c, text.head? = some c ∧ (c = d ∨ isLetter c = true ∧ isLetter d = true) := by
  cases h with
  | nil => cases hd
  | words hc hc' =>
    cases hd
    exact ⟨_, rfl, .inr ⟨hc, hc'⟩⟩
  | cons _ =>
    cases hd
    exact ⟨_, rfl, .inl rfl⟩

end Parts

/-! ## Where pieces end -/

/-- There are no letters in a lexeme that begins with none. -/
theorem Follows.no_letters {c : Char} {cs : List Char} (h : Follows c cs)
    (hc : isLetter c = false) : ∀ d ∈ c :: cs, isLetter d = false := by
  have hdigits : ∀ {ds : List Char}, (∀ d ∈ ds, isDigit d = true) →
      ∀ d ∈ ds, isLetter d = false := fun hds d hd => not_isLetter_of_isDigit (hds d hd)
  refine List.forall_mem_cons.2 ⟨hc, ?_⟩
  cases h with
  | operator _ hcs =>
    rcases hcs with rfl | ⟨rfl, -⟩
    · exact List.forall_mem_nil _
    · exact List.forall_mem_singleton.2 (by decide)
  | whole _ hcs => exact hdigits hcs
  | fraction _ hcs _ hplaces =>
    intro d hd
    rcases List.mem_append.1 hd with hd | hd
    · exact hdigits hcs d hd
    · rcases List.mem_cons.1 hd with rfl | hd
      · decide
      · exact hdigits hplaces d hd
  | word hletter _ =>
    rw [hc] at hletter
    cases hletter

/-- A word ends before the first character that can be in no word. -/
theorem cut_word {c : Char} {cs rest : List Char} (hc : isLetter c = true)
    (hcs : ∀ d ∈ cs, isWordChar d = true)
    (hrest : ∀ d, rest.head? = some d → isWordChar d = false) :
    Cut (.token (wordKind (String.ofList (c :: cs))) (c :: cs) .nil) rest := by
  have hcut := cut_wordPiece hc (cs ++ rest)
  have hnone : rest.takeWhile isWordChar = [] ∧ rest.dropWhile isWordChar = rest := by
    cases rest with
    | nil => exact ⟨rfl, rfl⟩
    | cons d rest => simp [hrest d rfl]
  rwa [wordPiece, List.takeWhile_append_of_pos hcs, List.dropWhile_append_of_pos hcs, hnone.1,
    hnone.2, List.append_nil] at hcut

theorem Lexeme.word {kind : TokenKind} {c : Char} {cs : List Char} {literal : Literal}
    (h : Lexeme kind (c :: cs) literal) (hc : isLetter c = true) :
    (∀ d ∈ cs, isWordChar d = true) ∧ kind = wordKind (String.ofList (c :: cs)) ∧
      literal = .nil := by
  obtain ⟨_, _, heq, hfollows⟩ := h.follows
  cases heq
  have hcs := hfollows.of_isLetter hc
  exact ⟨hcs, h.unique (lexeme_word hc hcs)⟩

/-- No character that could be in it comes after a word. -/
theorem Cut.word {kind : TokenKind} {c : Char} {cs rest : List Char} {literal : Literal}
    (h : Cut (.token kind (c :: cs) literal) rest) (hc : isLetter c = true) :
    Lexeme kind (c :: cs) literal ∧ ∀ d, rest.head? = some d → isWordChar d = false := by
  cases h with
  | lexeme hlexeme hlongest _ =>
    refine ⟨hlexeme, fun d hd => ?_⟩
    by_contra hword
    obtain ⟨rest, rfl⟩ := List.head?_eq_some_iff.1 hd
    have hcs : ∀ e ∈ cs ++ [d], isWordChar e = true := by
      intro e he
      rcases List.mem_append.1 he with he | he
      · exact (hlexeme.word hc).1 e he
      · rw [List.mem_singleton.1 he]
        simpa using hword
    have hlonger := hlongest _ (c :: (cs ++ [d])) _ (by simp) (lexeme_word hc hcs)
    simp at hlonger
  | string _ => exact absurd hc (by decide)

/-- A text that differs from another only after the beginning of a word ends its pieces alike. -/
theorem Cut.parts {p : Piece} {rest rest' : List Char} (h : Cut p rest) (hp : p.fault? = none)
    (hrest : Parts rest rest') : Cut p rest' := by
  cases h with
  | blank h => exact .blank h
  | comment hbody hnewline =>
    refine .comment hbody fun d hd => ?_
    obtain ⟨c, hc, rfl | ⟨hletter, -⟩⟩ := hrest.head? hd
    · exact hnewline c hc
    · rw [hnewline c hc] at hletter
      exact absurd hletter (by decide)
  | @lexeme kind chars _ literal hlexeme hlongest hslash =>
    obtain ⟨c, cs, rfl, hfollows⟩ := hlexeme.follows
    by_cases hc : isLetter c = true
    · obtain ⟨hcs, rfl, rfl⟩ := hlexeme.word hc
      refine cut_word hc hcs fun d hd => ?_
      obtain ⟨-, hends⟩ := (Cut.lexeme hlexeme hlongest hslash).word hc
      obtain ⟨c', hc', rfl | ⟨hletter, -⟩⟩ := hrest.head? hd
      · exact hends c' hc'
      · have hnone := hends c' hc'
        simp [isWordChar, hletter] at hnone
    · refine .lexeme hlexeme (fun kind' longer literal' hprefix hlonger => ?_) fun hprefix => ?_
      · obtain ⟨_, ds, rfl, hds⟩ := hlonger.follows
        obtain ⟨rfl, -⟩ := List.cons_prefix_cons.1 hprefix
        exact hlongest kind' _ literal'
          ((hrest.append _).starts (hds.no_letters (by simpa using hc)) hprefix) hlonger
      · have hslashes : ∀ c ∈ ['/', '/'], isLetter c = false :=
          List.forall_mem_cons.2 ⟨by decide, List.forall_mem_singleton.2 (by decide)⟩
        exact hslash ((hrest.append _).starts hslashes hprefix)
  | string h => exact .string h
  | stray => cases hp
  | unclosed => cases hp

/-! ## Sources -/

theorem Lexeme.letter {c : Char} {cs : List Char} {literal : Literal}
    (h : Lexeme .identifier (c :: cs) literal) : isLetter c = true := by
  rcases h.sorts with ⟨-, hmem, -⟩ | ⟨-, hkind, -⟩ | ⟨hc, -⟩
  · exact absurd rfl ((by decide : ∀ p ∈ operators, p.2 ≠ .identifier) _ hmem)
  · cases hkind
  · exact hc

/-- An identifier is no keyword. -/
theorem Lexeme.ne_keyword {x : String} (h : Lexeme .identifier x.toList .nil) :
    x ≠ "this" ∧ x ≠ "super" := by
  have hkind : .identifier = wordKind x := by
    obtain ⟨c, cs, hxs, -⟩ := h.follows
    rw [hxs] at h
    rw [(h.word h.letter).2.1, ← hxs, String.ofList_toList]
  refine ⟨?_, ?_⟩ <;> rintro rfl <;> exact absurd hkind (by decide)

theorem Tiles.cut {text : List Char} {ps : List Piece} (h : Tiles text ps) :
    ∀ p ∈ ps, ∃ rest, Cut p rest := by
  induction h with
  | nil => simp
  | cons hcut _ ih => exact List.forall_mem_cons.2 ⟨⟨_, hcut⟩, ih⟩

/-- A token is the end of the source or comes from a piece. -/
theorem mem_tokens {t : Token} {ps : List Piece} : ∀ {line : Nat}, t ∈ tokens line ps →
    t.kind = .eof ∧ t.lexeme = "" ∨ .token t.kind t.lexeme.toList t.literal ∈ ps := by
  induction ps with
  | nil =>
    intro line h
    rw [List.mem_singleton.1 h]
    exact .inl ⟨rfl, rfl⟩
  | cons p ps ih =>
    intro line h
    cases p with
    | token kind chars literal =>
      rcases List.mem_cons.1 h with rfl | h
      · exact .inr (by simp [String.toList_ofList])
      · exact (ih h).imp id (List.mem_cons_of_mem _)
    | _ => exact (ih h).imp id (List.mem_cons_of_mem _)

/-- Identifiers are told by their text. -/
theorem identifier_iff {source : String} {t : Token} (h : t ∈ (scan source).tokens) :
    t.kind = .identifier ↔ Lexeme .identifier t.lexeme.toList .nil := by
  rcases mem_tokens h with ⟨hkind, hlexeme⟩ | hmem
  · rw [hkind, hlexeme]
    refine ⟨nofun, fun hempty => ?_⟩
    obtain ⟨c, cs, hnil, -⟩ := hempty.follows
    cases hnil
  · obtain ⟨rest, hcut⟩ := (tiles_pieces _).cut _ hmem
    generalize t.kind = kind, t.lexeme.toList = chars, t.literal = literal at hcut ⊢
    cases hcut with
    | lexeme hlexeme _ _ =>
      obtain ⟨c, cs, rfl, -⟩ := hlexeme.follows
      refine ⟨fun hkind => ?_, fun hidentifier => (hlexeme.unique hidentifier).1⟩
      subst hkind
      rwa [(hlexeme.word hlexeme.letter).2.2] at hlexeme
    | string _ => exact ⟨nofun, fun hidentifier => absurd hidentifier.letter (by decide)⟩

variable {x y : String} (hx : Lexeme .identifier x.toList .nil)
  (hy : Lexeme .identifier y.toList .nil)

theorem fault?_respelled {ps ps' : List Piece} (h : List.Forall₂ (Piece.Respelled x y) ps ps')
    (hps : ∀ p ∈ ps, p.fault? = none) : ∀ p ∈ ps', p.fault? = none := by
  induction h with
  | nil => simp
  | cons hp _ ih =>
    obtain ⟨hnone, hps⟩ := List.forall_mem_cons.1 hps
    refine List.forall_mem_cons.2 ⟨?_, ih hps⟩
    rcases hp with rfl | ⟨literal, -, rfl⟩
    · exact hnone
    · rfl

include hx hy

theorem parts_of_respelled {ps ps' : List Piece} (h : List.Forall₂ (Piece.Respelled x y) ps ps') :
    Parts (ps.flatMap Piece.chars) (ps'.flatMap Piece.chars) := by
  obtain ⟨c, cs, hxs, -⟩ := hx.follows
  obtain ⟨d, ds, hys, -⟩ := hy.follows
  rw [hxs] at hx
  rw [hys] at hy
  induction h with
  | nil => exact .nil
  | cons hp _ ih =>
    rw [List.flatMap_cons, List.flatMap_cons]
    rcases hp with rfl | ⟨literal, rfl, rfl⟩
    · exact ih.append _
    · simp only [Piece.chars, hxs, hys]
      exact .words hx.letter hy.letter

/-- The text is cut in the same places with its identifiers spelled in the other way. -/
theorem Tiles.respelled {text : List Char} {ps ps' : List Piece} (h : Tiles text ps)
    (hps : ∀ p ∈ ps, p.fault? = none) (hps' : List.Forall₂ (Piece.Respelled x y) ps ps') :
    Tiles (ps'.flatMap Piece.chars) ps' := by
  induction h generalizing ps' with
  | nil =>
    cases hps'
    exact .nil
  | @cons p rest ps hcut htiles ih =>
    obtain ⟨hp, hps⟩ := List.forall_mem_cons.1 hps
    cases hps' with
    | @cons _ p' _ ps' hp' hps' =>
      have hrest : rest = ps.flatMap Piece.chars := by
        rw [htiles.eq_pieces, flatMap_pieces]
      have hparts : Parts rest (ps'.flatMap Piece.chars) :=
        hrest ▸ parts_of_respelled hx hy hps'
      rw [List.flatMap_cons]
      refine .cons ?_ (ih hps hps')
      rcases hp' with rfl | ⟨literal, rfl, rfl⟩
      · exact hcut.parts hp hparts
      · obtain ⟨c, cs, hxs, -⟩ := hx.follows
        obtain ⟨d, ds, hys, -⟩ := hy.follows
        rw [hxs] at hx hcut
        rw [hys] at hy ⊢
        obtain ⟨hlexeme, hends⟩ := hcut.word hx.letter
        obtain ⟨-, hliteral⟩ := hx.unique hlexeme
        obtain ⟨hds, hkind, -⟩ := hy.word hy.letter
        rw [← hliteral, hkind]
        refine cut_word hy.letter hds fun e he => ?_
        obtain ⟨e', he', rfl | ⟨hletter, -⟩⟩ := hparts.head? he
        · exact hends e' he'
        · have hnone := hends e' he'
          simp [isWordChar, hletter] at hnone

/-- There are pieces for the tokens that are spelled in the other way. -/
theorem pieces_of_respelled {ps : List Piece} : ∀ {line : Nat} {ts : List Token},
    List.Forall₂ (Token.Respelled x y) (tokens line ps) ts →
    ∃ ps', List.Forall₂ (Piece.Respelled x y) ps ps' ∧ tokens line ps' = ts := by
  have hlines : ∀ literal, (Piece.token .identifier x.toList literal).lineBreaks =
      (Piece.token .identifier y.toList literal).lineBreaks := by
    intro literal
    simp only [Piece.lineBreaks, Piece.chars,
      List.count_eq_zero.2 (hx.blank_not_mem (b := '\n') (by decide)),
      List.count_eq_zero.2 (hy.blank_not_mem (b := '\n') (by decide))]
  induction ps with
  | nil =>
    intro line ts h
    obtain ⟨t', _, ht', hnil, rfl⟩ := List.forall₂_cons_left_iff.1 h
    cases List.forall₂_nil_left_iff.1 hnil
    rcases ht' with rfl | ⟨hkind, -⟩
    · exact ⟨[], .nil, rfl⟩
    · cases hkind
  | cons p ps ih =>
    intro line ts h
    have hother : ∀ {ts'}, tokens line (p :: ps) = tokens (line + p.lineBreaks) ps →
        (∀ qs, tokens line (p :: qs) = tokens (line + p.lineBreaks) qs) → ts' = ts →
        ∃ ps', List.Forall₂ (Piece.Respelled x y) (p :: ps) ps' ∧ tokens line ps' = ts' := by
      rintro _ hp hqs rfl
      rw [hp] at h
      obtain ⟨ps', hps', htokens⟩ := ih h
      exact ⟨p :: ps', .cons (.inl rfl) hps', (hqs ps').trans htokens⟩
    cases p with
    | token kind chars literal =>
      obtain ⟨t', ts', ht', hts', rfl⟩ := List.forall₂_cons_left_iff.1 h
      obtain ⟨ps', hps', htokens⟩ := ih hts'
      rcases ht' with rfl | ⟨hkind, hlexeme, rfl⟩
      · refine ⟨.token kind chars literal :: ps', .cons (.inl rfl) hps', ?_⟩
        rw [tokens, htokens]
      · obtain rfl : kind = .identifier := hkind
        obtain rfl : String.ofList chars = x := hlexeme
        have hline := hlines literal
        rw [String.toList_ofList] at hline
        refine ⟨.token .identifier y.toList literal :: ps',
          .cons (.inr ⟨literal, by rw [String.toList_ofList], rfl⟩) hps', ?_⟩
        rw [tokens, ← hline, htokens, String.ofList_toList]
    | _ => exact hother rfl (fun _ => rfl) rfl

end Scan

open Scan in
/-- There is a source for the tokens of another one with identifiers spelled in the other way. -/
theorem scan_respelled {source x y : String} {ts : List Token}
    (hx : Lexeme .identifier x.toList .nil) (hy : Lexeme .identifier y.toList .nil)
    (hfaults : (scan source).faults = [])
    (h : List.Forall₂ (Token.Respelled x y) (scan source).tokens ts) :
    ∃ source', List.Forall₂ (Piece.Respelled x y) (pieces source.toList) (pieces source'.toList) ∧
      scan source' = ⟨ts, []⟩ := by
  obtain ⟨ps', hps', htokens⟩ := pieces_of_respelled hx hy h
  have hps := (faults_eq_nil_iff _ _).1 hfaults
  have htiles := (tiles_pieces source.toList).respelled hx hy hps hps'
  have hpieces := htiles.eq_pieces
  refine ⟨String.ofList (ps'.flatMap Piece.chars), ?_, ?_⟩
  · rwa [String.toList_ofList, ← hpieces]
  · simp only [scan, String.toList_ofList, ← hpieces, htokens]
    congr 1
    exact (faults_eq_nil_iff _ _).2 (fault?_respelled hps' hps)

end Lox
