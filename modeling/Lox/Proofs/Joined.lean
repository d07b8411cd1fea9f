import Mathlib.Tactic
import Lox.Proofs.Lexicon
import Lox.Proofs.Relabeled
import Lox.Proofs.Retracing

/-!
# Two sources in one

Two sources with a line break between them are scanned, parsed and resolved as each of them is, if
there is nothing to complain of in either. The tokens of the second are on later lines, and that is
all that changes (`scan_joined`, `program_joined`, `resolve_joined`).

A line break ends every piece of the first source but an open string, and a declaration is read the
same before whatever comes after it. What the first source declares it declares as globals, which
resolution does not keep track of.
-/

namespace Lox

/-- The token so many lines further down. -/
def Token.later (lines : Nat) (t : Token) : Token := { t with line := t.line + lines }

/-! ## Scanning -/

namespace Scan

variable {ps qs : List Piece}

/-- A lexeme does not go over a blank. -/
theorem Lexeme.blank_not_mem {kind : TokenKind} {chars : List Char} {literal : Literal}
    (h : Lexeme kind chars literal) {b : Char} (hb : b ∈ [' ', '\t', '\r', '\n']) : b ∉ chars := by
  obtain ⟨c, cs, rfl, hfollows⟩ := h.follows
  have hfirst : c ≠ b := by
    rintro rfl
    exact h.not_blank_or_quote (List.mem_append_left ['"'] hb)
  have hother : isDigit b = false ∧ isWordChar b = false ∧ b ≠ '=' ∧ b ≠ '.' := by
    fin_cases hb <;> decide
  obtain ⟨hdigit, hword, hequal, hdot⟩ := hother
  have hrest : b ∉ cs := by
    cases hfollows with
    | operator _ hcs => rcases hcs with rfl | ⟨rfl, -⟩ <;> simp [hequal]
    | whole _ hcs => exact fun hmem => by simp [hcs _ hmem] at hdigit
    | fraction _ hcs _ hplaces =>
      intro hmem
      rcases List.mem_append.1 hmem with hmem | hmem
      · simp [hcs _ hmem] at hdigit
      · rcases List.mem_cons.1 hmem with heq | hmem
        · exact hdot heq
        · simp [hplaces _ hmem] at hdigit
    | word _ hcs => exact fun hmem => by simp [hcs _ hmem] at hword
  exact fun hmem => (List.mem_cons.1 hmem).elim (fun heq => hfirst heq.symm) hrest

/-- A text without a character starts before the character. -/
theorem prefix_of_not_mem {stop : Char} : ∀ {text before after : List Char}, stop ∉ text →
    text <+: before ++ stop :: after → text <+: before
  | [], _, _, _, _ => List.nil_prefix
  | c :: text, [], _, htext, h => by
    obtain ⟨rfl, -⟩ := List.cons_prefix_cons.1 h
    simp at htext
  | c :: text, d :: before, after, htext, h => by
    obtain ⟨rfl, hrest⟩ := List.cons_prefix_cons.1 h
    exact List.cons_prefix_cons.2
      ⟨rfl, prefix_of_not_mem (fun hmem => htext (List.mem_cons_of_mem _ hmem)) hrest⟩

/-- What is cut off before the end of a source is cut off before a line break. -/
theorem Cut.before_newline {p : Piece} {rest : List Char} (h : Cut p rest) (hp : p.fault? = none)
    (after : List Char) : Cut p (rest ++ '\n' :: after) := by
  cases h with
  | blank h => exact .blank h
  | comment hbody hrest =>
    refine .comment hbody fun c hc => ?_
    cases rest with
    | nil => exact (Option.some.inj hc).symm
    | cons d rest => exact hrest c hc
  | lexeme hlexeme hlongest hslash =>
    refine .lexeme hlexeme (fun kind longer literal hprefix hlonger => ?_) fun hprefix => ?_
    · rw [← List.append_assoc] at hprefix
      exact hlongest kind longer literal
        (prefix_of_not_mem (hlonger.blank_not_mem (by decide)) hprefix) hlonger
    · rw [← List.append_assoc] at hprefix
      exact hslash (prefix_of_not_mem (by decide) hprefix)
  | string h => exact .string h
  | stray => cases hp
  | unclosed => cases hp

theorem Tiles.join {text after : List Char} (h : Tiles text ps) (hps : ∀ p ∈ ps, p.fault? = none)
    (hafter : Tiles after qs) : Tiles (text ++ '\n' :: after) (ps ++ .blank '\n' :: qs) := by
  induction h with
  | nil => exact .cons (.blank (by decide)) hafter
  | cons hcut _ ih =>
    obtain ⟨hp, hps⟩ := List.forall_mem_cons.1 hps
    rw [List.append_assoc]
    exact .cons (hcut.before_newline hp after) (ih hps)

theorem faults_eq_nil_iff (line : Nat) (ps : List Piece) :
    faults line ps = [] ↔ ∀ p ∈ ps, p.fault? = none := by
  induction ps generalizing line with
  | nil => simp [faults]
  | cons p ps ih => cases p <;> simp [faults, Piece.fault?, ih]

/-- The line breaks in the pieces. -/
def lineBreaks (ps : List Piece) : Nat := (ps.flatMap Piece.chars).count '\n'

theorem tokens_ne_nil (line : Nat) (ps : List Piece) : tokens line ps ≠ [] := by
  induction ps generalizing line with
  | nil => simp [tokens]
  | cons p ps ih => cases p <;> simp [tokens, ih]

theorem tokens_append (line : Nat) (ps qs : List Piece) :
    tokens line (ps ++ qs) = (tokens line ps).dropLast ++ tokens (line + lineBreaks ps) qs := by
  induction ps generalizing line with
  | nil => simp [tokens, lineBreaks]
  | cons p ps ih =>
    have hlines : line + lineBreaks (p :: ps) = line + p.lineBreaks + lineBreaks ps := by
      simp [lineBreaks, Piece.lineBreaks, Nat.add_assoc]
    rw [hlines]
    cases p <;> simp [tokens, ih, List.dropLast_cons_of_ne_nil (tokens_ne_nil _ _)]

theorem tokens_later (line lines : Nat) (ps : List Piece) :
    tokens (line + lines) ps = (tokens line ps).map (Token.later lines) := by
  induction ps generalizing line with
  | nil => simp [tokens, Token.later]
  | cons p ps ih =>
    have hline : line + lines + p.lineBreaks = line + p.lineBreaks + lines := Nat.add_right_comm ..
    cases p <;> simp [tokens, hline, ih, Token.later]

end Scan

open Scan in
/-- Two sources joined by a line break have the tokens of the first and then, further down, those of
the second. -/
theorem scan_joined {first second : String} (hfirst : (scan first).faults = [])
    (hsecond : (scan second).faults = []) :
    scan (first ++ "\n" ++ second) =
      ⟨(scan first).tokens.dropLast ++
        (scan second).tokens.map (Token.later (lineAfter first.toList)), []⟩ := by
  have hps := (faults_eq_nil_iff _ _).1 hfirst
  have hqs := (faults_eq_nil_iff _ _).1 hsecond
  have htext : (first ++ "\n" ++ second).toList = first.toList ++ '\n' :: second.toList := by
    simp
  have hpieces := ((tiles_pieces first.toList).join hps (tiles_pieces second.toList)).eq_pieces
  have hlines : lineBreaks (pieces first.toList) = first.toList.count '\n' := by
    rw [lineBreaks, flatMap_pieces]
  simp only [scan, htext, ← hpieces]
  congr 1
  · rw [tokens_append, hlines]
    congr 1
    have hblank : tokens (1 + first.toList.count '\n') (.blank '\n' :: pieces second.toList) =
        tokens (1 + lineAfter first.toList) (pieces second.toList) := by
      simp [tokens, Piece.lineBreaks, Piece.chars, lineAfter, Nat.add_comm]
    rw [hblank, tokens_later]
  · refine (faults_eq_nil_iff _ _).2 fun p hp => ?_
    rcases List.mem_append.1 hp with hp | hp
    · exact hps p hp
    · rcases List.mem_cons.1 hp with rfl | hp
      · rfl
      · exact hqs p hp

/-! ## Parsing -/

/-- Declarations begin as one of them, if there are any. -/
theorem Derives.declarations_starts {nearest : Bool} {ns : List Node} {ts : List Token}
    (h : Derives nearest (.declarations ns) ts) :
    ts = [] ∨ Parser.Opens Parser.declarationStarts ts := by
  generalize hphrase : Phrase.declarations ns = phrase at h
  induction h generalizing ns with
  | noDeclarations => exact .inl rfl
  | declarations _ hn ih _ =>
    rcases ih rfl with rfl | hopens
    · exact .inr hn.starts
    · exact .inr (hopens.append _)
  | _ => cases hphrase

namespace Parser

variable {σ β : Type} {depth : Nat}

/-- What a loop gives it gives with more turns as well. -/
theorem Gives.of_turns {step : σ → Parser (σ ⊕ β)} {tokens rest : List Token} {b : β}
    {turns turns' : Nat} {s : σ} (h : (loopWithin step turns s).Gives tokens b rest)
    (hle : turns ≤ turns') : (loopWithin step turns' s).Gives tokens b rest := by
  induction turns generalizing turns' s tokens with
  | zero => cases h
  | succ turns ih =>
    obtain ⟨more, rfl⟩ := Nat.exists_eq_add_of_le hle
    rw [Nat.add_right_comm]
    obtain ⟨next, middle, hstep, hnext⟩ := gives_bind_iff.1 h
    refine gives_bind_iff.2 ⟨next, middle, hstep, ?_⟩
    cases next with
    | inl s => exact ih hnext (Nat.le_add_right _ _)
    | inr b => exact hnext

/-- Declarations do not depend on those before. -/
theorem programTurn_append (ns ns' : List Node) :
    programTurn depth (ns ++ ns') = Sum.map (ns ++ ·) (ns ++ ·) <$> programTurn depth ns' := by
  simp only [programTurn, map_bind]
  congr 1
  funext ended
  split <;> simp [map_pure, List.append_assoc]

theorem Gives.loop_append (ns : List Node) {ns' result : List Node} {tokens rest : List Token}
    {turns : Nat}
    (h : (loopWithin (programTurn depth) turns ns').Gives tokens result rest) :
    (loopWithin (programTurn depth) turns (ns ++ ns')).Gives tokens (ns ++ result) rest := by
  induction turns generalizing ns' tokens with
  | zero => cases h
  | succ turns ih =>
    obtain ⟨next, middle, hstep, hnext⟩ := gives_bind_iff.1 h
    have hstep' : (programTurn depth (ns ++ ns')).Gives tokens
        (Sum.map (ns ++ ·) (ns ++ ·) next) middle := by
      rw [programTurn_append]
      exact gives_bind_iff.2 ⟨next, middle, hstep, gives_pure_iff.2 ⟨rfl, rfl⟩⟩
    refine gives_bind_iff.2 ⟨_, middle, hstep', ?_⟩
    cases next with
    | inl ns' => exact ih hnext
    | inr result' =>
      obtain ⟨rfl, rfl⟩ := gives_pure_iff.1 hnext
      exact gives_pure_iff.2 ⟨rfl, rfl⟩

/-- One program after the other is read as one, as deep as each of them. -/
theorem program_joined {first second rest rest' : List Token} {last : Token} {ns ns' : List Node}
    (hlast : last.kind = .eof) (hfirst : ∀ t ∈ first, t.kind ≠ .eof)
    (h : (program depth).Gives (first ++ [last]) ns rest)
    (h' : (program depth).Gives second ns' rest') (hsecond : Stops [.elseWord] second) :
    (program depth).Gives (first ++ second) (ns ++ ns') rest' := by
  have hderives := (derives_of_gives true hlast hfirst h).1
  rcases hderives.accepts depth (programTurn depth) (by simp) with hloops | hdeep
  · obtain ⟨turns, hturns, heq⟩ := hloops second hsecond
    have hread : (loopWithin (programTurn depth) (second.length + 1) []).Gives second ns' rest' :=
      h'
    have hjoined := (hread.of_turns hturns).loop_append ns
    rw [List.append_nil] at hjoined
    exact heq.trans hjoined
  · have hstops : Stops [.elseWord] [last] := stops_cons hlast (by decide)
    have hcontra := h.symm.trans (hdeep [last] hstops)
    simp at hcontra

end Parser

/-! ## Resolving -/

namespace Resolver

variable {ok : Token → Prop}

theorem nodes_append {role : Role} {ns : List Node} (hns : Node.FitAll ok role ns)
    (rest : List Node) :
    nodes (ns ++ rest) = do
      let first ← nodes ns
      return first ++ (← nodes rest) := by
  induction ns with
  | nil => simp [nodes]
  | cons n ns ih =>
    rw [List.cons_append, nodes_cons hns.1, nodes_cons hns.1, ih hns.2]
    simp

/-- Nothing is left of what is declared outside every scope. -/
theorem surroundings_nodes (hok : AllLexed ok) {ns : List Node}
    (hns : Node.FitAll ok .declaration ns) (hclean : (nodes ns {}).complaints = []) :
    (nodes ns {}).surroundings = {} := by
  have hstart : Surroundings.Agrees {} {} := ⟨rfl, rfl, rfl, rfl, trivial, nofun, nofun⟩
  have hend := (nodes_resolve hok ns hns rfl {} hstart hclean).2
  obtain ⟨-, hlength, hinit, hfunction, hclass⟩ := Site.afterAll_context {} ns
  rcases hs : (nodes ns {}).surroundings with ⟨scopes, inFunction, inClass, fault⟩
  rw [hs] at hend
  have hscopes := hend.scopes
  rw [List.length_eq_zero_iff.1 hlength, hinit] at hscopes
  obtain rfl : scopes = [] := by
    cases scopes with
    | nil => rfl
    | cons => exact hscopes.elim
  obtain rfl : fault = none := hend.fault
  obtain rfl : inFunction = .none := hend.inFunction.trans hfunction
  obtain rfl : inClass = .none := hend.inClass.trans hclass
  rfl

end Resolver

/-- Trees one after the other are resolved one after the other. -/
theorem resolve_joined {ok : Token → Prop} (hok : Resolver.AllLexed ok) {ns : List Node}
    (hns : Node.FitAll ok .declaration ns) (hclean : (resolve ns).2 = []) (ns' : List Node) :
    resolve (ns ++ ns') = ((resolve ns).1 ++ (resolve ns').1, (resolve ns').2) := by
  have hfirst : (Resolver.nodes ns {}).complaints = [] := hclean
  have hsurroundings := Resolver.surroundings_nodes hok hns hfirst
  simp only [resolve, Resolver.nodes_append hns]
  show ((Resolver.nodes ns {}).value ++
      (Resolver.nodes ns' (Resolver.nodes ns {}).surroundings).value,
    (Resolver.nodes ns {}).complaints ++
      ((Resolver.nodes ns' (Resolver.nodes ns {}).surroundings).complaints ++ [])) = _
  rw [hfirst, hsurroundings, List.nil_append, List.append_nil]

end Lox
