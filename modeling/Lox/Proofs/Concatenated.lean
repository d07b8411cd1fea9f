import Mathlib.Tactic
import Lox.Proofs.Joined
import Lox.Proofs.Recovery
import Lox.Session

/-!
# A program in front of any tokens

A program that is read without complaint can be put in front of any tokens but an `else`, and they
are read as they are alone: with the same complaints, and with its declarations in front of theirs
(`program_append`). Nothing is asked of these tokens but that the source ends in them, so they may
go wrong anywhere; what is skipped then depends on what follows, never on what came before.

The loop over the declarations reaches the tokens with the first program's declarations in hand and
some turns left. The declarations it has in hand change nothing else (`loopWithin_append`), and nor
do more turns than it needs (`loopWithin_of_le`).
-/

namespace Lox

namespace Parser

variable {σ β : Type} {depth : Nat}

/-- More turns change nothing, unless the turns run out. -/
theorem loopWithin_of_le {step : σ → Parser (σ ⊕ β)} {turns turns' : Nat} (hle : turns ≤ turns')
    (s : σ) (tokens : List Token) (h : (loopWithin step turns s tokens).result ≠ .noToken) :
    loopWithin step turns' s tokens = loopWithin step turns s tokens := by
  induction turns generalizing turns' s tokens with
  | zero => exact absurd rfl h
  | succ turns ih =>
    obtain ⟨more, rfl⟩ := Nat.exists_eq_add_of_le hle
    rw [Nat.add_right_comm]
    simp only [loopWithin, Bind.bind, Parser.bind] at h ⊢
    rcases hreply : step s tokens with ⟨complaints, ⟨next, rest⟩ | rest | _ | _⟩ <;>
      rw [hreply] at h
    cases next with
    | inl s => exact congrArg (Reply.after complaints) (ih (Nat.le_add_right _ _) s rest h)
    | inr b => rfl

/-- The declarations in hand are put in front of those to come, and change nothing else. -/
theorem loopWithin_append (ns : List Node) (turns : Nat) (ns' : List Node) :
    loopWithin (programTurn depth) turns (ns ++ ns') =
      (ns ++ ·) <$> loopWithin (programTurn depth) turns ns' := by
  induction turns generalizing ns' with
  | zero => rfl
  | succ turns ih =>
    simp only [loopWithin, programTurn_append, map_bind, bind_map_left]
    congr 1
    funext next
    cases next with
    | inl ns' => exact ih ns'
    | inr result => simp [map_pure]

/-- With tokens that end, the loop over the declarations never runs out of turns. -/
theorem program_ne_noToken {tokens : List Token} (h : Ended tokens) :
    (program depth tokens).result ≠ .noToken := by
  intro hnone
  rcases program_result depth h with ⟨statements, hok⟩ | ⟨hdeep, -⟩
  · cases hnone.symm.trans hok
  · cases hnone.symm.trans hdeep

/-- Any tokens but an `else` are read after a program as they are alone. -/
theorem program_append {first second rest : List Token} {last : Token} {ns : List Node}
    (hlast : last.kind = .eof) (hfirst : ∀ t ∈ first, t.kind ≠ .eof)
    (h : (program depth).Gives (first ++ [last]) ns rest)
    (hended : Ended second) (hsecond : Stops [.elseWord] second) :
    program depth (first ++ second) = ((ns ++ ·) <$> program depth) second := by
  have hderives := (derives_of_gives true hlast hfirst h).1
  rcases hderives.accepts depth (programTurn depth) (by simp) with hloops | hdeep
  · obtain ⟨turns, hturns, heq⟩ := hloops second hsecond
    have hmore : loopWithin (programTurn depth) turns [] second = program depth second :=
      loopWithin_of_le hturns [] second (program_ne_noToken hended)
    calc program depth (first ++ second)
        = loopWithin (programTurn depth) turns ns second := heq
      _ = loopWithin (programTurn depth) turns (ns ++ []) second := by rw [List.append_nil]
      _ = ((ns ++ ·) <$> loopWithin (programTurn depth) turns []) second := by
        rw [loopWithin_append]
      _ = ((ns ++ ·) <$> program depth) second := by
        simp only [Functor.map, Parser.bind, hmore]
  · -- what was read cannot have been too deep
    have hstops : Stops [.elseWord] [last] := stops_cons hlast (by decide)
    have hcontra := h.symm.trans (hdeep [last] hstops)
    simp at hcontra

end Parser

namespace Session

open Lox.Parser

/-- What a session makes of a parser's result. -/
theorem parseTokens_map {s : Session} {tokens tokens' : List Token} {f : List Node → List Node}
    (h : program s.limits.grammar tokens = (f <$> program s.limits.grammar) tokens')
    (hended : Ended tokens') :
    (program s.limits.grammar tokens).complaints =
        (program s.limits.grammar tokens').complaints ∧
      s.parseTokens tokens =
        ((s.parseTokens tokens').1, (s.parseTokens tokens').2.map f) := by
  have hresult := program_result s.limits.grammar hended
  simp only [Functor.map, Parser.bind] at h
  rcases hreply : program s.limits.grammar tokens' with ⟨complaints, ⟨ns, rest⟩ | rest | _ | _⟩ <;>
    rw [hreply] at h hresult
  · simp [parseTokens, h, hreply, Reply.after, Parser.pure, Except.map]
  · simp at hresult
  · simp at hresult
  · simp [parseTokens, h, hreply, Except.map]

/-- A program that is read without complaint, in front of any tokens with an end of source that do
not begin with an `else`: what is reported is what is reported of these tokens alone, in the same
order, and the statements are those of the program and then those of the tokens. If the depth is
enough for the tokens, there are such statements. -/
theorem parseTokens_append (s : Session) {first second : List Token} {last : Token}
    {ns : List Node} (hlast : last.kind = .eof) (hfirst : ∀ t ∈ first, t.kind ≠ .eof)
    (hparsed : (s.parseTokens (first ++ [last])).2 = .ok ns)
    (hclean : (program s.limits.grammar (first ++ [last])).complaints = [])
    (hsecond : Ended second) (helse : ∀ t, second.head? = some t → t.kind ≠ .elseWord) :
    (program s.limits.grammar (first ++ second)).complaints =
      (program s.limits.grammar second).complaints ∧
    s.parseTokens (first ++ second) =
      ((s.parseTokens second).1, (s.parseTokens second).2.map (ns ++ ·)) ∧
    (10 * second.length + 12 ≤ s.limits.grammar → ∃ ns', (s.parseTokens second).2 = .ok ns') := by
  have hended : Ended (first ++ [last]) := ⟨last, by simp, hlast⟩
  have hdeep : (program s.limits.grammar (first ++ [last])).result ≠ .tooDeep := by
    intro hdeep
    rw [parseTokens, hdeep] at hparsed
    cases hparsed
  obtain ⟨ns', rest, hgives⟩ := gives_of_complaints hended hclean hdeep
  obtain rfl : ns' = ns := by
    rw [parseTokens, hgives] at hparsed
    exact Except.ok.inj hparsed
  have hstops : Stops [.elseWord] second := by
    obtain ⟨t, ht, -⟩ := hsecond
    obtain ⟨t, us, rfl⟩ := List.exists_cons_of_ne_nil (List.ne_nil_of_mem ht)
    exact ⟨t, us, rfl, by simpa using helse t rfl⟩
  obtain ⟨hcomplaints, hboth⟩ :=
    parseTokens_map (program_append hlast hfirst hgives hsecond hstops) hsecond
  refine ⟨hcomplaints, hboth, fun henough => ?_⟩
  rcases program_result s.limits.grammar hsecond with ⟨statements, hok⟩ | ⟨-, hdeep⟩
  · exact ⟨statements, by rw [parseTokens, hok]⟩
  · omega

/-- A dangling `if`, in front of tokens that go wrong twice. -/
theorem parseTokens_append_malformed :
    let first := (scan "if (a) print a;").tokens.dropLast
    let second := (scan "1 + ; print b; )").tokens
    ((program 10000 second).complaints.map (·.token.line)) = [1, 1] ∧
    (program 10000 (first ++ second)).complaints = (program 10000 second).complaints ∧
    ∃ n n', (parseTokens {} (first ++ [⟨.eof, "", .nil, 1⟩])).2 = .ok [n] ∧
      (parseTokens {} second).2 = .ok [n'] ∧
      (parseTokens {} (first ++ second)).2 = .ok [n, n'] := by
  intro first second
  have hcount : ∀ tokens, ((parseTokens {} tokens).2.toOption.map List.length) = some 1 →
      ∃ n, (parseTokens {} tokens).2 = .ok [n] := by
    intro tokens hone
    cases hparsed : (parseTokens {} tokens).2 with
    | error crash => simp [hparsed, Except.toOption] at hone
    | ok ns =>
      rw [hparsed] at hone
      obtain ⟨n, rfl⟩ := List.length_eq_one_iff.1 (Option.some.inj hone)
      exact ⟨n, rfl⟩
  obtain ⟨n, hn⟩ := hcount (first ++ [⟨.eof, "", .nil, 1⟩]) (by decide +kernel)
  obtain ⟨n', hn'⟩ := hcount second (by decide +kernel)
  have hsecond : Ended second := ⟨⟨.eof, "", .nil, 1⟩, by decide +kernel, rfl⟩
  obtain ⟨hcomplaints, hboth, -⟩ := parseTokens_append {} rfl (by decide +kernel) hn
    (by decide +kernel) hsecond (by decide +kernel)
  refine ⟨by decide +kernel, hcomplaints, n, n', hn, hn', ?_⟩
  rw [hboth, hn']
  rfl

end Session

end Lox
