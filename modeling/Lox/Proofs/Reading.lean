import Mathlib.Tactic
import Lox.Proofs.Derived

/-!
# Reading some tokens before any others

A parser `Reads` some tokens as a value if it takes just these, without complaint, before all rests
of a sort. A list or a chain of operators is read by a loop, which comes to stand at what it has
made of the tokens so far (`Loops`).

If the depth is not enough it is not so before all such rests alike: what comes after the tokens has
no part in how deep they are nested.
-/

namespace Lox

namespace Parser

variable {α β σ : Type}

/-- The next token is of none of the kinds. -/
def Stops (kinds : List TokenKind) (rest : List Token) : Prop :=
  ∃ t us, rest = t :: us ∧ t.kind ∉ kinds

/-- The next token is of one of the kinds. -/
def Opens (kinds : List TokenKind) (rest : List Token) : Prop :=
  ∃ t us, rest = t :: us ∧ t.kind ∈ kinds

/-- The parser reads the tokens as the value before any rest of the sort, or it is not deep enough
before any. -/
def Reads (p : Parser α) (ts : List Token) (a : α) (P : List Token → Prop) : Prop :=
  (∀ rest, P rest → p.Gives (ts ++ rest) a rest) ∨ ∀ rest, P rest → p (ts ++ rest) = ⟨[], .tooDeep⟩

/-- After the tokens the parser is in its loop, with the state, before any rest of the sort, or it
is not deep enough before any. -/
def Loops (p : Parser β) (step : σ → Parser (σ ⊕ β)) (s : σ) (ts : List Token)
    (P : List Token → Prop) : Prop :=
  (∀ rest, P rest → ∃ turns, rest.length < turns ∧ p (ts ++ rest) = loopWithin step turns s rest) ∨
    ∀ rest, P rest → p (ts ++ rest) = ⟨[], .tooDeep⟩

variable {p : Parser α} {f : α → Parser β} {ts us : List Token} {a : α} {b : β}
  {P Q : List Token → Prop}

/-! ## Rules -/

theorem bind_of_tooDeep {tokens : List Token} (h : p tokens = ⟨[], .tooDeep⟩) :
    (p >>= f) tokens = ⟨[], .tooDeep⟩ := by
  show Parser.bind p f tokens = _
  rw [Parser.bind, h]

theorem bind_of_gives {tokens rest : List Token} (h : p.Gives tokens a rest) :
    (p >>= f) tokens = f a rest := by
  show Parser.bind p f tokens = _
  rw [Parser.bind, h]
  rfl

theorem Reads.bind (h : Reads p ts a P) (hf : Reads (f a) us b Q)
    (hrest : ∀ rest, Q rest → P (us ++ rest)) : Reads (p >>= f) (ts ++ us) b Q := by
  rcases h with h | h
  · have heq : ∀ rest, Q rest → (p >>= f) (ts ++ us ++ rest) = f a (us ++ rest) := by
      intro rest hQ
      rw [List.append_assoc]
      exact bind_of_gives (h _ (hrest rest hQ))
    rcases hf with hf | hf
    · exact .inl fun rest hQ => (heq rest hQ).trans (hf rest hQ)
    · exact .inr fun rest hQ => (heq rest hQ).trans (hf rest hQ)
  · refine .inr fun rest hQ => ?_
    rw [List.append_assoc]
    exact bind_of_tooDeep (h _ (hrest rest hQ))

theorem Reads.mono (h : Reads p ts a P) (hPQ : ∀ rest, Q rest → P rest) : Reads p ts a Q :=
  h.imp (fun h rest hQ => h rest (hPQ rest hQ)) fun h rest hQ => h rest (hPQ rest hQ)

theorem reads_pure : Reads (Pure.pure a : Parser α) [] a P :=
  .inl fun _ _ => gives_pure_iff.2 ⟨rfl, rfl⟩

/-- A part, and then what is made of it. -/
theorem Reads.map {g : α → β} (h : Reads p ts a P) : Reads (g <$> p) ts (g a) P := by
  have hbind := h.bind (f := fun a => Pure.pure (g a)) (reads_pure (P := P)) fun _ h => h
  rwa [List.append_nil] at hbind

theorem reads_tooDeep : Reads (tooDeep : Parser α) ts a P := .inr fun _ _ => rfl

theorem reads_accept {kinds : List TokenKind} {t : Token} (h : t.kind ∈ kinds) :
    Reads (accept? kinds) [t] (some t) P :=
  .inl fun _ _ => gives_accept_iff.2 (.inl ⟨t, rfl, h, rfl⟩)

theorem reads_refuse {kinds : List TokenKind} : Reads (accept? kinds) [] none (Stops kinds) :=
  .inl fun _ hrest => gives_accept_iff.2 (.inr ⟨rfl, rfl, hrest⟩)

theorem reads_expect {kind : TokenKind} {problem : Problem} {t : Token} (h : t.kind = kind) :
    Reads (expect kind problem) [t] t P :=
  .inl fun _ _ => gives_expect_iff.2 ⟨h, rfl⟩

theorem reads_check {kind : TokenKind} : Reads (check kind) [] true (Opens [kind]) := by
  refine .inl fun rest hrest => gives_check_iff.2 ⟨rfl, ?_⟩
  obtain ⟨t, us, rfl, ht⟩ := hrest
  exact ⟨t, rfl, by simpa using ht⟩

theorem reads_check_not {kind : TokenKind} : Reads (check kind) [] false (Stops [kind]) := by
  refine .inl fun rest hrest => gives_check_iff.2 ⟨rfl, ?_⟩
  obtain ⟨t, us, rfl, ht⟩ := hrest
  exact ⟨t, rfl, by simpa using ht⟩

/-- The token is looked at and then read by what follows. -/
theorem Reads.peek {f : Token → Parser β} {t : Token} (h : Reads (f t) (t :: us) b P) :
    Reads (peek >>= f) (t :: us) b P := by
  have heq : ∀ rest, (Parser.peek >>= f) (t :: us ++ rest) = f t (t :: us ++ rest) := fun rest =>
    bind_of_gives (gives_peek_iff.2 ⟨rfl, rfl⟩)
  exact h.imp (fun h rest hP => (heq rest).trans (h rest hP))
    fun h rest hP => (heq rest).trans (h rest hP)

theorem Reads.recover (h : Reads p ts a P) : Reads (recover p) ts (some a) P := by
  refine h.imp (fun h rest hP => ?_) fun h rest hP => ?_ <;>
  · have heq := h rest hP
    first
    | rw [Gives, Parser.recover, heq]
    | rw [Parser.recover, heq]

/-! ### Sequences -/

/-- A part with nothing after it. -/
theorem Reads.last (h : Reads p ts a P) (hf : Reads (f a) [] b Q)
    (hrest : ∀ rest, Q rest → P rest) : Reads (p >>= f) ts b Q := by
  have hbind := h.bind hf hrest
  rwa [List.append_nil] at hbind

theorem Reads.expect {kind : TokenKind} {problem : Problem} {t : Token} {f : Token → Parser β}
    (ht : t.kind = kind) (hf : Reads (f t) us b P) :
    Reads (expect kind problem >>= f) (t :: us) b P :=
  (reads_expect (P := fun _ => True) ht).bind hf fun _ _ => trivial

theorem Reads.accept {kinds : List TokenKind} {t : Token} {f : Option Token → Parser β}
    (ht : t.kind ∈ kinds) (hf : Reads (f (some t)) us b P) :
    Reads (accept? kinds >>= f) (t :: us) b P :=
  (reads_accept (P := fun _ => True) ht).bind hf fun _ _ => trivial

theorem Reads.refuse {kinds : List TokenKind} {f : Option Token → Parser β}
    (hf : Reads (f none) us b P) (hrest : ∀ rest, P rest → Stops kinds (us ++ rest)) :
    Reads (accept? kinds >>= f) us b P :=
  reads_refuse.bind hf hrest

theorem Reads.check_not {kind : TokenKind} {f : Bool → Parser β} (hf : Reads (f false) us b P)
    (hrest : ∀ rest, P rest → Stops [kind] (us ++ rest)) : Reads (check kind >>= f) us b P :=
  reads_check_not.bind hf hrest

section Loops

variable {q : Parser β} {turn : σ → Parser (σ ⊕ β)} {s s' : σ}

theorem loops_start : Loops (loop turn s) turn s [] P :=
  .inl fun rest _ => ⟨rest.length + 1, Nat.lt_succ_self _, rfl⟩

/-- The parts before a loop. -/
theorem Reads.loops (h : Reads p ts a P) (hf : Loops (f a) turn s us Q)
    (hrest : ∀ rest, Q rest → P (us ++ rest)) : Loops (p >>= f) turn s (ts ++ us) Q := by
  rcases h with h | h
  · have heq : ∀ rest, Q rest → (p >>= f) (ts ++ us ++ rest) = f a (us ++ rest) := by
      intro rest hQ
      rw [List.append_assoc]
      exact bind_of_gives (h _ (hrest rest hQ))
    rcases hf with hf | hf
    · refine .inl fun rest hQ => ?_
      obtain ⟨turns, hturns, hloop⟩ := hf rest hQ
      exact ⟨turns, hturns, (heq rest hQ).trans hloop⟩
    · exact .inr fun rest hQ => (heq rest hQ).trans (hf rest hQ)
  · refine .inr fun rest hQ => ?_
    rw [List.append_assoc]
    exact bind_of_tooDeep (h _ (hrest rest hQ))

/-- One more turn of the loop. -/
theorem Loops.again (h : Loops q turn s ts P) (hnext : Reads (turn s) us (.inl s') Q)
    (hne : us ≠ []) (hrest : ∀ rest, Q rest → P (us ++ rest)) : Loops q turn s' (ts ++ us) Q := by
  rcases h with h | h
  · have hturn : ∀ rest, Q rest → ∃ turns, (us ++ rest).length ≤ turns ∧
        q (ts ++ us ++ rest) = loopWithin turn (turns + 1) s (us ++ rest) := by
      intro rest hQ
      obtain ⟨turns, hturns, hloop⟩ := h _ (hrest rest hQ)
      obtain ⟨turns, rfl⟩ := Nat.exists_eq_add_of_lt hturns
      exact ⟨_, Nat.le_add_right _ turns, by rw [List.append_assoc, hloop]⟩
    have hlength := List.length_pos_iff.2 hne
    rcases hnext with hnext | hnext
    · refine .inl fun rest hQ => ?_
      obtain ⟨turns, hturns, hloop⟩ := hturn rest hQ
      rw [List.length_append] at hturns
      refine ⟨turns, by omega, hloop.trans ?_⟩
      exact bind_of_gives (hnext rest hQ)
    · refine .inr fun rest hQ => ?_
      obtain ⟨turns, hturns, hloop⟩ := hturn rest hQ
      exact hloop.trans (bind_of_tooDeep (hnext rest hQ))
  · refine .inr fun rest hQ => ?_
    rw [List.append_assoc]
    exact h _ (hrest rest hQ)

/-- The loop ends where its turn takes nothing. -/
theorem Loops.finish (h : Loops q turn s ts P) (hnext : Reads (turn s) [] (.inr b) Q)
    (hrest : ∀ rest, Q rest → P rest) : Reads q ts b Q := by
  rcases h with h | h
  · have hturn : ∀ rest, Q rest → ∃ turns,
        q (ts ++ rest) = loopWithin turn (turns + 1) s rest := by
      intro rest hQ
      obtain ⟨turns, hturns, hloop⟩ := h _ (hrest rest hQ)
      obtain ⟨turns, rfl⟩ := Nat.exists_eq_add_of_lt hturns
      exact ⟨_, hloop⟩
    rcases hnext with hnext | hnext
    · refine .inl fun rest hQ => ?_
      obtain ⟨turns, hloop⟩ := hturn rest hQ
      exact hloop.trans (bind_of_gives (hnext rest hQ))
    · refine .inr fun rest hQ => ?_
      obtain ⟨turns, hloop⟩ := hturn rest hQ
      exact hloop.trans (bind_of_tooDeep (hnext rest hQ))
  · exact .inr fun rest hQ => h _ (hrest rest hQ)

end Loops

end Parser

end Lox
