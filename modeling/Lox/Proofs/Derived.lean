import Mathlib.Tactic
import Lox.Proofs.Advancing
import Lox.Proofs.Grammar

/-!
# What is read without complaint is derived

When a rule of the parser gives a tree and complains of nothing, the tokens it took make up a phrase
with that tree (`program_derived`). An `else` is taken by the `if` that comes to it first, so that a
dangling statement is never followed by one.

A declaration that is given up has complained, so none is when there are no complaints.
-/

namespace Lox

namespace Parser

variable {α β σ : Type}

/-- The parser complains of nothing, and gives the value and the tokens left. -/
def Gives (p : Parser α) (tokens : List Token) (a : α) (rest : List Token) : Prop :=
  p tokens = ⟨[], .ok a rest⟩

variable {tokens rest : List Token}

theorem gives_bind_iff {p : Parser α} {f : α → Parser β} {b : β} :
    (p >>= f).Gives tokens b rest ↔
      ∃ a middle, p.Gives tokens a middle ∧ (f a).Gives middle b rest := by
  show Parser.bind p f tokens = _ ↔ _
  unfold Parser.bind Gives
  rcases p tokens with ⟨complaints, ⟨a, middle⟩ | middle | _ | _⟩
  · rcases hf : f a middle with ⟨more, result⟩
    simp only [hf, Reply.after, Reply.mk.injEq, List.append_eq_nil_iff, Result.ok.injEq]
    grind
  all_goals simp

theorem gives_pure_iff {a b : α} :
    (Pure.pure a : Parser α).Gives tokens b rest ↔ a = b ∧ tokens = rest := by
  show (⟨[], .ok a tokens⟩ : Reply α) = _ ↔ _
  simp

theorem gives_map_iff {p : Parser α} {f : α → β} {b : β} :
    (f <$> p).Gives tokens b rest ↔ ∃ a, p.Gives tokens a rest ∧ f a = b := by
  rw [map_eq_pure_bind, gives_bind_iff]
  simp [gives_pure_iff]

theorem not_gives_tooDeep {a : α} : ¬ (tooDeep : Parser α).Gives tokens a rest := nofun

theorem not_gives_complain {token : Token} {problem : Problem} {a : Unit} :
    ¬ (complain token problem).Gives tokens a rest := nofun

theorem not_gives_fail {problem : Problem} {a : α} :
    ¬ (fail problem : Parser α).Gives tokens a rest := by
  cases tokens <;> exact nofun

theorem gives_peek_iff {token : Token} :
    peek.Gives tokens token rest ↔ rest = tokens ∧ tokens.head? = some token := by
  cases tokens <;> simp [Gives, peek, eq_comm, and_comm]

theorem gives_check_iff {kind : TokenKind} {found : Bool} :
    (check kind).Gives tokens found rest ↔
      rest = tokens ∧ ∃ t, tokens.head? = some t ∧ found = decide (t.kind = kind) := by
  simp only [check, gives_bind_iff, gives_peek_iff, gives_pure_iff]
  grind

/-- A token is taken, or stays because it is of none of the kinds. -/
theorem gives_accept_iff {kinds : List TokenKind} {found : Option Token} :
    (accept? kinds).Gives tokens found rest ↔
      (∃ t, found = some t ∧ t.kind ∈ kinds ∧ tokens = t :: rest) ∨
        found = none ∧ rest = tokens ∧ ∃ t us, tokens = t :: us ∧ t.kind ∉ kinds := by
  cases tokens with
  | nil => simp [Gives, accept?]
  | cons t us =>
    by_cases h : t.kind ∈ kinds <;> simp [Gives, accept?, h] <;> grind

theorem gives_expect_iff {kind : TokenKind} {problem : Problem} {t : Token} :
    (expect kind problem).Gives tokens t rest ↔ t.kind = kind ∧ tokens = t :: rest := by
  simp only [expect, gives_bind_iff, gives_accept_iff]
  constructor
  · rintro ⟨found, middle, ⟨t', rfl, hkind, rfl⟩ | ⟨rfl, -, -⟩, h⟩
    · obtain ⟨rfl, rfl⟩ := gives_pure_iff.1 h
      exact ⟨by simpa using hkind, rfl⟩
    · exact absurd h not_gives_fail
  · rintro ⟨hkind, rfl⟩
    exact ⟨some t, rest, .inl ⟨t, rfl, by simpa using hkind, rfl⟩, gives_pure_iff.2 ⟨rfl, rfl⟩⟩

theorem Gives.of_accept {kinds : List TokenKind} {f : Option Token → Parser β} {b : β}
    (h : (accept? kinds >>= f).Gives tokens b rest) :
    (∃ t middle, t.kind ∈ kinds ∧ tokens = t :: middle ∧ (f (some t)).Gives middle b rest) ∨
      (∃ t us, tokens = t :: us ∧ t.kind ∉ kinds) ∧ (f none).Gives tokens b rest := by
  obtain ⟨found, middle, hfound, hf⟩ := gives_bind_iff.1 h
  rcases gives_accept_iff.1 hfound with ⟨t, rfl, hkind, rfl⟩ | ⟨rfl, rfl, hhead⟩
  · exact .inl ⟨t, middle, hkind, rfl, hf⟩
  · exact .inr ⟨hhead, hf⟩

theorem Gives.of_expect {kind : TokenKind} {problem : Problem} {f : Token → Parser β} {b : β}
    (h : (expect kind problem >>= f).Gives tokens b rest) :
    ∃ t middle, t.kind = kind ∧ tokens = t :: middle ∧ (f t).Gives middle b rest := by
  obtain ⟨t, middle, ht, hf⟩ := gives_bind_iff.1 h
  obtain ⟨hkind, rfl⟩ := gives_expect_iff.1 ht
  exact ⟨t, middle, hkind, rfl, hf⟩

theorem Gives.of_check {kind : TokenKind} {f : Bool → Parser β} {b : β}
    (h : (check kind >>= f).Gives tokens b rest) :
    ∃ t, tokens.head? = some t ∧ (f (decide (t.kind = kind))).Gives tokens b rest := by
  obtain ⟨found, middle, hfound, hf⟩ := gives_bind_iff.1 h
  obtain ⟨rfl, t, ht, rfl⟩ := gives_check_iff.1 hfound
  exact ⟨t, ht, hf⟩

theorem Gives.of_peek {f : Token → Parser β} {b : β} (h : (peek >>= f).Gives tokens b rest) :
    ∃ t, tokens.head? = some t ∧ (f t).Gives tokens b rest := by
  obtain ⟨t, middle, ht, hf⟩ := gives_bind_iff.1 h
  obtain ⟨rfl, hhead⟩ := gives_peek_iff.1 ht
  exact ⟨t, hhead, hf⟩

/-- Where there may be a complaint there was none. -/
theorem Gives.of_unless {c : Prop} [Decidable c] {problem : Problem} {p : Parser β} {b : β}
    (h : (if c then peek >>= fun t => complain t problem >>= fun _ => p else p).Gives tokens b
      rest) : ¬ c ∧ p.Gives tokens b rest := by
  split at h
  · obtain ⟨t, -, hmore⟩ := h.of_peek
    obtain ⟨_, _, hcomplain, -⟩ := gives_bind_iff.1 hmore
    exact absurd hcomplain not_gives_complain
  · exact ⟨‹_›, h⟩

/-- A loop that ends has kept what each of its turns keeps. -/
theorem Gives.of_loop {step : σ → Parser (σ ⊕ β)} {P : σ → List Token → Prop} {s : σ} {b : β}
    (h : (loop step s).Gives tokens b rest) (hP : P s tokens)
    (hstep : ∀ {s tokens s' rest}, P s tokens → (step s).Gives tokens (.inl s') rest → P s' rest) :
    ∃ s' tokens', P s' tokens' ∧ (step s').Gives tokens' (.inr b) rest := by
  have within : ∀ turns s tokens, (loopWithin step turns s).Gives tokens b rest → P s tokens →
      ∃ s' tokens', P s' tokens' ∧ (step s').Gives tokens' (.inr b) rest := by
    intro turns
    induction turns with
    | zero => exact fun _ _ h _ => nomatch h
    | succ turns ih =>
      intro s tokens h hP
      obtain ⟨r, middle, hturn, hmore⟩ := gives_bind_iff.1 h
      cases r with
      | inl s' => exact ih s' middle hmore (hstep hP hturn)
      | inr b' =>
        obtain ⟨rfl, rfl⟩ := gives_pure_iff.1 hmore
        exact ⟨s, tokens, hP, hturn⟩
  exact within _ s tokens h hP

/-- A loop that goes on only with a token that it took has kept what each of its turns keeps. -/
theorem Gives.of_acceptLoop {kinds : List TokenKind} {k : σ → Option Token → Parser (σ ⊕ σ)}
    {P : σ → List Token → Prop} {s b : σ}
    (h : (loop (fun s => accept? kinds >>= k s) s).Gives tokens b rest) (hP : P s tokens)
    (hnone : ∀ s, k s none = Pure.pure (.inr s))
    (hsome : ∀ {s t tokens r rest}, P s (t :: tokens) → t.kind ∈ kinds →
      (k s (some t)).Gives tokens r rest → ∃ s', r = .inl s' ∧ P s' rest) : P b rest := by
  obtain ⟨s', tokens', hP', hlast⟩ := h.of_loop hP fun hP hturn => by
    rcases hturn.of_accept with ⟨t, middle, hkind, rfl, hmore⟩ | ⟨-, hmore⟩
    · obtain ⟨s', hs', hP'⟩ := hsome hP hkind hmore
      cases hs'
      exact hP'
    · rw [hnone] at hmore
      cases (gives_pure_iff.1 hmore).1
  rcases hlast.of_accept with ⟨t, middle, hkind, rfl, hmore⟩ | ⟨-, hmore⟩
  · obtain ⟨_, hs', -⟩ := hsome hP' hkind hmore
    cases hs'
  · rw [hnone] at hmore
    obtain ⟨heq, rfl⟩ := gives_pure_iff.1 hmore
    cases heq
    exact hP'

/-- What the parser gives is the tree of a phrase that the tokens taken make up. -/
def Derived (nearest : Bool) (p : Parser α) (g : α → Phrase) : Prop :=
  ∀ {tokens a rest}, p.Gives tokens a rest → ∃ ts, tokens = ts ++ rest ∧ Derives nearest (g a) ts

theorem Gives.of_derived {nearest : Bool} {p : Parser α} {g : α → Phrase} {f : α → Parser β} {b : β}
    (hp : Derived nearest p g) (h : (p >>= f).Gives tokens b rest) :
    ∃ a ts middle, tokens = ts ++ middle ∧ Derives nearest (g a) ts ∧
      (f a).Gives middle b rest := by
  obtain ⟨a, middle, ha, hf⟩ := gives_bind_iff.1 h
  obtain ⟨ts, rfl, hts⟩ := hp ha
  exact ⟨a, ts, middle, rfl, hts, hf⟩

end Parser

/-! ## Expressions -/

namespace Tier

/-- The phrases of a tier. -/
def phrase : Tier → Node → Phrase
  | or => .disjunction
  | and => .conjunction
  | equality => .equality
  | comparison => .comparison
  | term => .term
  | factor => .factor

/-- The phrases between the operators of a tier. -/
def operand : Tier → Node → Phrase
  | or => .conjunction
  | and => .equality
  | equality => .comparison
  | comparison => .term
  | term => .factor
  | factor => .unary

end Tier

namespace Parser

/-- The rules of expressions at one depth. -/
structure ExpressionsDerived (nearest : Bool) (depth : Nat) : Prop where
  expression : Derived nearest (expression depth) .expression
  binary : ∀ t : Tier, Derived nearest (binary depth t) t.phrase
  unary : Derived nearest (unary depth) .unary
  access : Derived nearest (access depth) .access
  arguments : ∀ {tokens ns rest}, (arguments depth).Gives tokens ns rest →
    ∃ ts, tokens = ts ++ rest ∧ Derives nearest (.arguments ns) ts ∧ ns.length ≤ maxArguments
  primary : Derived nearest (primary depth) .primary

end Parser

/-- The node can be assigned to. -/
def Node.IsTarget : Node → Prop
  | .ident _ => True
  | .property _ _ => True
  | _ => False

namespace Derives

variable {nearest : Bool} {n : Node} {ts us : List Token}

/-- A phrase that can be assigned to is made up without operators. -/
theorem access_of_isTarget (h : Derives nearest (.disjunction n) ts) (hn : n.IsTarget) :
    Derives nearest (.access n) ts := by
  cases h with
  | or => exact hn.elim
  | ofConjunction h =>
  cases h with
  | and => exact hn.elim
  | ofEquality h =>
  cases h with
  | equality => exact hn.elim
  | ofComparison h =>
  cases h with
  | comparison => exact hn.elim
  | ofTerm h =>
  cases h with
  | term => exact hn.elim
  | ofFactor h =>
  cases h with
  | factor => exact hn.elim
  | ofUnary h =>
  cases h with
  | negation => exact hn.elim
  | plain h => exact h

/-- An operand stands for the phrase of its tier. -/
theorem ofOperand {t : Tier} (h : Derives nearest (t.operand n) ts) :
    Derives nearest (t.phrase n) ts := by
  cases t with
  | or => exact .ofConjunction h
  | and => exact .ofEquality h
  | equality => exact .ofComparison h
  | comparison => exact .ofTerm h
  | term => exact .ofFactor h
  | factor => exact .ofUnary h

/-- What the parser takes for an operator of a tier is one of the grammar, and makes its tree. -/
theorem operation {t : Tier} {left right : Node} {operator : Token}
    (hleft : Derives nearest (t.phrase left) ts) (hop : operator.kind ∈ t.operators)
    (hright : Derives nearest (t.operand right) us) :
    Derives nearest (t.phrase (t.node left operator right)) (ts ++ operator :: us) := by
  cases t with
  | or => exact .or hleft (List.mem_singleton.1 hop) hright
  | and => exact .and hleft (List.mem_singleton.1 hop) hright
  | equality => exact .equality hleft hop hright
  | comparison => exact .comparison hleft hop hright
  | term => exact .term hleft hop hright
  | factor => exact .factor hleft hop hright

end Derives

theorem Node.forLoop_eq_forTree (initializer condition increment : Option Node) (body : Node) :
    Node.forLoop initializer condition increment body =
      forTree initializer condition increment body := by
  cases initializer <;> cases condition <;> cases increment <;> rfl

namespace Parser

variable {nearest : Bool} {tokens rest : List Token}

section Expressions

variable {depth : Nat} (IH : ExpressionsDerived nearest depth)

include IH

theorem ExpressionsDerived.expressionStep :
    Derived nearest (Parser.expression (depth + 1)) .expression := by
  intro tokens n rest h
  obtain ⟨target, ts, middle, rfl, hts, h₁⟩ := Gives.of_derived (IH.binary .or) h
  rcases h₁.of_accept with ⟨equals, middle₁, hkind, rfl, h₂⟩ | ⟨-, h₂⟩
  · obtain ⟨value, us, middle₂, rfl, hus, h₃⟩ := Gives.of_derived IH.expression h₂
    have hequals : equals.kind = .equal := by simpa using hkind
    unfold assignTo at h₃
    split at h₃
    · obtain ⟨rfl, rfl⟩ := gives_pure_iff.1 h₃
      exact ⟨ts ++ equals :: us, by simp, .assign (hts.access_of_isTarget trivial) hequals hus⟩
    · obtain ⟨rfl, rfl⟩ := gives_pure_iff.1 h₃
      exact ⟨ts ++ equals :: us, by simp, .setProperty (hts.access_of_isTarget trivial) hequals hus⟩
    · obtain ⟨_, _, hcomplain, -⟩ := gives_bind_iff.1 h₃
      exact absurd hcomplain not_gives_complain
  · obtain ⟨rfl, rfl⟩ := gives_pure_iff.1 h₂
    exact ⟨ts, rfl, .loose hts⟩

theorem ExpressionsDerived.operandStep (t : Tier) :
    Derived nearest (match t.tighter? with
      | some tighter => Parser.binary depth tighter
      | none => Parser.unary depth) t.operand := by
  cases t with
  | factor => exact IH.unary
  | _ => exact IH.binary _

theorem ExpressionsDerived.binaryStep (t : Tier) :
    Derived nearest (Parser.binary (depth + 1) t) t.phrase := by
  intro tokens n rest h
  obtain ⟨first, ts, middle, rfl, hts, h₁⟩ := Gives.of_derived (IH.operandStep t) h
  refine h₁.of_acceptLoop (P := fun left tokens' => ∃ us, ts ++ middle = us ++ tokens' ∧
    Derives nearest (t.phrase left) us) ⟨ts, rfl, .ofOperand hts⟩ (fun _ => rfl) ?_
  rintro left operator _ _ _ ⟨us, htokens, hus⟩ hkind h₂
  obtain ⟨right, vs, middle₁, rfl, hvs, h₃⟩ := Gives.of_derived (IH.operandStep t) h₂
  obtain ⟨rfl, rfl⟩ := gives_pure_iff.1 h₃
  exact ⟨_, rfl, us ++ operator :: vs, by simp [htokens], .operation hus hkind hvs⟩

theorem ExpressionsDerived.unaryStep : Derived nearest (Parser.unary (depth + 1)) .unary := by
  intro tokens n rest h
  rcases Gives.of_accept h with ⟨operator, middle, hkind, rfl, h₁⟩ | ⟨-, h₁⟩
  · obtain ⟨right, ts, middle₁, rfl, hts, h₂⟩ := Gives.of_derived IH.unary h₁
    obtain ⟨rfl, rfl⟩ := gives_pure_iff.1 h₂
    exact ⟨operator :: ts, rfl, .negation hkind hts⟩
  · obtain ⟨ts, rfl, hts⟩ := IH.access h₁
    exact ⟨ts, rfl, .plain hts⟩

theorem ExpressionsDerived.accessStep : Derived nearest (Parser.access (depth + 1)) .access := by
  intro tokens n rest h
  obtain ⟨first, ts, middle, rfl, hts, h₁⟩ := Gives.of_derived IH.primary h
  refine h₁.of_acceptLoop (P := fun object tokens' => ∃ us, ts ++ middle = us ++ tokens' ∧
    Derives nearest (.access object) us) ⟨ts, rfl, .single hts⟩ (fun _ => rfl) ?_
  rintro object opening _ _ _ ⟨us, htokens, hus⟩ hkind h₂
  simp only at h₂
  split at h₂
  · rename_i hopening
    obtain ⟨values, middle₁, hvalues, h₃⟩ := gives_bind_iff.1 h₂
    obtain ⟨vs, rfl, hvs, hlength⟩ := IH.arguments hvalues
    obtain ⟨paren, middle₂, hclosing, rfl, h₄⟩ := h₃.of_expect
    obtain ⟨rfl, rfl⟩ := gives_pure_iff.1 h₄
    exact ⟨_, rfl, us ++ opening :: (vs ++ [paren]), by simp [htokens],
      .call hus hopening hvs hlength hclosing⟩
  · rename_i hopening
    obtain ⟨name, middle₁, hname, rfl, h₃⟩ := h₂.of_expect
    obtain ⟨rfl, rfl⟩ := gives_pure_iff.1 h₃
    have hdot : opening.kind = .dot := by simpa [hopening] using hkind
    exact ⟨_, rfl, us ++ [opening, name], by simp [htokens], .property hus hdot hname⟩

theorem ExpressionsDerived.argumentsStep {ns : List Node}
    (h : (Parser.arguments (depth + 1)).Gives tokens ns rest) :
    ∃ ts, tokens = ts ++ rest ∧ Derives nearest (.arguments ns) ts ∧ ns.length ≤ maxArguments := by
  obtain ⟨t, -, h₁⟩ := Gives.of_check h
  split at h₁
  · obtain ⟨rfl, rfl⟩ := gives_pure_iff.1 h₁
    exact ⟨[], rfl, .noArguments, by decide⟩
  obtain ⟨first, ts, middle, rfl, hts, h₂⟩ := Gives.of_derived IH.expression h₁
  obtain ⟨us, htokens, hus, -, hlength⟩ := h₂.of_acceptLoop
    (P := fun values tokens' => ∃ us, ts ++ middle = us ++ tokens' ∧
      Derives nearest (.arguments values) us ∧ values ≠ [] ∧ values.length ≤ maxArguments)
    ⟨ts, rfl, .argument hts, by simp, by simp [maxArguments]⟩ (fun _ => rfl) (by
      rintro values comma _ _ _ ⟨us, htokens, hus, hne, -⟩ hkind h₃
      obtain ⟨hfew, h₄⟩ := Gives.of_unless h₃
      obtain ⟨value, vs, middle₁, rfl, hvs, h₅⟩ := Gives.of_derived IH.expression h₄
      obtain ⟨rfl, rfl⟩ := gives_pure_iff.1 h₅
      refine ⟨_, rfl, us ++ comma :: vs, by simp [htokens],
        .arguments hus hne (by simpa using hkind) hvs, by simp, ?_⟩
      rw [List.length_append, List.length_singleton]
      omega)
  exact ⟨us, htokens, hus, hlength⟩

theorem ExpressionsDerived.primaryStep : Derived nearest (Parser.primary (depth + 1)) .primary := by
  intro tokens n rest h
  rcases Gives.of_accept h with ⟨token, middle, hkind, rfl, h₁⟩ | ⟨-, h₁⟩
  · simp only at h₁
    split at h₁
    case h_1 hword =>
      obtain ⟨rfl, rfl⟩ := gives_pure_iff.1 h₁
      exact ⟨[token], rfl, .no hword⟩
    case h_2 hword =>
      obtain ⟨rfl, rfl⟩ := gives_pure_iff.1 h₁
      exact ⟨[token], rfl, .yes hword⟩
    case h_3 hword =>
      obtain ⟨rfl, rfl⟩ := gives_pure_iff.1 h₁
      exact ⟨[token], rfl, .nil hword⟩
    case h_4 hword =>
      obtain ⟨dot, middle₁, hdot, rfl, h₂⟩ := h₁.of_expect
      obtain ⟨method, middle₂, hmethod, rfl, h₃⟩ := h₂.of_expect
      obtain ⟨rfl, rfl⟩ := gives_pure_iff.1 h₃
      exact ⟨[token, dot, method], rfl, .superMethod hword hdot hmethod⟩
    case h_5 hword =>
      obtain ⟨rfl, rfl⟩ := gives_pure_iff.1 h₁
      exact ⟨[token], rfl, .receiver hword⟩
    case h_6 hword =>
      obtain ⟨rfl, rfl⟩ := gives_pure_iff.1 h₁
      exact ⟨[token], rfl, .ident hword⟩
    case h_7 hword =>
      obtain ⟨inner, ts, middle₁, rfl, hts, h₂⟩ := Gives.of_derived IH.expression h₁
      obtain ⟨closing, middle₂, hclosing, rfl, h₃⟩ := h₂.of_expect
      obtain ⟨rfl, rfl⟩ := gives_pure_iff.1 h₃
      exact ⟨token :: (ts ++ [closing]), by simp, .group hword hts hclosing⟩
    case h_8 =>
      obtain ⟨rfl, rfl⟩ := gives_pure_iff.1 h₁
      exact ⟨[token], rfl, .literal (by simp_all [primaryKinds])⟩
  · exact absurd h₁ not_gives_fail

end Expressions

theorem expressionsDerived (nearest : Bool) : ∀ depth, ExpressionsDerived nearest depth
  | 0 =>
    ⟨fun h => absurd h not_gives_tooDeep, fun _ _ _ _ h => absurd h not_gives_tooDeep,
      fun h => absurd h not_gives_tooDeep, fun h => absurd h not_gives_tooDeep,
      fun h => absurd h not_gives_tooDeep, fun h => absurd h not_gives_tooDeep⟩
  | depth + 1 =>
    have IH := expressionsDerived nearest depth
    ⟨IH.expressionStep, IH.binaryStep, IH.unaryStep, IH.accessStep, IH.argumentsStep,
      IH.primaryStep⟩

/-! ## Parts of statements -/

section Parts

variable {depth : Nat}

theorem expression_derived (nearest : Bool) : Derived nearest (expression depth) .expression :=
  (expressionsDerived nearest depth).expression

theorem expressionUnless_derived (nearest : Bool) (kind : TokenKind) :
    Derived nearest (expressionUnless kind depth) .optional := by
  intro tokens n rest h
  obtain ⟨t, -, h₁⟩ := Gives.of_check h
  split at h₁
  · obtain ⟨rfl, rfl⟩ := gives_pure_iff.1 h₁
    exact ⟨[], rfl, .absent⟩
  · obtain ⟨value, ts, middle, rfl, hts, h₂⟩ := Gives.of_derived (expression_derived nearest) h₁
    obtain ⟨rfl, rfl⟩ := gives_pure_iff.1 h₂
    exact ⟨ts, rfl, .present hts⟩

theorem varDeclaration_derived (nearest : Bool) :
    Derived nearest (varDeclaration depth) .binding := by
  intro tokens n rest h
  obtain ⟨name, middle, hname, rfl, h₁⟩ := Gives.of_expect h
  rcases h₁.of_accept with ⟨equals, middle₁, hkind, rfl, h₂⟩ | ⟨-, h₂⟩
  · obtain ⟨found, middle₂, hfound, h₃⟩ := gives_bind_iff.1 h₂
    obtain ⟨value, hvalue, rfl⟩ := gives_map_iff.1 hfound
    obtain ⟨ts, rfl, hts⟩ := expression_derived nearest hvalue
    obtain ⟨semicolon, middle₃, hend, rfl, h₄⟩ := h₃.of_expect
    obtain ⟨rfl, rfl⟩ := gives_pure_iff.1 h₄
    exact ⟨name :: equals :: (ts ++ [semicolon]), by simp,
      .initialized hname (by simpa using hkind) hts hend⟩
  · obtain ⟨_, middle₂, hnone, h₃⟩ := gives_bind_iff.1 h₂
    obtain ⟨rfl, rfl⟩ := gives_pure_iff.1 hnone
    obtain ⟨semicolon, middle₃, hend, rfl, h₄⟩ := h₃.of_expect
    obtain ⟨rfl, rfl⟩ := gives_pure_iff.1 h₄
    exact ⟨[name, semicolon], rfl, .binding hname hend⟩

theorem expressionStatement_derived (nearest : Bool) {n : Node}
    (h : (expressionStatement depth).Gives tokens n rest) :
    ∃ value semicolon ts, n = .expression value ∧ tokens = ts ++ semicolon :: rest ∧
      Derives nearest (.expression value) ts ∧ semicolon.kind = .semicolon := by
  obtain ⟨value, ts, middle, rfl, hts, h₁⟩ := Gives.of_derived (expression_derived nearest) h
  obtain ⟨semicolon, middle₁, hend, rfl, h₂⟩ := h₁.of_expect
  obtain ⟨rfl, rfl⟩ := gives_pure_iff.1 h₂
  exact ⟨value, semicolon, ts, rfl, rfl, hts, hend⟩

theorem forInitializer_derived (nearest : Bool) :
    Derived nearest (forInitializer depth) .initializer := by
  intro tokens n rest h
  rcases Gives.of_accept h with ⟨token, middle, hkind, rfl, h₁⟩ | ⟨-, h₁⟩
  · simp only at h₁
    split at h₁
    · rename_i hsemicolon
      obtain ⟨rfl, rfl⟩ := gives_pure_iff.1 h₁
      exact ⟨[token], rfl, .noInitializer hsemicolon⟩
    · rename_i hsemicolon
      obtain ⟨value, hvalue, rfl⟩ := gives_map_iff.1 h₁
      obtain ⟨ts, rfl, hts⟩ := varDeclaration_derived nearest hvalue
      exact ⟨token :: ts, rfl, .varInitializer (by simpa [hsemicolon] using hkind) hts⟩
  · obtain ⟨value, hvalue, rfl⟩ := gives_map_iff.1 h₁
    obtain ⟨value, semicolon, ts, rfl, rfl, hts, hend⟩ := expressionStatement_derived nearest hvalue
    exact ⟨ts ++ [semicolon], by simp, .expressionInitializer hts hend⟩

theorem parameters_derived (nearest : Bool) {names : List Token}
    (h : parameters.Gives tokens names rest) :
    ∃ ts, tokens = ts ++ rest ∧ Derives nearest (.parameters names) ts ∧
      names.length ≤ maxArguments := by
  obtain ⟨t, -, h₁⟩ := Gives.of_check h
  split at h₁
  · obtain ⟨rfl, rfl⟩ := gives_pure_iff.1 h₁
    exact ⟨[], rfl, .noParameters, by decide⟩
  obtain ⟨first, middle, hfirst, rfl, h₂⟩ := Gives.of_expect h₁
  obtain ⟨us, htokens, hus, -, hlength⟩ := h₂.of_acceptLoop
    (P := fun names tokens' => ∃ us, first :: middle = us ++ tokens' ∧
      Derives nearest (.parameters names) us ∧ names ≠ [] ∧ names.length ≤ maxArguments)
    ⟨[first], rfl, .parameter hfirst, by simp, by simp [maxArguments]⟩ (fun _ => rfl) (by
      rintro names comma _ _ _ ⟨us, htokens, hus, hne, -⟩ hkind h₃
      obtain ⟨hfew, h₄⟩ := Gives.of_unless h₃
      obtain ⟨name, middle₁, hname, rfl, h₅⟩ := Gives.of_expect h₄
      obtain ⟨rfl, rfl⟩ := gives_pure_iff.1 h₅
      refine ⟨_, rfl, us ++ [comma, name], by simp [htokens],
        .parameters hus hne (by simpa using hkind) hname, by simp, ?_⟩
      rw [List.length_append, List.length_singleton]
      omega)
  exact ⟨us, htokens, hus, hlength⟩

theorem superclass_derived (nearest : Bool) : Derived nearest superclass .superclass := by
  intro tokens parent rest h
  rcases Gives.of_accept h with ⟨less, middle, hkind, rfl, h₁⟩ | ⟨-, h₁⟩
  · obtain ⟨name, middle₁, hname, rfl, h₂⟩ := h₁.of_expect
    obtain ⟨rfl, rfl⟩ := gives_pure_iff.1 h₂
    exact ⟨[less, name], rfl, .superclass (by simpa using hkind) hname⟩
  · obtain ⟨rfl, rfl⟩ := gives_pure_iff.1 h₁
    exact ⟨[], rfl, .noSuperclass⟩

end Parts

/-! ## Statements -/

/-- The next token is no `else`. -/
def NoElse (rest : List Token) : Prop := ∀ t, rest.head? = some t → t.kind ≠ .elseWord

/-- The statements that the parser gives after a token of the kind. -/
def StatementDerived (nearest : Bool) (kind : TokenKind) (p : Parser Node) : Prop :=
  ∀ {tokens n rest keyword}, Ended tokens → p.Gives tokens n rest → keyword.kind = kind →
    ∃ dangling ts, tokens = ts ++ rest ∧ Derives nearest (.statement n dangling) (keyword :: ts) ∧
      (dangling = true → NoElse rest)

/-- The rules of statements at one depth. -/
structure StatementsDerived (nearest : Bool) (depth : Nat) : Prop where
  declaration : ∀ {tokens found rest}, Ended tokens → (declaration depth).Gives tokens found rest →
    ∃ n ts, found = some n ∧ tokens = ts ++ rest ∧ Derives nearest (.declaration n) ts
  classDeclaration : ∀ {tokens n rest keyword}, Ended tokens →
    (classDeclaration depth).Gives tokens n rest → keyword.kind = .classWord →
    ∃ ts, tokens = ts ++ rest ∧ Derives nearest (.declaration n) (keyword :: ts)
  function : ∀ {kind tokens n rest}, Ended tokens → (function kind depth).Gives tokens n rest →
    ∃ ts, tokens = ts ++ rest ∧ Derives nearest (.function n) ts
  block : ∀ {tokens ns rest}, Ended tokens → (block depth).Gives tokens ns rest →
    ∃ ts closing, tokens = ts ++ closing :: rest ∧ Derives nearest (.declarations ns) ts ∧
      closing.kind = .rightBrace
  statement : ∀ {tokens n rest}, Ended tokens → (statement depth).Gives tokens n rest →
    ∃ dangling ts, tokens = ts ++ rest ∧ Derives nearest (.statement n dangling) ts ∧
      (dangling = true → NoElse rest)
  forStatement : StatementDerived nearest .forWord (forStatement depth)
  ifStatement : StatementDerived nearest .ifWord (ifStatement depth)
  whileStatement : StatementDerived nearest .whileWord (whileStatement depth)

/-- What is left after a phrase has the end of source still. -/
theorem Ended.drop {g : Phrase} {ts : List Token} (h : Ended (ts ++ rest))
    (hts : Derives nearest g ts) : Ended rest := by
  obtain ⟨t, ht, heof⟩ := h
  rcases List.mem_append.1 ht with ht | ht
  · exact absurd heof (hts.not_eof t ht)
  · exact ⟨t, ht, heof⟩

theorem Ended.tail {t : Token} (h : Ended (t :: rest)) {kind : TokenKind} (ht : t.kind = kind)
    (hkind : kind ≠ .eof) : Ended rest := (Leaves.tail h (ht ▸ hkind)).2

section Statements

variable {depth : Nat} (IH : StatementsDerived nearest depth)

include IH

theorem StatementsDerived.whileStep :
    StatementDerived nearest .whileWord (Parser.whileStatement (depth + 1)) := by
  intro tokens n rest keyword hended h hkeyword
  obtain ⟨opening, middle, hopening, rfl, h₁⟩ := Gives.of_expect h
  obtain ⟨condition, ts, middle₁, rfl, hts, h₂⟩ := Gives.of_derived (expression_derived nearest) h₁
  obtain ⟨closing, middle₂, hclosing, rfl, h₃⟩ := h₂.of_expect
  obtain ⟨body, middle₃, hbody, h₄⟩ := gives_bind_iff.1 h₃
  obtain ⟨rfl, rfl⟩ := gives_pure_iff.1 h₄
  have hended' := ((hended.tail hopening (by decide)).drop hts).tail hclosing (by decide)
  obtain ⟨dangling, us, rfl, hus, helse⟩ := IH.statement hended' hbody
  exact ⟨dangling, opening :: (ts ++ closing :: us), by simp,
    .whileLoop hkeyword hopening hts hclosing hus, helse⟩

theorem StatementsDerived.ifStep :
    StatementDerived nearest .ifWord (Parser.ifStatement (depth + 1)) := by
  intro tokens n rest keyword hended h hkeyword
  obtain ⟨opening, middle, hopening, rfl, h₁⟩ := Gives.of_expect h
  obtain ⟨condition, ts, middle₁, rfl, hts, h₂⟩ := Gives.of_derived (expression_derived nearest) h₁
  obtain ⟨closing, middle₂, hclosing, rfl, h₃⟩ := h₂.of_expect
  obtain ⟨thenBranch, middle₃, hthen, h₄⟩ := gives_bind_iff.1 h₃
  have hended' := ((hended.tail hopening (by decide)).drop hts).tail hclosing (by decide)
  obtain ⟨dangling, us, rfl, hus, hfree⟩ := IH.statement hended' hthen
  rcases h₄.of_accept with ⟨otherwise, middle₄, hword, rfl, h₅⟩ | ⟨⟨t, vs, rfl, ht⟩, h₅⟩
  · obtain ⟨elseBranch, middle₅, helse, h₆⟩ := gives_bind_iff.1 h₅
    obtain ⟨rfl, rfl⟩ := gives_pure_iff.1 h₆
    have hword' : otherwise.kind = .elseWord := by simpa using hword
    obtain ⟨dangling', vs, rfl, hvs, hfree'⟩ :=
      IH.statement ((hended'.drop hus).tail hword' (by decide)) helse
    -- The `if`s in the first branch would have taken the `else`.
    have hnot : dangling = false := by
      by_contra hdangling
      exact hfree (by simpa using hdangling) otherwise rfl hword'
    exact ⟨dangling', opening :: (ts ++ closing :: (us ++ otherwise :: vs)), by simp,
      .ifElse hkeyword hopening hts hclosing hus (fun _ => hnot) hword' hvs, hfree'⟩
  · obtain ⟨rfl, rfl⟩ := gives_pure_iff.1 h₅
    refine ⟨true, opening :: (ts ++ closing :: us), by simp,
      .ifThen hkeyword hopening hts hclosing hus, fun _ t' ht' => ?_⟩
    cases ht'
    simpa using ht

theorem StatementsDerived.forStep :
    StatementDerived nearest .forWord (Parser.forStatement (depth + 1)) := by
  intro tokens n rest keyword hended h hkeyword
  obtain ⟨opening, middle, hopening, rfl, h₁⟩ := Gives.of_expect h
  obtain ⟨initializer, ts, middle₁, rfl, hts, h₂⟩ :=
    Gives.of_derived (forInitializer_derived nearest) h₁
  obtain ⟨condition, us, middle₂, rfl, hus, h₃⟩ :=
    Gives.of_derived (expressionUnless_derived nearest _) h₂
  obtain ⟨semicolon, middle₃, hsemicolon, rfl, h₄⟩ := h₃.of_expect
  obtain ⟨increment, vs, middle₄, rfl, hvs, h₅⟩ :=
    Gives.of_derived (expressionUnless_derived nearest _) h₄
  obtain ⟨closing, middle₅, hclosing, rfl, h₆⟩ := h₅.of_expect
  obtain ⟨body, middle₆, hbody, h₇⟩ := gives_bind_iff.1 h₆
  obtain ⟨rfl, rfl⟩ := gives_pure_iff.1 h₇
  have hended' := (((((hended.tail hopening (by decide)).drop hts).drop hus).tail hsemicolon
    (by decide)).drop hvs).tail hclosing (by decide)
  obtain ⟨dangling, ws, rfl, hws, helse⟩ := IH.statement hended' hbody
  refine ⟨dangling, opening :: (ts ++ (us ++ semicolon :: (vs ++ closing :: ws))), by simp, ?_,
    helse⟩
  rw [Node.forLoop_eq_forTree]
  exact .forLoop hkeyword hopening hts hus hsemicolon hvs hclosing hws

theorem StatementsDerived.statementStep {n : Node} (hended : Ended tokens)
    (h : (Parser.statement (depth + 1)).Gives tokens n rest) :
    ∃ dangling ts, tokens = ts ++ rest ∧ Derives nearest (.statement n dangling) ts ∧
      (dangling = true → NoElse rest) := by
  rcases Gives.of_accept h with ⟨token, middle, hkind, rfl, h₁⟩ | ⟨-, h₁⟩
  · have hmiddle : Ended middle := hended.tail rfl fun heof => by simp [heof] at hkind
    simp only at h₁
    split at h₁
    case h_1 hword =>
      obtain ⟨dangling, ts, rfl, hts, helse⟩ := IH.forStatement hmiddle h₁ hword
      exact ⟨dangling, token :: ts, rfl, hts, helse⟩
    case h_2 hword =>
      obtain ⟨dangling, ts, rfl, hts, helse⟩ := IH.ifStatement hmiddle h₁ hword
      exact ⟨dangling, token :: ts, rfl, hts, helse⟩
    case h_3 hword =>
      obtain ⟨value, ts, middle₁, rfl, hts, h₂⟩ := Gives.of_derived (expression_derived nearest) h₁
      obtain ⟨semicolon, middle₂, hend, rfl, h₃⟩ := h₂.of_expect
      obtain ⟨rfl, rfl⟩ := gives_pure_iff.1 h₃
      exact ⟨false, token :: (ts ++ [semicolon]), by simp, .print hword hts hend, nofun⟩
    case h_4 hword =>
      obtain ⟨value, ts, middle₁, rfl, hts, h₂⟩ :=
        Gives.of_derived (expressionUnless_derived nearest _) h₁
      obtain ⟨semicolon, middle₂, hend, rfl, h₃⟩ := h₂.of_expect
      obtain ⟨rfl, rfl⟩ := gives_pure_iff.1 h₃
      exact ⟨false, token :: (ts ++ [semicolon]), by simp, .returning hword hts hend, nofun⟩
    case h_5 hword =>
      obtain ⟨dangling, ts, rfl, hts, helse⟩ := IH.whileStatement hmiddle h₁ hword
      exact ⟨dangling, token :: ts, rfl, hts, helse⟩
    case h_6 =>
      obtain ⟨ns, hns, rfl⟩ := gives_map_iff.1 h₁
      obtain ⟨ts, closing, rfl, hts, hclosing⟩ := IH.block hmiddle hns
      exact ⟨false, token :: (ts ++ [closing]), by simp,
        .block (by simp_all) hts hclosing, nofun⟩
  · obtain ⟨value, semicolon, ts, rfl, rfl, hts, hend⟩ := expressionStatement_derived nearest h₁
    exact ⟨false, ts ++ [semicolon], by simp, .expressionStatement hts hend, nofun⟩

theorem StatementsDerived.blockStep {ns : List Node} (hended : Ended tokens)
    (h : (Parser.block (depth + 1)).Gives tokens ns rest) :
    ∃ ts closing, tokens = ts ++ closing :: rest ∧ Derives nearest (.declarations ns) ts ∧
      closing.kind = .rightBrace := by
  obtain ⟨statements, middle, hloop, h₁⟩ := gives_bind_iff.1 h
  obtain ⟨closing, middle₁, hclosing, rfl, h₂⟩ := h₁.of_expect
  obtain ⟨rfl, rfl⟩ := gives_pure_iff.1 h₂
  obtain ⟨statements', tokens', ⟨us, htokens, hus⟩, h₃⟩ := hloop.of_loop
    (P := fun statements tokens' => ∃ us, tokens = us ++ tokens' ∧
      Derives nearest (.declarations statements) us) ⟨[], rfl, .noDeclarations⟩
    fun {statements tokens' _ rest'} => by
    rintro ⟨us, rfl, hus⟩ h
    obtain ⟨t, -, h₃⟩ := h.of_peek
    split at h₃
    · cases (gives_pure_iff.1 h₃).1
    · obtain ⟨found, middle₂, hfound, h₄⟩ := gives_bind_iff.1 h₃
      obtain ⟨n, vs, rfl, rfl, hvs⟩ := IH.declaration (hended.drop hus) hfound
      obtain ⟨heq, rfl⟩ := gives_pure_iff.1 h₄
      cases heq
      exact ⟨us ++ vs, by simp, .declarations hus hvs⟩
  obtain ⟨t, -, h₄⟩ := h₃.of_peek
  split at h₄
  · obtain ⟨heq, rfl⟩ := gives_pure_iff.1 h₄
    cases heq
    exact ⟨us, closing, htokens, hus, hclosing⟩
  · obtain ⟨_, _, -, h₅⟩ := gives_bind_iff.1 h₄
    cases (gives_pure_iff.1 h₅).1

theorem StatementsDerived.functionStep {kind : FunctionKind} {n : Node} (hended : Ended tokens)
    (h : (Parser.function kind (depth + 1)).Gives tokens n rest) :
    ∃ ts, tokens = ts ++ rest ∧ Derives nearest (.function n) ts := by
  obtain ⟨name, middle, hname, rfl, h₁⟩ := Gives.of_expect h
  obtain ⟨opening, middle₁, hopening, rfl, h₂⟩ := h₁.of_expect
  obtain ⟨params, middle₂, hparams, h₃⟩ := gives_bind_iff.1 h₂
  obtain ⟨ts, rfl, hts, hlength⟩ := parameters_derived nearest hparams
  obtain ⟨closing, middle₃, hclosing, rfl, h₄⟩ := h₃.of_expect
  obtain ⟨brace, middle₄, hbrace, rfl, h₅⟩ := h₄.of_expect
  obtain ⟨body, middle₅, hbody, h₆⟩ := gives_bind_iff.1 h₅
  obtain ⟨rfl, rfl⟩ := gives_pure_iff.1 h₆
  have hended' := ((((hended.tail hname (by decide)).tail hopening (by decide)).drop hts).tail
    hclosing (by decide)).tail hbrace (by decide)
  obtain ⟨us, ending, rfl, hus, hending⟩ := IH.block hended' hbody
  exact ⟨name :: opening :: (ts ++ closing :: brace :: (us ++ [ending])), by simp,
    .function hname hopening hts hlength hclosing hbrace hus hending⟩

theorem StatementsDerived.classStep {n : Node} {keyword : Token} (hended : Ended tokens)
    (h : (Parser.classDeclaration (depth + 1)).Gives tokens n rest)
    (hkeyword : keyword.kind = .classWord) :
    ∃ ts, tokens = ts ++ rest ∧ Derives nearest (.declaration n) (keyword :: ts) := by
  obtain ⟨name, middle, hname, rfl, h₁⟩ := Gives.of_expect h
  obtain ⟨parent, ts, middle₁, rfl, hts, h₂⟩ := Gives.of_derived (superclass_derived nearest) h₁
  obtain ⟨opening, middle₂, hopening, rfl, h₃⟩ := h₂.of_expect
  obtain ⟨methods, middle₃, hloop, h₄⟩ := gives_bind_iff.1 h₃
  obtain ⟨closing, middle₄, hclosing, rfl, h₅⟩ := h₄.of_expect
  obtain ⟨rfl, rfl⟩ := gives_pure_iff.1 h₅
  have hended' := ((hended.tail hname (by decide)).drop hts).tail hopening (by decide)
  obtain ⟨methods', tokens', ⟨us, htokens, hus⟩, h₆⟩ := hloop.of_loop
    (P := fun methods tokens' => ∃ us, middle₂ = us ++ tokens' ∧
      Derives nearest (.methods methods) us) ⟨[], rfl, .noMethods⟩
    fun {methods tokens' _ rest'} => by
    rintro ⟨us, rfl, hus⟩ h
    obtain ⟨t, -, h₆⟩ := h.of_peek
    split at h₆
    · cases (gives_pure_iff.1 h₆).1
    · obtain ⟨method, middle₅, hmethod, h₇⟩ := gives_bind_iff.1 h₆
      obtain ⟨vs, rfl, hvs⟩ := IH.function (hended'.drop hus) hmethod
      obtain ⟨heq, rfl⟩ := gives_pure_iff.1 h₇
      cases heq
      exact ⟨us ++ vs, by simp, .methods hus hvs⟩
  obtain ⟨t, -, h₇⟩ := h₆.of_peek
  split at h₇
  · obtain ⟨heq, rfl⟩ := gives_pure_iff.1 h₇
    cases heq
    exact ⟨name :: (ts ++ opening :: (us ++ [closing])), by simp [htokens],
      .classDeclaration hkeyword hname hts hopening hus hclosing⟩
  · obtain ⟨_, _, -, h₈⟩ := gives_bind_iff.1 h₇
    cases (gives_pure_iff.1 h₈).1

theorem StatementsDerived.declarationBodyStep {n : Node} (hended : Ended tokens)
    (h : (declarationBody depth).Gives tokens n rest) :
    ∃ ts, tokens = ts ++ rest ∧ Derives nearest (.declaration n) ts := by
  rcases Gives.of_accept h with ⟨token, middle, hkind, rfl, h₁⟩ | ⟨-, h₁⟩
  · have hmiddle : Ended middle := hended.tail rfl fun heof => by simp [heof] at hkind
    simp only at h₁
    split at h₁
    case h_1 hword =>
      obtain ⟨ts, rfl, hts⟩ := IH.classDeclaration hmiddle h₁ hword
      exact ⟨token :: ts, rfl, hts⟩
    case h_2 hword =>
      obtain ⟨ts, rfl, hts⟩ := IH.function hmiddle h₁
      exact ⟨token :: ts, rfl, .functionDeclaration hword hts⟩
    case h_3 =>
      obtain ⟨ts, rfl, hts⟩ := varDeclaration_derived nearest h₁
      exact ⟨token :: ts, rfl, .varDeclaration (by simp_all) hts⟩
  · obtain ⟨dangling, ts, rfl, hts, -⟩ := IH.statement hended h₁
    exact ⟨ts, rfl, .statement hts⟩

/-- A declaration that is given up has complained. -/
theorem StatementsDerived.declarationStep {found : Option Node} (hended : Ended tokens)
    (h : (Parser.declaration (depth + 1)).Gives tokens found rest) :
    ∃ n ts, found = some n ∧ tokens = ts ++ rest ∧ Derives nearest (.declaration n) ts := by
  have hgoes := (statementsGo depth).declarationBodyStep hended
  rw [Gives, declaration_eq, recover] at h
  unfold Takes Goes at hgoes
  rcases hreply : declarationBody depth tokens with ⟨complaints, ⟨n, middle⟩ | middle | _ | _⟩ <;>
    rw [hreply] at h hgoes
  · cases h
    obtain ⟨ts, htokens, hts⟩ := IH.declarationBodyStep hended hreply
    exact ⟨n, ts, rfl, htokens, hts⟩
  · simp only at h
    split at h
    · exact absurd (Reply.mk.inj h).1 hgoes.2
    · cases (Reply.mk.inj h).2
  · exact hgoes.elim
  · cases (Reply.mk.inj h).2

end Statements

theorem statementsDerived (nearest : Bool) : ∀ depth, StatementsDerived nearest depth
  | 0 =>
    ⟨fun _ h => absurd h not_gives_tooDeep, fun _ h => absurd h not_gives_tooDeep,
      fun _ h => absurd h not_gives_tooDeep, fun _ h => absurd h not_gives_tooDeep,
      fun _ h => absurd h not_gives_tooDeep, fun _ h => absurd h not_gives_tooDeep,
      fun _ h => absurd h not_gives_tooDeep, fun _ h => absurd h not_gives_tooDeep⟩
  | depth + 1 =>
    have IH := statementsDerived nearest depth
    ⟨IH.declarationStep, IH.classStep, IH.functionStep, IH.blockStep, IH.statementStep, IH.forStep,
      IH.ifStep, IH.whileStep⟩

/-- A program read without complaint is derived, up to the end of the source. -/
theorem program_derived (nearest : Bool) {depth : Nat} {ns : List Node} (hended : Ended tokens)
    (h : (program depth).Gives tokens ns rest) :
    ∃ ts last us, tokens = ts ++ last :: us ∧ rest = last :: us ∧
      Derives nearest (.declarations ns) ts ∧ last.kind = .eof := by
  obtain ⟨statements, tokens', ⟨ts, htokens, hts⟩, h₁⟩ := Gives.of_loop
    (P := fun statements tokens' => ∃ ts, tokens = ts ++ tokens' ∧
      Derives nearest (.declarations statements) ts) h ⟨[], rfl, .noDeclarations⟩
    fun {statements tokens' _ rest'} => by
    rintro ⟨ts, rfl, hts⟩ h
    obtain ⟨t, -, h₁⟩ := h.of_check
    split at h₁
    · cases (gives_pure_iff.1 h₁).1
    · obtain ⟨found, middle, hfound, h₂⟩ := gives_bind_iff.1 h₁
      obtain ⟨n, us, rfl, rfl, hus⟩ :=
        (statementsDerived nearest depth).declaration (hended.drop hts) hfound
      obtain ⟨heq, rfl⟩ := gives_pure_iff.1 h₂
      cases heq
      exact ⟨ts ++ us, by simp, .declarations hts hus⟩
  obtain ⟨t, hhead, h₂⟩ := h₁.of_check
  split at h₂
  · rename_i hkind
    obtain ⟨heq, rfl⟩ := gives_pure_iff.1 h₂
    cases heq
    obtain ⟨us, rfl⟩ := List.head?_eq_some_iff.1 hhead
    exact ⟨ts, t, us, htokens, rfl, hts, by simpa using hkind⟩
  · obtain ⟨_, _, -, h₃⟩ := gives_bind_iff.1 h₂
    cases (gives_pure_iff.1 h₃).1

end Parser

end Lox
