import Mathlib.Tactic
import Lox.Parser.Statement

/-!
# Parsers advance to the end of the source

From tokens with an end of source among them, every rule of the grammar leaves a suffix that still
has it, so that the tokens never run out. A rule that fails has complained. A rule takes a token
whenever a loop goes on with it, and loses one level of depth for each rule it enters, of which
there are at most ten from one token to the next. Hence a depth of ten times the number of tokens
is enough (`program_goes`).
-/

namespace Lox

/-- How much depth the operands of a tier need beside ten levels for each token. -/
def Tier.room : Tier → Nat
  | .or => 9
  | .and => 8
  | .equality => 7
  | .comparison => 6
  | .term => 5
  | .factor => 4

namespace Parser

variable {α β σ : Type}

/-- There is an end of source among the tokens. -/
def Ended (tokens : List Token) : Prop := ∃ t ∈ tokens, t.kind = .eof

/-- What is left of the tokens is a suffix with the end of source. -/
def Leaves (tokens rest : List Token) : Prop := rest <:+ tokens ∧ Ended rest

theorem Leaves.refl {tokens : List Token} (h : Ended tokens) : Leaves tokens tokens :=
  ⟨List.suffix_rfl, h⟩

theorem Leaves.trans {first second third : List Token} (h : Leaves first second)
    (h' : Leaves second third) : Leaves first third := ⟨h'.1.trans h.1, h'.2⟩

theorem Leaves.length_le {tokens rest : List Token} (h : Leaves tokens rest) :
    rest.length ≤ tokens.length := h.1.length_le

/-- A token that is not the end of source can be taken. -/
theorem Leaves.tail {token : Token} {tokens : List Token} (h : Ended (token :: tokens))
    (hkind : token.kind ≠ .eof) : Leaves (token :: tokens) tokens := by
  refine ⟨List.suffix_cons token tokens, ?_⟩
  obtain ⟨t, ht, heof⟩ := h
  rcases List.mem_cons.1 ht with rfl | ht
  · exact absurd heof hkind
  · exact ⟨t, ht, heof⟩

theorem Ended.ne_nil {tokens : List Token} (h : Ended tokens) :
    ∃ token rest, tokens = token :: rest := by
  obtain ⟨t, ht, -⟩ := h
  exact List.exists_cons_of_ne_nil (List.ne_nil_of_mem ht)

/-- The parser goes on from the tokens, or fails with a complaint; if `deep`, its depth may not be
enough. -/
def Goes (p : Parser α) (tokens : List Token) (deep : Prop) (Q : α → List Token → Prop) : Prop :=
  match p tokens with
  | ⟨_, .ok a rest⟩ => Leaves tokens rest ∧ Q a rest
  | ⟨complaints, .failed rest⟩ => Leaves tokens rest ∧ complaints ≠ []
  | ⟨_, .noToken⟩ => False
  | ⟨_, .tooDeep⟩ => deep

variable {tokens : List Token} {deep : Prop}

theorem goes_pure {a : α} {Q : α → List Token → Prop} (h : Ended tokens) (hQ : Q a tokens) :
    Goes (Pure.pure a : Parser α) tokens deep Q := ⟨.refl h, hQ⟩

theorem Goes.bind {p : Parser α} {f : α → Parser β} {P : α → List Token → Prop}
    {Q : β → List Token → Prop} (hp : Goes p tokens deep P)
    (hf : ∀ a rest, Leaves tokens rest → P a rest → Goes (f a) rest deep Q) :
    Goes (p >>= f) tokens deep Q := by
  unfold Goes at hp ⊢
  change match Parser.bind p f tokens with
    | ⟨_, .ok a rest⟩ => Leaves tokens rest ∧ Q a rest
    | ⟨complaints, .failed rest⟩ => Leaves tokens rest ∧ complaints ≠ []
    | ⟨_, .noToken⟩ => False
    | ⟨_, .tooDeep⟩ => deep
  unfold Parser.bind
  generalize p tokens = reply at hp ⊢
  rcases reply with ⟨first, ⟨a, middle⟩ | ⟨middle⟩ | _ | _⟩ <;> simp only at hp ⊢
  · have hnext := hf a middle hp.1 hp.2
    unfold Goes at hnext
    generalize f a middle = reply at hnext ⊢
    rcases reply with ⟨second, ⟨b, rest⟩ | ⟨rest⟩ | _ | _⟩ <;> simp only [Reply.after] at hnext ⊢
    · exact ⟨hp.1.trans hnext.1, hnext.2⟩
    · exact ⟨hp.1.trans hnext.1, by simp [hnext.2]⟩
    · exact hnext
  · exact hp
  · exact hp

theorem Goes.mono {p : Parser α} {deep' : Prop} {P Q : α → List Token → Prop}
    (hp : Goes p tokens deep P) (hdeep : deep → deep')
    (h : ∀ a rest, Leaves tokens rest → P a rest → Q a rest) : Goes p tokens deep' Q := by
  unfold Goes at hp ⊢
  generalize p tokens = reply at hp ⊢
  rcases reply with ⟨complaints, ⟨a, rest⟩ | ⟨rest⟩ | _ | _⟩ <;> simp only at hp ⊢
  · exact ⟨hp.1, h a rest hp.1 hp.2⟩
  · exact hp
  · exact hdeep hp

theorem Goes.map {p : Parser α} {f : α → β} {P : α → List Token → Prop}
    {Q : β → List Token → Prop} (h : Goes p tokens deep P)
    (hQ : ∀ a rest, Leaves tokens rest → P a rest → Q (f a) rest) :
    Goes (f <$> p) tokens deep Q :=
  h.bind fun a rest hrest ha => goes_pure hrest.2 (hQ a rest hrest ha)

theorem goes_tooDeep {Q : α → List Token → Prop} (h : deep) :
    Goes (tooDeep : Parser α) tokens deep Q := h

theorem goes_fail {problem : Problem} {Q : α → List Token → Prop} (h : Ended tokens) :
    Goes (fail problem : Parser α) tokens deep Q := by
  obtain ⟨token, rest, rfl⟩ := h.ne_nil
  exact ⟨.refl h, by simp⟩

theorem goes_complain {token : Token} {problem : Problem} (h : Ended tokens) :
    Goes (complain token problem) tokens deep fun _ rest => rest = tokens :=
  ⟨.refl h, rfl⟩

theorem goes_peek (h : Ended tokens) :
    Goes peek tokens deep fun token rest => rest = tokens ∧ tokens.head? = some token := by
  obtain ⟨token, rest, rfl⟩ := h.ne_nil
  exact ⟨.refl h, rfl, rfl⟩

/-- A complaint about the next token takes none. -/
theorem Goes.after_complaint {problem : Problem} {p : Parser α} {Q : α → List Token → Prop}
    (hp : Goes p tokens deep Q) (h : Ended tokens) :
    Goes (do let token ← peek; complain token problem; p) tokens deep Q := by
  refine (goes_peek h).bind fun token rest _ hpeek => ?_
  obtain ⟨rfl, -⟩ := hpeek
  refine (goes_complain h).bind fun _ rest' _ hsame => ?_
  subst hsame
  exact hp

theorem goes_check {kind : TokenKind} (h : Ended tokens) :
    Goes (check kind) tokens deep fun found rest => rest = tokens ∧
      (found = false → ∀ t, tokens.head? = some t → t.kind ≠ kind) := by
  refine (goes_peek h).bind fun token rest hrest hpeek => ?_
  obtain ⟨rfl, hhead⟩ := hpeek
  refine goes_pure h ⟨rfl, fun hfound t ht => ?_⟩
  rw [hhead] at ht
  cases ht
  simpa using hfound

/-- What is taken is not the end of source. -/
theorem goes_accept {kinds : List TokenKind} (hkinds : TokenKind.eof ∉ kinds) (h : Ended tokens) :
    Goes (accept? kinds) tokens deep fun found rest =>
      (found = none ∧ rest = tokens) ∨ found.isSome ∧ rest.length < tokens.length := by
  obtain ⟨token, rest, rfl⟩ := h.ne_nil
  by_cases hkind : token.kind ∈ kinds
  · simp only [Goes, accept?, if_pos hkind]
    exact ⟨.tail h fun heof => hkinds (heof ▸ hkind), by simp⟩
  · simp only [Goes, accept?, if_neg hkind]
    exact ⟨.refl h, by simp⟩

theorem goes_expect {kind : TokenKind} {problem : Problem} (hkind : kind ≠ .eof)
    (h : Ended tokens) :
    Goes (expect kind problem) tokens deep fun _ rest => rest.length < tokens.length := by
  refine (goes_accept (by simpa using hkind.symm) h).bind fun found rest hrest hfound => ?_
  rcases hfound with ⟨rfl, rfl⟩ | ⟨hsome, hlength⟩
  · exact goes_fail h
  · obtain ⟨token, rfl⟩ := Option.isSome_iff_exists.1 hsome
    exact goes_pure hrest.2 hlength

/-- A loop whose every turn takes a token comes to its end. -/
theorem goes_loop {step : σ → Parser (σ ⊕ β)} (h : Ended tokens)
    (hstep : ∀ s rest, Leaves tokens rest → Goes (step s) rest deep fun r rest' =>
      r.isLeft → rest'.length < rest.length) (s : σ) :
    Goes (loop step s) tokens deep fun _ _ => True := by
  have within : ∀ turns s rest, Leaves tokens rest → rest.length < turns →
      Goes (loopWithin step turns s) rest deep fun _ _ => True := by
    intro turns
    induction turns with
    | zero => exact fun _ _ _ hlength => absurd hlength (Nat.not_lt_zero _)
    | succ turns ih =>
      intro s rest hrest hlength
      refine (hstep s rest hrest).bind fun r rest' hrest' hr => ?_
      cases r with
      | inl s' =>
        have hshorter := hr rfl
        exact ih s' rest' (hrest.trans hrest') (by omega)
      | inr b => exact goes_pure hrest'.2 trivial
  exact within _ s tokens (.refl h) (Nat.lt_succ_self _)

/-! ## Recovery -/

theorem skip_leaves : ∀ {previous : Token} {tokens : List Token}, Ended tokens →
    ∃ rest, skip previous tokens = some rest ∧ Leaves tokens rest
  | _, [], h => by simp [Ended] at h
  | previous, token :: tokens, h => by
    simp only [skip]
    split
    · exact ⟨_, rfl, .refl h⟩
    · rename_i hgo
      have htail := Leaves.tail h (fun heof => hgo (.inl heof))
      obtain ⟨rest, hskip, hrest⟩ := skip_leaves htail.2
      exact ⟨rest, hskip, htail.trans hrest⟩

/-- Recovery resumes further on, unless nothing is left but the end of source. -/
theorem synchronize_leaves (h : Ended tokens) :
    ∃ rest, synchronize tokens = some rest ∧ Leaves tokens rest ∧
      (rest.length < tokens.length ∨ ∃ t, tokens.head? = some t ∧ t.kind = .eof) := by
  obtain ⟨token, rest, rfl⟩ := h.ne_nil
  simp only [synchronize]
  split
  · rename_i heof
    exact ⟨_, rfl, .refl h, .inr ⟨token, rfl, heof⟩⟩
  · rename_i hkind
    have htail := Leaves.tail h hkind
    obtain ⟨later, hskip, hlater⟩ := skip_leaves htail.2
    have hlength := hlater.length_le
    exact ⟨later, hskip, htail.trans hlater, .inl (by simp only [List.length_cons]; omega)⟩

theorem Goes.recover {p : Parser α} (h : Ended tokens)
    (hstart : ∀ t, tokens.head? = some t → t.kind ≠ .eof)
    (hp : Goes p tokens deep fun _ rest => rest.length < tokens.length) :
    Goes (recover p) tokens deep fun _ rest => rest.length < tokens.length := by
  unfold Goes at hp ⊢
  unfold Parser.recover
  generalize p tokens = reply at hp ⊢
  rcases reply with ⟨complaints, ⟨a, rest⟩ | ⟨rest⟩ | _ | _⟩ <;> simp only at hp ⊢
  · exact hp
  · obtain ⟨later, hsync, hlater, hshorter⟩ := synchronize_leaves hp.1.2
    simp only [hsync]
    refine ⟨hp.1.trans hlater, ?_⟩
    have hle := hp.1.length_le
    rcases hshorter with hshorter | ⟨t, ht, heof⟩
    · omega
    · -- The failure is at the end of source, where the part did not begin.
      have hne : rest ≠ tokens := by
        rintro rfl
        exact hstart t ht heof
      have hlt := lt_of_le_of_ne hle fun heq => hne (hp.1.1.eq_of_length heq)
      have hlast := hlater.length_le
      omega
  · exact hp

/-! ## Expressions -/

/-- The parser goes on and takes a token. -/
def Takes (p : Parser α) (tokens : List Token) (deep : Prop) : Prop :=
  Goes p tokens deep fun _ rest => rest.length < tokens.length

/-- The rules of expressions at one depth, from any tokens with an end of source. -/
structure ExpressionsGo (depth : Nat) : Prop where
  expression : ∀ {tokens}, Ended tokens →
    Takes (expression depth) tokens (depth < 10 * tokens.length + 10)
  binary : ∀ {tokens} (tier : Tier), Ended tokens →
    Takes (binary depth tier) tokens (depth < 10 * tokens.length + tier.room)
  unary : ∀ {tokens}, Ended tokens → Takes (unary depth) tokens (depth < 10 * tokens.length + 3)
  access : ∀ {tokens}, Ended tokens → Takes (access depth) tokens (depth < 10 * tokens.length + 2)
  arguments : ∀ {tokens}, Ended tokens →
    Goes (arguments depth) tokens (depth < 10 * tokens.length + 11) fun _ _ => True
  primary : ∀ {tokens}, Ended tokens →
    Takes (primary depth) tokens (depth < 10 * tokens.length + 1)

theorem goes_assignTo {target value : Node} {equals : Token} (h : Ended tokens) :
    Goes (assignTo target equals value) tokens deep fun _ rest => rest = tokens := by
  unfold assignTo
  split
  · exact goes_pure h rfl
  · exact goes_pure h rfl
  · refine (goes_complain h).bind fun _ rest hrest hsame => ?_
    exact goes_pure hrest.2 hsame

section Expressions

variable {depth : Nat} (IH : ExpressionsGo depth)

include IH

theorem ExpressionsGo.expressionStep (h : Ended tokens) :
    Takes (Parser.expression (depth + 1)) tokens (depth + 1 < 10 * tokens.length + 10) := by
  refine ((IH.binary .or h).mono (fun hdeep => by simp only [Tier.room] at hdeep; omega)
    fun _ _ _ ha => ha).bind fun target rest hrest htarget => ?_
  refine (goes_accept (by decide) hrest.2).bind fun found rest' hrest' hfound => ?_
  rcases hfound with ⟨rfl, rfl⟩ | ⟨hsome, hlength⟩
  · exact goes_pure hrest.2 htarget
  · obtain ⟨equals, rfl⟩ := Option.isSome_iff_exists.1 hsome
    refine ((IH.expression hrest'.2).mono (fun hdeep => by omega) fun _ _ _ ha => ha).bind
      fun value rest'' hrest'' hvalue => ?_
    refine (goes_assignTo hrest''.2).mono id fun _ _ _ hsame => ?_
    subst hsame
    omega

theorem ExpressionsGo.operandStep (tier : Tier) {rest : List Token} (hrest : Leaves tokens rest) :
    Takes (match tier.tighter? with
      | some tighter => Parser.binary depth tighter
      | none => Parser.unary depth) rest (depth + 1 < 10 * tokens.length + tier.room) := by
  have hlength := hrest.length_le
  cases tier <;> simp only [Tier.tighter?, Tier.room]
  case factor => exact (IH.unary hrest.2).mono (fun hdeep => by omega) fun _ _ _ ha => ha
  all_goals
    exact (IH.binary _ hrest.2).mono (fun hdeep => by simp only [Tier.room] at hdeep; omega)
      fun _ _ _ ha => ha

theorem ExpressionsGo.binaryStep (tier : Tier) (h : Ended tokens) :
    Takes (Parser.binary (depth + 1) tier) tokens
      (depth + 1 < 10 * tokens.length + tier.room) := by
  refine (IH.operandStep tier (.refl h)).bind fun first rest hrest hfirst => ?_
  refine (goes_loop hrest.2 (fun left rest' hrest' => ?_) first).mono id
    fun _ rest' hrest' _ => hrest'.length_le.trans_lt hfirst
  refine (goes_accept (by cases tier <;> decide) hrest'.2).bind fun found rest₂ hrest₂ hfound => ?_
  rcases hfound with ⟨rfl, rfl⟩ | ⟨hsome, hlength⟩
  · exact goes_pure hrest'.2 nofun
  · obtain ⟨operator, rfl⟩ := Option.isSome_iff_exists.1 hsome
    refine (IH.operandStep tier ((hrest.trans hrest').trans hrest₂)).bind
      fun right rest₃ hrest₃ hright => ?_
    exact goes_pure hrest₃.2 fun _ => hright.trans hlength

theorem ExpressionsGo.unaryStep (h : Ended tokens) :
    Takes (Parser.unary (depth + 1)) tokens (depth + 1 < 10 * tokens.length + 3) := by
  refine (goes_accept (by decide) h).bind fun found rest hrest hfound => ?_
  rcases hfound with ⟨rfl, rfl⟩ | ⟨hsome, hlength⟩
  · exact (IH.access h).mono (fun hdeep => by omega) fun _ _ _ ha => ha
  · obtain ⟨operator, rfl⟩ := Option.isSome_iff_exists.1 hsome
    refine ((IH.unary hrest.2).mono (fun hdeep => by omega) fun _ _ _ ha => ha).bind
      fun right rest' hrest' hright => ?_
    exact goes_pure hrest'.2 (hright.trans hlength)

theorem ExpressionsGo.accessStep (h : Ended tokens) :
    Takes (Parser.access (depth + 1)) tokens (depth + 1 < 10 * tokens.length + 2) := by
  refine ((IH.primary h).mono (fun hdeep => by omega) fun _ _ _ ha => ha).bind
    fun first rest hrest hfirst => ?_
  refine (goes_loop hrest.2 (fun object rest' hrest' => ?_) first).mono id
    fun _ rest' hrest' _ => hrest'.length_le.trans_lt hfirst
  refine (goes_accept (by decide) hrest'.2).bind fun found rest₂ hrest₂ hfound => ?_
  have hle := hrest'.length_le
  rcases hfound with ⟨rfl, rfl⟩ | ⟨hsome, hlength⟩
  · exact goes_pure hrest'.2 nofun
  · obtain ⟨opening, rfl⟩ := Option.isSome_iff_exists.1 hsome
    simp only
    split
    · refine ((IH.arguments hrest₂.2).mono (fun hdeep => by omega) fun _ _ _ ha => ha).bind
        fun values rest₃ hrest₃ _ => ?_
      have hle₃ := hrest₃.length_le
      refine (goes_expect (by decide) hrest₃.2).bind fun paren rest₄ hrest₄ hparen => ?_
      exact goes_pure hrest₄.2 fun _ => by omega
    · refine (goes_expect (by decide) hrest₂.2).bind fun name rest₃ hrest₃ hname => ?_
      exact goes_pure hrest₃.2 fun _ => hname.trans hlength

theorem ExpressionsGo.argumentsStep (h : Ended tokens) :
    Goes (Parser.arguments (depth + 1)) tokens (depth + 1 < 10 * tokens.length + 11)
      fun _ _ => True := by
  refine (goes_check h).bind fun closed rest hrest hclosed => ?_
  obtain ⟨rfl, -⟩ := hclosed
  split
  · exact goes_pure h trivial
  · refine ((IH.expression h).mono (fun hdeep => by omega) fun _ _ _ ha => ha).bind
      fun first rest' hrest' _ => ?_
    refine goes_loop hrest'.2 (fun values rest₂ hrest₂ => ?_) [first]
    have hle := (hrest'.trans hrest₂).length_le
    refine (goes_accept (by decide) hrest₂.2).bind fun found rest₃ hrest₃ hfound => ?_
    rcases hfound with ⟨rfl, rfl⟩ | ⟨hsome, hlength⟩
    · exact goes_pure hrest₂.2 nofun
    · obtain ⟨comma, rfl⟩ := Option.isSome_iff_exists.1 hsome
      have hnext : Goes (do return .inl (values ++ [← Parser.expression depth]) :
          Parser (List Node ⊕ List Node)) rest₃ (depth + 1 < 10 * rest.length + 11)
          fun r rest' => r.isLeft → rest'.length < rest₂.length := by
        refine ((IH.expression hrest₃.2).mono (fun hdeep => by omega) fun _ _ _ ha => ha).bind
          fun value rest₄ hrest₄ hvalue => ?_
        exact goes_pure hrest₄.2 fun _ => hvalue.trans hlength
      simp only
      split
      · exact hnext.after_complaint hrest₃.2
      · exact hnext

theorem ExpressionsGo.primaryStep (h : Ended tokens) :
    Takes (Parser.primary (depth + 1)) tokens (depth + 1 < 10 * tokens.length + 1) := by
  refine (goes_accept (by decide) h).bind fun found rest hrest hfound => ?_
  rcases hfound with ⟨rfl, rfl⟩ | ⟨hsome, hlength⟩
  · exact goes_fail h
  · obtain ⟨token, rfl⟩ := Option.isSome_iff_exists.1 hsome
    simp only
    split
    case h_4 =>
      refine (goes_expect (by decide) hrest.2).bind fun _ rest₁ hrest₁ hdot => ?_
      refine (goes_expect (by decide) hrest₁.2).bind fun _ rest₂ hrest₂ hmethod => ?_
      exact goes_pure hrest₂.2 (by omega)
    case h_7 =>
      refine ((IH.expression hrest.2).mono (fun hdeep => by omega) fun _ _ _ ha => ha).bind
        fun inner rest₁ hrest₁ hinner => ?_
      refine (goes_expect (by decide) hrest₁.2).bind fun _ rest₂ hrest₂ hclose => ?_
      exact goes_pure hrest₂.2 (by omega)
    all_goals exact goes_pure hrest.2 hlength

end Expressions

theorem expressionsGo : ∀ depth, ExpressionsGo depth
  | 0 =>
    ⟨fun _ => goes_tooDeep (by omega),
      fun tier _ => goes_tooDeep (by cases tier <;> simp [Tier.room]),
      fun _ => goes_tooDeep (by omega), fun _ => goes_tooDeep (by omega),
      fun _ => goes_tooDeep (by omega), fun _ => goes_tooDeep (by omega)⟩
  | depth + 1 =>
    have IH := expressionsGo depth
    ⟨IH.expressionStep, IH.binaryStep, IH.unaryStep, IH.accessStep, IH.argumentsStep,
      IH.primaryStep⟩

/-! ## Statements -/

section Parts

variable {depth : Nat}

theorem expression_goes (h : Ended tokens) (hdeep : depth < 10 * tokens.length + 10 → deep) :
    Takes (expression depth) tokens deep :=
  ((expressionsGo depth).expression h).mono hdeep fun _ _ _ ha => ha

theorem goes_expressionUnless {kind : TokenKind} (h : Ended tokens)
    (hdeep : depth < 10 * tokens.length + 10 → deep) :
    Goes (expressionUnless kind depth) tokens deep fun _ _ => True := by
  refine (goes_check h).bind fun found rest hrest hfound => ?_
  obtain ⟨rfl, -⟩ := hfound
  split
  · exact goes_pure h trivial
  · exact (expression_goes h hdeep).bind fun _ rest' hrest' _ => goes_pure hrest'.2 trivial

/-- An expression and the token that closes it make a statement. -/
theorem goes_closed {p : Parser α} {kind : TokenKind} {problem : Problem} {f : α → β}
    (hkind : kind ≠ .eof) (hp : Goes p tokens deep fun _ _ => True) :
    Takes (do let a ← p; let _ ← expect kind problem; return f a) tokens deep := by
  refine hp.bind fun a rest hrest _ => ?_
  refine (goes_expect hkind hrest.2).bind fun _ rest' hrest' hclose => ?_
  have hle := hrest.length_le
  exact goes_pure hrest'.2 (by omega)

theorem goes_expressionStatement (h : Ended tokens)
    (hdeep : depth < 10 * tokens.length + 10 → deep) :
    Takes (expressionStatement depth) tokens deep :=
  goes_closed (by decide) ((expression_goes h hdeep).mono id fun _ _ _ _ => trivial)

theorem goes_varDeclaration (h : Ended tokens)
    (hdeep : depth < 10 * tokens.length + 10 → deep) :
    Takes (varDeclaration depth) tokens deep := by
  refine (goes_expect (by decide) h).bind fun name rest hrest hname => ?_
  refine (goes_accept (by decide) hrest.2).bind fun found rest₁ hrest₁ hfound => ?_
  have hle₁ := hrest₁.length_le
  have hclose : ∀ {initializer : Option Node} {rest₂ : List Token}, Leaves rest₁ rest₂ →
      Goes (do let _ ← expect .semicolon .expectVariableEnd; return Node.varDecl name initializer)
        rest₂ deep fun _ rest => rest.length < tokens.length := by
    intro initializer rest₂ hrest₂
    have hle₂ := hrest₂.length_le
    refine (goes_expect (by decide) hrest₂.2).bind fun _ rest₃ hrest₃ hclose => ?_
    exact goes_pure hrest₃.2 (by omega)
  rcases hfound with ⟨rfl, rfl⟩ | ⟨hsome, hlength⟩
  · exact (goes_pure (Q := fun _ _ => True) hrest.2 trivial).bind
      fun _ rest' hrest' _ => hclose hrest'
  · obtain ⟨equals, rfl⟩ := Option.isSome_iff_exists.1 hsome
    exact (Goes.map (expression_goes hrest₁.2 fun hd => hdeep (by omega))
      (Q := fun _ _ => True) fun _ _ _ _ => trivial).bind fun _ rest' hrest' _ => hclose hrest'

theorem goes_forInitializer (h : Ended tokens)
    (hdeep : depth < 10 * tokens.length + 10 → deep) :
    Goes (forInitializer depth) tokens deep fun _ _ => True := by
  refine (goes_accept (by decide) h).bind fun found rest hrest hfound => ?_
  rcases hfound with ⟨rfl, rfl⟩ | ⟨hsome, hlength⟩
  · exact (goes_expressionStatement h hdeep).map fun _ _ _ _ => trivial
  · obtain ⟨token, rfl⟩ := Option.isSome_iff_exists.1 hsome
    simp only
    split
    · exact goes_pure hrest.2 trivial
    · exact (goes_varDeclaration hrest.2 fun hd => hdeep (by omega)).map fun _ _ _ _ => trivial

theorem goes_parameters (h : Ended tokens) : Goes parameters tokens deep fun _ _ => True := by
  refine (goes_check h).bind fun found rest hrest hfound => ?_
  obtain ⟨rfl, -⟩ := hfound
  split
  · exact goes_pure h trivial
  · refine (goes_expect (by decide) h).bind fun first rest₁ hrest₁ _ => ?_
    refine goes_loop hrest₁.2 (fun names rest₂ hrest₂ => ?_) [first]
    refine (goes_accept (by decide) hrest₂.2).bind fun found rest₃ hrest₃ hfound => ?_
    rcases hfound with ⟨rfl, rfl⟩ | ⟨hsome, hlength⟩
    · exact goes_pure hrest₂.2 nofun
    · obtain ⟨comma, rfl⟩ := Option.isSome_iff_exists.1 hsome
      have hnext : Goes (do
          return .inl (names ++ [← expect .identifier .expectParameterName]) :
          Parser (List Token ⊕ List Token)) rest₃ deep
          fun r rest' => r.isLeft → rest'.length < rest₂.length := by
        refine (goes_expect (by decide) hrest₃.2).bind fun name rest₄ hrest₄ hname => ?_
        exact goes_pure hrest₄.2 fun _ => hname.trans hlength
      simp only
      split
      · exact hnext.after_complaint hrest₃.2
      · exact hnext

theorem goes_superclass (h : Ended tokens) : Goes superclass tokens deep fun _ _ => True := by
  refine (goes_accept (by decide) h).bind fun found rest hrest hfound => ?_
  rcases hfound with ⟨rfl, rfl⟩ | ⟨hsome, hlength⟩
  · exact goes_pure h trivial
  · obtain ⟨less, rfl⟩ := Option.isSome_iff_exists.1 hsome
    exact (goes_expect (by decide) hrest.2).bind fun _ rest' hrest' _ => goes_pure hrest'.2 trivial

end Parts

/-- A declaration, which fails for all there is to recover from. -/
def declarationBody (depth : Nat) : Parser Node := do
  match ← accept? [.classWord, .funWord, .varWord] with
  | none => statement depth
  | some token =>
    match token.kind with
    | .classWord => classDeclaration depth
    | .funWord => function .function depth
    | _ => varDeclaration depth

theorem declaration_eq (depth : Nat) : declaration (depth + 1) = recover (declarationBody depth) :=
  rfl

/-- The rules of statements at one depth, from any tokens with an end of source; a declaration is
not read from the end of source itself. -/
structure StatementsGo (depth : Nat) : Prop where
  declaration : ∀ {tokens}, Ended tokens → (∀ t, tokens.head? = some t → t.kind ≠ .eof) →
    Takes (declaration depth) tokens (depth < 10 * tokens.length + 12)
  statement : ∀ {tokens}, Ended tokens →
    Takes (statement depth) tokens (depth < 10 * tokens.length + 11)
  classDeclaration : ∀ {tokens}, Ended tokens →
    Takes (classDeclaration depth) tokens (depth < 10 * tokens.length + 13)
  function : ∀ {tokens} (kind : FunctionKind), Ended tokens →
    Takes (function kind depth) tokens (depth < 10 * tokens.length + 13)
  block : ∀ {tokens}, Ended tokens → Takes (block depth) tokens (depth < 10 * tokens.length + 13)
  forStatement : ∀ {tokens}, Ended tokens →
    Takes (forStatement depth) tokens (depth < 10 * tokens.length + 13)
  ifStatement : ∀ {tokens}, Ended tokens →
    Takes (ifStatement depth) tokens (depth < 10 * tokens.length + 13)
  whileStatement : ∀ {tokens}, Ended tokens →
    Takes (whileStatement depth) tokens (depth < 10 * tokens.length + 13)

section Statements

variable {depth : Nat} (IH : StatementsGo depth)

include IH

theorem StatementsGo.declarationBodyStep (h : Ended tokens) :
    Takes (declarationBody depth) tokens (depth + 1 < 10 * tokens.length + 12) := by
  refine (goes_accept (by decide) h).bind fun found rest hrest hfound => ?_
  rcases hfound with ⟨rfl, rfl⟩ | ⟨hsome, hlength⟩
  · exact (IH.statement h).mono (fun hd => by omega) fun _ _ _ ha => ha
  · obtain ⟨token, rfl⟩ := Option.isSome_iff_exists.1 hsome
    simp only
    split
    · exact (IH.classDeclaration hrest.2).mono (fun hd => by omega)
        fun _ _ _ ha => ha.trans hlength
    · exact (IH.function .function hrest.2).mono (fun hd => by omega)
        fun _ _ _ ha => ha.trans hlength
    · exact (goes_varDeclaration hrest.2 fun hd => by omega).mono id
        fun _ _ _ ha => ha.trans hlength

theorem StatementsGo.declarationStep (h : Ended tokens)
    (hstart : ∀ t, tokens.head? = some t → t.kind ≠ .eof) :
    Takes (Parser.declaration (depth + 1)) tokens (depth + 1 < 10 * tokens.length + 12) :=
  Goes.recover h hstart (IH.declarationBodyStep h)

theorem StatementsGo.statementStep (h : Ended tokens) :
    Takes (Parser.statement (depth + 1)) tokens (depth + 1 < 10 * tokens.length + 11) := by
  refine (goes_accept (by decide) h).bind fun found rest hrest hfound => ?_
  rcases hfound with ⟨rfl, rfl⟩ | ⟨hsome, hlength⟩
  · exact goes_expressionStatement h fun hd => by omega
  · obtain ⟨token, rfl⟩ := Option.isSome_iff_exists.1 hsome
    simp only
    split
    · exact (IH.forStatement hrest.2).mono (fun hd => by omega) fun _ _ _ ha => ha.trans hlength
    · exact (IH.ifStatement hrest.2).mono (fun hd => by omega) fun _ _ _ ha => ha.trans hlength
    · refine (goes_closed (by decide) ((expression_goes hrest.2 fun hd => ?_).mono id
        fun _ _ _ _ => trivial)).mono id fun _ _ _ ha => ha.trans hlength
      omega
    · refine (goes_closed (by decide) (goes_expressionUnless hrest.2 fun hd => ?_)).mono id
        fun _ _ _ ha => ha.trans hlength
      omega
    · exact (IH.whileStatement hrest.2).mono (fun hd => by omega)
        fun _ _ _ ha => ha.trans hlength
    · exact ((IH.block hrest.2).mono (fun hd => by omega) fun _ _ _ ha => ha).map
        fun _ _ _ ha => ha.trans hlength

theorem StatementsGo.classDeclarationStep (h : Ended tokens) :
    Takes (Parser.classDeclaration (depth + 1)) tokens (depth + 1 < 10 * tokens.length + 13) := by
  refine (goes_expect (by decide) h).bind fun name rest hrest hname => ?_
  refine (goes_superclass hrest.2).bind fun parent rest₁ hrest₁ _ => ?_
  have hle₁ := hrest₁.length_le
  refine (goes_expect (by decide) hrest₁.2).bind fun _ rest₂ hrest₂ hopen => ?_
  refine (goes_loop hrest₂.2 (fun methods rest₃ hrest₃ => ?_) []).bind
    fun methods rest₃ hrest₃ _ => ?_
  · have hle₃ := hrest₃.length_le
    refine (goes_peek hrest₃.2).bind fun token rest₄ _ hpeek => ?_
    obtain ⟨rfl, -⟩ := hpeek
    split
    · exact goes_pure hrest₃.2 nofun
    · refine ((IH.function .method hrest₃.2).mono (fun hd => by omega) fun _ _ _ ha => ha).bind
        fun method rest₅ hrest₅ hmethod => ?_
      exact goes_pure hrest₅.2 fun _ => hmethod
  · have hle₃ := hrest₃.length_le
    refine (goes_expect (by decide) hrest₃.2).bind fun _ rest₄ hrest₄ hclose => ?_
    exact goes_pure hrest₄.2 (by omega)

theorem StatementsGo.functionStep (kind : FunctionKind) (h : Ended tokens) :
    Takes (Parser.function kind (depth + 1)) tokens (depth + 1 < 10 * tokens.length + 13) := by
  refine (goes_expect (by decide) h).bind fun name rest hrest hname => ?_
  refine (goes_expect (by decide) hrest.2).bind fun _ rest₁ hrest₁ hopen => ?_
  refine (goes_parameters hrest₁.2).bind fun params rest₂ hrest₂ _ => ?_
  have hle₂ := hrest₂.length_le
  refine (goes_expect (by decide) hrest₂.2).bind fun _ rest₃ hrest₃ hclose => ?_
  refine (goes_expect (by decide) hrest₃.2).bind fun _ rest₄ hrest₄ hbody => ?_
  refine ((IH.block hrest₄.2).mono (fun hd => by omega) fun _ _ _ ha => ha).bind
    fun body rest₅ hrest₅ hblock => ?_
  exact goes_pure hrest₅.2 (by omega)

theorem StatementsGo.blockStep (h : Ended tokens) :
    Takes (Parser.block (depth + 1)) tokens (depth + 1 < 10 * tokens.length + 13) := by
  refine goes_closed (by decide) (goes_loop h (fun statements rest hrest => ?_) [])
  have hle := hrest.length_le
  refine (goes_peek hrest.2).bind fun token rest₁ _ hpeek => ?_
  obtain ⟨rfl, hhead⟩ := hpeek
  split
  · exact goes_pure hrest.2 nofun
  · rename_i hgo
    have hstart : ∀ t, rest₁.head? = some t → t.kind ≠ .eof := by
      intro t ht heof
      rw [hhead] at ht
      cases ht
      exact hgo (.inr heof)
    refine ((IH.declaration hrest.2 hstart).mono (fun hd => by omega) fun _ _ _ ha => ha).bind
      fun statement rest₂ hrest₂ hstatement => ?_
    exact goes_pure hrest₂.2 fun _ => hstatement

theorem StatementsGo.forStatementStep (h : Ended tokens) :
    Takes (Parser.forStatement (depth + 1)) tokens (depth + 1 < 10 * tokens.length + 13) := by
  refine (goes_expect (by decide) h).bind fun _ rest hrest hopen => ?_
  refine (goes_forInitializer hrest.2 fun hd => by omega).bind fun initializer rest₁ hrest₁ _ => ?_
  have hle₁ := hrest₁.length_le
  refine (goes_expressionUnless hrest₁.2 fun hd => by omega).bind fun condition rest₂ hrest₂ _ => ?_
  have hle₂ := hrest₂.length_le
  refine (goes_expect (by decide) hrest₂.2).bind fun _ rest₃ hrest₃ hsemicolon => ?_
  refine (goes_expressionUnless hrest₃.2 fun hd => by omega).bind fun increment rest₄ hrest₄ _ => ?_
  have hle₄ := hrest₄.length_le
  refine (goes_expect (by decide) hrest₄.2).bind fun _ rest₅ hrest₅ hclose => ?_
  refine ((IH.statement hrest₅.2).mono (fun hd => by omega) fun _ _ _ ha => ha).bind
    fun body rest₆ hrest₆ hbody => ?_
  exact goes_pure hrest₆.2 (by omega)

theorem StatementsGo.ifStatementStep (h : Ended tokens) :
    Takes (Parser.ifStatement (depth + 1)) tokens (depth + 1 < 10 * tokens.length + 13) := by
  refine (goes_expect (by decide) h).bind fun _ rest hrest hopen => ?_
  refine (expression_goes hrest.2 fun hd => by omega).bind fun condition rest₁ hrest₁ hcond => ?_
  refine (goes_expect (by decide) hrest₁.2).bind fun _ rest₂ hrest₂ hclose => ?_
  refine ((IH.statement hrest₂.2).mono (fun hd => by omega) fun _ _ _ ha => ha).bind
    fun thenBranch rest₃ hrest₃ hthen => ?_
  refine (goes_accept (by decide) hrest₃.2).bind fun found rest₄ hrest₄ hfound => ?_
  rcases hfound with ⟨rfl, rfl⟩ | ⟨hsome, hlength⟩
  · exact goes_pure hrest₃.2 (by omega)
  · obtain ⟨word, rfl⟩ := Option.isSome_iff_exists.1 hsome
    refine ((IH.statement hrest₄.2).mono (fun hd => by omega) fun _ _ _ ha => ha).bind
      fun elseBranch rest₅ hrest₅ helse => ?_
    exact goes_pure hrest₅.2 (by omega)

theorem StatementsGo.whileStatementStep (h : Ended tokens) :
    Takes (Parser.whileStatement (depth + 1)) tokens (depth + 1 < 10 * tokens.length + 13) := by
  refine (goes_expect (by decide) h).bind fun _ rest hrest hopen => ?_
  refine (expression_goes hrest.2 fun hd => by omega).bind fun condition rest₁ hrest₁ hcond => ?_
  refine (goes_expect (by decide) hrest₁.2).bind fun _ rest₂ hrest₂ hclose => ?_
  refine ((IH.statement hrest₂.2).mono (fun hd => by omega) fun _ _ _ ha => ha).bind
    fun body rest₃ hrest₃ hbody => ?_
  exact goes_pure hrest₃.2 (by omega)

end Statements

theorem statementsGo : ∀ depth, StatementsGo depth
  | 0 =>
    ⟨fun _ _ => goes_tooDeep (by omega), fun _ => goes_tooDeep (by omega),
      fun _ => goes_tooDeep (by omega), fun _ _ => goes_tooDeep (by omega),
      fun _ => goes_tooDeep (by omega), fun _ => goes_tooDeep (by omega),
      fun _ => goes_tooDeep (by omega), fun _ => goes_tooDeep (by omega)⟩
  | depth + 1 =>
    have IH := statementsGo depth
    ⟨IH.declarationStep, IH.statementStep, IH.classDeclarationStep, IH.functionStep, IH.blockStep,
      IH.forStatementStep, IH.ifStatementStep, IH.whileStatementStep⟩

/-- Tokens with an end of source are read up to it, if the depth is ten times their number and
twelve more. -/
theorem program_goes (depth : Nat) (h : Ended tokens) :
    Goes (program depth) tokens (depth < 10 * tokens.length + 12) fun _ _ => True := by
  refine goes_loop h (fun statements rest hrest => ?_) []
  have hle := hrest.length_le
  refine (goes_check hrest.2).bind fun atEnd rest₁ _ hfound => ?_
  obtain ⟨rfl, hstart⟩ := hfound
  split
  · exact goes_pure hrest.2 nofun
  · rename_i hgo
    refine (((statementsGo depth).declaration hrest.2 (hstart (by simpa using hgo))).mono
      (fun hd => by omega) fun _ _ _ ha => ha).bind fun statement rest₂ hrest₂ hstatement => ?_
    exact goes_pure hrest₂.2 fun _ => hstatement

end Parser

end Lox
