import Mathlib.Order.Bounds.Basic
import Mathlib.Tactic
import Lox.Proofs.Accepted
import Lox.Proofs.Advancing

/-!
# Recovery from failures

Every rule of the grammar is `Orderly`: it comes to an end, it replies the same whatever follows an
end of source, and where it fails is the token it complained of last. A declaration that fails at a
token other than the end of source resumes at the next boundary, the least one there is. Parsing
therefore ends at the first end of source, with nothing read beyond it (`program_recovers`).
-/

namespace Lox

namespace Parser

variable {α β σ : Type} {tokens rest : List Token}

/-! ## Rules that are orderly -/

/-- The result with more tokens after those left. -/
def Result.before (more : List Token) : Result α → Result α
  | .ok a rest => .ok a (rest ++ more)
  | .failed rest => .failed (rest ++ more)
  | .noToken => .noToken
  | .tooDeep => .tooDeep

def Reply.before (more : List Token) (reply : Reply α) : Reply α :=
  ⟨reply.complaints, reply.result.before more⟩

theorem Goes.of_ok {p : Parser α} {deep : Prop} {Q : α → List Token → Prop} {a : α}
    (h : Goes p tokens deep Q) (hok : (p tokens).result = .ok a rest) :
    Leaves tokens rest ∧ Q a rest := by
  unfold Goes at h
  generalize p tokens = reply at h hok
  obtain ⟨complaints, result⟩ := reply
  cases hok
  exact h

/-- The two parsers may differ in the second part, as turns of a loop do. -/
theorem bind_before {p : Parser α} {f f' : α → Parser β} {more : List Token}
    (hp : p (tokens ++ more) = (p tokens).before more)
    (hf : ∀ a rest, (p tokens).result = .ok a rest →
      f' a (rest ++ more) = (f a rest).before more) :
    (p >>= f') (tokens ++ more) = ((p >>= f) tokens).before more := by
  show Parser.bind p f' (tokens ++ more) = (Parser.bind p f tokens).before more
  unfold Parser.bind
  rw [hp]
  generalize p tokens = reply at hf ⊢
  rcases reply with ⟨complaints, ⟨a, rest⟩ | rest | _ | _⟩
  · simp only [Reply.before, Result.before, hf a rest rfl, Reply.after]
  all_goals rfl

/-- A failure is at the token that was complained of last. -/
def Blames (p : Parser α) : Prop :=
  ∀ tokens rest, (p tokens).result = .failed rest → ∃ token later problem,
    rest = token :: later ∧ (p tokens).complaints.getLast? = some ⟨token, problem⟩

theorem Blames.bind {p : Parser α} {f : α → Parser β} (hp : Blames p) (hf : ∀ a, Blames (f a)) :
    Blames (p >>= f) := by
  intro tokens rest
  show (Parser.bind p f tokens).result = .failed rest → ∃ token later problem,
    rest = token :: later ∧ (Parser.bind p f tokens).complaints.getLast? = some ⟨token, problem⟩
  have hfirst := hp tokens rest
  unfold Parser.bind
  generalize p tokens = reply at hfirst ⊢
  rcases reply with ⟨complaints, ⟨a, middle⟩ | middle | _ | _⟩
  · intro hfailed
    obtain ⟨token, later, problem, hrest, hlast⟩ := hf a middle rest hfailed
    exact ⟨token, later, problem, hrest, by simp [Reply.after, List.getLast?_append, hlast]⟩
  · intro hfailed
    cases hfailed
    exact hfirst rfl
  · intro hfailed
    cases hfailed
  · intro hfailed
    cases hfailed

/-- From tokens with an end of source the parser goes on or fails, and does not look at what comes
after them; a failure is at the token that was complained of last. -/
structure Orderly (p : Parser α) : Prop where
  goes : ∀ {tokens}, Ended tokens → Goes p tokens True fun _ _ => True
  ahead : ∀ {tokens}, Ended tokens → ∀ more, p (tokens ++ more) = (p tokens).before more
  blames : Blames p

theorem orderly_pure (a : α) : Orderly (Pure.pure a : Parser α) :=
  ⟨fun h => goes_pure h trivial, fun _ _ => rfl, nofun⟩

theorem Orderly.bind {p : Parser α} {f : α → Parser β} (hp : Orderly p)
    (hf : ∀ a, Orderly (f a)) : Orderly (p >>= f) where
  goes h := (hp.goes h).bind fun a _ hrest _ => (hf a).goes hrest.2
  ahead h more := bind_before (hp.ahead h more) fun a _ hok =>
    (hf a).ahead ((hp.goes h).of_ok hok).1.2 more
  blames := hp.blames.bind fun a => (hf a).blames

theorem Orderly.map {p : Parser α} (hp : Orderly p) (f : α → β) : Orderly (f <$> p) :=
  hp.bind fun _ => orderly_pure _

theorem orderly_tooDeep : Orderly (tooDeep : Parser α) := ⟨fun _ => trivial, fun _ _ => rfl, nofun⟩

theorem orderly_complain (token : Token) (problem : Problem) : Orderly (complain token problem) :=
  ⟨fun h => (goes_complain h).mono id fun _ _ _ _ => trivial, fun _ _ => rfl, nofun⟩

theorem orderly_fail (problem : Problem) : Orderly (fail problem : Parser α) where
  goes h := goes_fail h
  ahead h more := by
    obtain ⟨token, rest, rfl⟩ := h.ne_nil
    rfl
  blames tokens rest h := by
    cases tokens with
    | nil => cases h
    | cons token later =>
      cases h
      exact ⟨token, later, problem, rfl, rfl⟩

theorem orderly_peek : Orderly peek where
  goes h := (goes_peek h).mono id fun _ _ _ _ => trivial
  ahead h more := by
    obtain ⟨token, rest, rfl⟩ := h.ne_nil
    rfl
  blames tokens rest h := by cases tokens <;> cases h

theorem orderly_check (kind : TokenKind) : Orderly (check kind) :=
  orderly_peek.bind fun _ => orderly_pure _

theorem orderly_accept {kinds : List TokenKind} (hkinds : TokenKind.eof ∉ kinds) :
    Orderly (accept? kinds) where
  goes h := (goes_accept hkinds h).mono id fun _ _ _ _ => trivial
  ahead h more := by
    obtain ⟨token, rest, rfl⟩ := h.ne_nil
    simp only [List.cons_append, accept?]
    split <;> rfl
  blames tokens rest h := by
    cases tokens with
    | nil => cases h
    | cons token later =>
      rw [accept?] at h
      split at h <;> cases h

theorem orderly_expect {kind : TokenKind} (hkind : kind ≠ .eof) (problem : Problem) :
    Orderly (expect kind problem) := by
  refine (orderly_accept (by simpa using hkind.symm)).bind fun found => ?_
  cases found with
  | none => exact orderly_fail problem
  | some token => exact orderly_pure token

/-! ## Loops -/

/-- Whenever a turn goes on, it has taken a token. -/
def Turns (step : σ → Parser (σ ⊕ β)) : Prop :=
  ∀ s {tokens}, Ended tokens → Goes (step s) tokens True fun r rest =>
    r.isLeft → rest.length < tokens.length

section Loops

variable {step : σ → Parser (σ ⊕ β)} (hstep : ∀ s, Orderly (step s)) (hturns : Turns step)

include hstep

theorem blames_loopWithin (turns : Nat) (s : σ) : Blames (loopWithin step turns s) := by
  induction turns generalizing s with
  | zero => nofun
  | succ turns ih =>
    refine (hstep s).blames.bind fun r => ?_
    cases r with
    | inl s' => exact ih s'
    | inr b => exact (orderly_pure b).blames

include hturns

/-- Enough turns are enough, whatever follows the tokens. -/
theorem ahead_loopWithin (more : List Token) (turns : Nat) :
    ∀ (enough : Nat) (s : σ) {tokens}, Ended tokens → tokens.length < turns →
      (tokens ++ more).length < enough →
      loopWithin step enough s (tokens ++ more) = (loopWithin step turns s tokens).before more := by
  induction turns with
  | zero => exact fun _ _ _ _ hlength => absurd hlength (Nat.not_lt_zero _)
  | succ turns ih =>
    intro enough s tokens h hlength henough
    obtain ⟨enough, rfl⟩ := Nat.exists_eq_succ_of_ne_zero (Nat.ne_zero_of_lt henough)
    refine bind_before ((hstep s).ahead h more) fun r rest hok => ?_
    obtain ⟨hrest, hshorter⟩ := (hturns s h).of_ok hok
    cases r with
    | inl s' =>
      have hlt := hshorter rfl
      simp only [List.length_append] at henough
      exact ih enough s' hrest.2 (by omega) (by simp only [List.length_append]; omega)
    | inr b => rfl

theorem orderly_loop (s : σ) : Orderly (loop step s) where
  goes h := goes_loop h (fun s _ hrest => (hturns s hrest.2)) s
  ahead {tokens} h more := ahead_loopWithin hstep hturns more (tokens.length + 1) _ s h
    (Nat.lt_succ_self _) (Nat.lt_succ_self _)
  blames tokens rest := blames_loopWithin hstep (tokens.length + 1) s tokens rest

end Loops

/-- A loop that goes on only with a token that it took. -/
theorem orderly_acceptLoop {kinds : List TokenKind} (hkinds : TokenKind.eof ∉ kinds)
    {k : σ → Option Token → Parser (σ ⊕ β)} (hnone : ∀ s, ∃ b, k s none = Pure.pure (.inr b))
    (hsome : ∀ s token, Orderly (k s (some token))) (s : σ) :
    Orderly (loop (fun s => accept? kinds >>= k s) s) := by
  refine orderly_loop (fun s => (orderly_accept hkinds).bind fun found => ?_)
    (fun s tokens h => (goes_accept hkinds h).bind fun found rest hrest hfound => ?_) s
  · cases found with
    | none =>
      obtain ⟨b, hb⟩ := hnone s
      rw [hb]
      exact orderly_pure _
    | some token => exact hsome s token
  · rcases hfound with ⟨rfl, rfl⟩ | ⟨htaken, hlength⟩
    · obtain ⟨b, hb⟩ := hnone s
      rw [hb]
      exact goes_pure h nofun
    · obtain ⟨token, rfl⟩ := Option.isSome_iff_exists.1 htaken
      refine ((hsome s token).goes hrest.2).mono id fun _ rest' hrest' _ _ => ?_
      exact hrest'.length_le.trans_lt hlength

/-! ## Recovery -/

theorem skip_append {previous : Token} {more : List Token} : ∀ {tokens rest : List Token},
    skip previous tokens = some rest → skip previous (tokens ++ more) = some (rest ++ more)
  | [], _, h => by cases h
  | token :: tokens, rest, h => by
    simp only [skip, List.cons_append] at h ⊢
    split
    · rename_i hboundary
      rw [if_pos hboundary] at h
      cases h
      rfl
    · rename_i hgo
      rw [if_neg hgo] at h
      exact skip_append h

theorem synchronize_append {more : List Token} (h : synchronize tokens = some rest) :
    synchronize (tokens ++ more) = some (rest ++ more) := by
  cases tokens with
  | nil => cases h
  | cons token tokens =>
    simp only [synchronize, List.cons_append] at h ⊢
    split
    · rename_i heof
      rw [if_pos heof] at h
      cases h
      rfl
    · rename_i hkind
      rw [if_neg hkind] at h
      exact skip_append h

theorem recover_ne_failed (p : Parser α) (tokens rest : List Token) :
    (recover p tokens).result ≠ .failed rest := by
  unfold recover
  rcases p tokens with ⟨complaints, ⟨a, later⟩ | later | _ | _⟩ <;> simp only
  · nofun
  · cases synchronize later <;> nofun
  · nofun
  · nofun

theorem Orderly.recover {p : Parser α} (hp : Orderly p) : Orderly (recover p) where
  goes {tokens} h := by
    have hgoes := hp.goes h
    unfold Goes at hgoes ⊢
    unfold Parser.recover
    generalize p tokens = reply at hgoes ⊢
    rcases reply with ⟨complaints, ⟨a, rest⟩ | rest | _ | _⟩ <;> simp only at hgoes ⊢
    · exact hgoes
    · obtain ⟨later, hsync, hlater, -⟩ := synchronize_leaves hgoes.1.2
      simp only [hsync]
      exact ⟨hgoes.1.trans hlater, trivial⟩
  ahead {tokens} h more := by
    have hgoes := hp.goes h
    unfold Goes at hgoes
    unfold Parser.recover
    rw [hp.ahead h more]
    generalize p tokens = reply at hgoes ⊢
    rcases reply with ⟨complaints, ⟨a, rest⟩ | rest | _ | _⟩
    · rfl
    · obtain ⟨later, hsync, -⟩ := synchronize_leaves hgoes.1.2
      simp only [Reply.before, Result.before, hsync, synchronize_append hsync]
    all_goals rfl
  blames tokens rest h := absurd h (recover_ne_failed p tokens rest)

/-! ## Expressions -/

theorem orderly_assignTo (target : Node) (equals : Token) (value : Node) :
    Orderly (assignTo target equals value) := by
  unfold assignTo
  split
  · exact orderly_pure _
  · exact orderly_pure _
  · exact (orderly_complain _ _).bind fun _ => orderly_pure _

/-- Every rule of expressions is orderly, at the depth. -/
structure ExpressionsOrderly (depth : Nat) : Prop where
  expression : Orderly (expression depth)
  binary : ∀ t, Orderly (binary depth t)
  unary : Orderly (unary depth)
  access : Orderly (access depth)
  arguments : Orderly (arguments depth)
  primary : Orderly (primary depth)

section Expressions

variable {depth : Nat} (ih : ExpressionsOrderly depth)

include ih

theorem ExpressionsOrderly.expressionStep : Orderly (Parser.expression (depth + 1)) := by
  refine (ih.binary .or).bind fun target => (orderly_accept (by decide)).bind fun found => ?_
  cases found with
  | none => exact orderly_pure target
  | some equals => exact ih.expression.bind fun value => orderly_assignTo target equals value

theorem ExpressionsOrderly.operandStep (t : Tier) : Orderly (operand depth t) := by
  cases t with
  | factor => exact ih.unary
  | _ => exact ih.binary _

theorem ExpressionsOrderly.binaryStep (t : Tier) : Orderly (Parser.binary (depth + 1) t) := by
  rw [binary_succ]
  refine (ih.operandStep t).bind fun first => orderly_acceptLoop (by cases t <;> decide)
    (fun left => ⟨left, rfl⟩) (fun left operator => ?_) first
  exact (ih.operandStep t).bind fun right => orderly_pure _

theorem ExpressionsOrderly.unaryStep : Orderly (Parser.unary (depth + 1)) := by
  refine (orderly_accept (by decide)).bind fun found => ?_
  cases found with
  | none => exact ih.access
  | some operator => exact ih.unary.bind fun right => orderly_pure _

theorem ExpressionsOrderly.accessStep : Orderly (Parser.access (depth + 1)) := by
  rw [access_succ]
  refine ih.primary.bind fun first =>
    orderly_acceptLoop (by decide) (fun object => ⟨object, rfl⟩) (fun object opening => ?_) first
  simp only
  split
  · exact ih.arguments.bind fun values => (orderly_expect (by decide) _).bind fun paren =>
      orderly_pure _
  · exact (orderly_expect (by decide) _).bind fun name => orderly_pure _

theorem ExpressionsOrderly.argumentsStep : Orderly (Parser.arguments (depth + 1)) := by
  rw [arguments_succ]
  refine (orderly_check _).bind fun closed => ?_
  split
  · exact orderly_pure _
  · refine ih.expression.bind fun first => orderly_acceptLoop (by decide)
      (fun values => ⟨values, rfl⟩) (fun values comma => ?_) [first]
    have hnext := ih.expression.bind fun value =>
      orderly_pure (.inl (values ++ [value]) : List Node ⊕ List Node)
    simp only
    split
    · exact orderly_peek.bind fun token => (orderly_complain token _).bind fun _ => hnext
    · exact hnext

theorem ExpressionsOrderly.primaryStep : Orderly (Parser.primary (depth + 1)) := by
  refine (orderly_accept (by decide)).bind fun found => ?_
  cases found with
  | none => exact orderly_fail _
  | some token =>
    simp only
    split
    case h_4 =>
      exact (orderly_expect (by decide) _).bind fun _ => (orderly_expect (by decide) _).bind
        fun method => orderly_pure _
    case h_7 =>
      exact ih.expression.bind fun inner => (orderly_expect (by decide) _).bind
        fun _ => orderly_pure _
    all_goals exact orderly_pure _

end Expressions

theorem expressionsOrderly : ∀ depth, ExpressionsOrderly depth
  | 0 => ⟨orderly_tooDeep, fun _ => orderly_tooDeep, orderly_tooDeep, orderly_tooDeep,
      orderly_tooDeep, orderly_tooDeep⟩
  | depth + 1 =>
    have ih := expressionsOrderly depth
    ⟨ih.expressionStep, ih.binaryStep, ih.unaryStep, ih.accessStep, ih.argumentsStep,
      ih.primaryStep⟩

/-! ## Statements -/

theorem orderly_expression (depth : Nat) : Orderly (expression depth) :=
  (expressionsOrderly depth).expression

theorem orderly_expressionUnless (kind : TokenKind) (depth : Nat) :
    Orderly (expressionUnless kind depth) := by
  refine (orderly_check kind).bind fun closed => ?_
  split
  · exact orderly_pure _
  · exact (orderly_expression depth).bind fun value => orderly_pure _

theorem orderly_expressionStatement (depth : Nat) : Orderly (expressionStatement depth) :=
  (orderly_expression depth).bind fun _ => (orderly_expect (by decide) _).bind fun _ =>
    orderly_pure _

theorem orderly_printStatement (depth : Nat) : Orderly (printStatement depth) :=
  (orderly_expression depth).bind fun _ => (orderly_expect (by decide) _).bind fun _ =>
    orderly_pure _

theorem orderly_returnStatement (keyword : Token) (depth : Nat) :
    Orderly (returnStatement keyword depth) :=
  (orderly_expressionUnless _ depth).bind fun _ => (orderly_expect (by decide) _).bind fun _ =>
    orderly_pure _

theorem orderly_varDeclaration (depth : Nat) : Orderly (varDeclaration depth) := by
  refine (orderly_expect (by decide) _).bind fun name =>
    (orderly_accept (by decide)).bind fun found => ?_
  have hlast : ∀ initializer, Orderly (do
      let _ ← expect .semicolon .expectVariableEnd
      return Node.varDecl name initializer) := fun initializer =>
    (orderly_expect (by decide) _).bind fun _ => orderly_pure _
  cases found with
  | none => exact (orderly_pure none).bind hlast
  | some equals => exact ((orderly_expression depth).map some).bind hlast

theorem orderly_forInitializer (depth : Nat) : Orderly (forInitializer depth) := by
  refine (orderly_accept (by decide)).bind fun found => ?_
  cases found with
  | none => exact (orderly_expressionStatement depth).map some
  | some token =>
    simp only
    split
    · exact orderly_pure none
    · exact (orderly_varDeclaration depth).map some

theorem orderly_parameters : Orderly parameters := by
  rw [parameters_eq]
  refine (orderly_check _).bind fun closed => ?_
  split
  · exact orderly_pure []
  · refine (orderly_expect (by decide) _).bind fun first => orderly_acceptLoop (by decide)
      (fun names => ⟨names, rfl⟩) (fun names comma => ?_) [first]
    have hname : Orderly (expect .identifier .expectParameterName) := orderly_expect (by decide) _
    have hnext := hname.bind fun name =>
      orderly_pure (.inl (names ++ [name]) : List Token ⊕ List Token)
    simp only
    split
    · exact orderly_peek.bind fun token => (orderly_complain token _).bind fun _ => hnext
    · exact hnext

theorem orderly_superclass : Orderly superclass := by
  refine (orderly_accept (by decide)).bind fun found => ?_
  cases found with
  | none => exact orderly_pure none
  | some less => exact (orderly_expect (by decide) _).bind fun name => orderly_pure _

/-- Every rule of statements is orderly, at the depth. -/
structure StatementsOrderly (depth : Nat) : Prop where
  declaration : Orderly (declaration depth)
  classDeclaration : Orderly (classDeclaration depth)
  function : ∀ kind, Orderly (function kind depth)
  block : Orderly (block depth)
  statement : Orderly (statement depth)
  forStatement : Orderly (forStatement depth)
  ifStatement : Orderly (ifStatement depth)
  whileStatement : Orderly (whileStatement depth)

/-- A declaration in a loop takes a token at each turn, unless it is at the end of source. -/
theorem turns_declaration {depth : Nat} {stop : Token → Prop} [DecidablePred stop]
    (hstop : ∀ token, token.kind = .eof → stop token) :
    Turns fun statements : List Node => do
      let token ← peek
      if stop token then return .inr statements
      return .inl (statements ++ (← declaration depth).toList) := by
  intro statements tokens h
  refine (goes_peek h).bind fun token rest hrest hpeek => ?_
  obtain ⟨rfl, hhead⟩ := hpeek
  split
  · exact goes_pure h nofun
  · rename_i hgo
    have hstart : ∀ t, rest.head? = some t → t.kind ≠ .eof := by
      intro t ht heof
      rw [hhead] at ht
      cases ht
      exact hgo (hstop token heof)
    refine (((statementsGo depth).declaration h hstart).mono (fun _ => trivial)
      fun _ _ _ ha => ha).bind fun statement later hlater hshorter => ?_
    exact goes_pure hlater.2 fun _ => hshorter

section Statements

variable {depth : Nat} (ih : StatementsOrderly depth)

include ih

theorem StatementsOrderly.declarationBodyStep : Orderly (declarationBody depth) := by
  refine (orderly_accept (by decide)).bind fun found => ?_
  cases found with
  | none => exact ih.statement
  | some token =>
    simp only
    split
    · exact ih.classDeclaration
    · exact ih.function .function
    · exact orderly_varDeclaration depth

theorem StatementsOrderly.classDeclarationStep : Orderly (Parser.classDeclaration (depth + 1)) := by
  refine (orderly_expect (by decide) _).bind fun name => orderly_superclass.bind fun parent =>
    (orderly_expect (by decide) _).bind fun _ =>
      (orderly_loop (fun methods => orderly_peek.bind fun token => ?_)
        (fun methods tokens h => ?_) []).bind
      fun methods => (orderly_expect (by decide) _).bind fun _ => orderly_pure _
  · split
    · exact orderly_pure _
    · exact (ih.function .method).bind fun method => orderly_pure _
  · refine (goes_peek h).bind fun token rest hrest hpeek => ?_
    obtain ⟨rfl, -⟩ := hpeek
    split
    · exact goes_pure h nofun
    · refine (((statementsGo depth).function .method h).mono (fun _ => trivial)
        fun _ _ _ ha => ha).bind fun method later hlater hshorter => ?_
      exact goes_pure hlater.2 fun _ => hshorter

theorem StatementsOrderly.functionStep (kind : FunctionKind) :
    Orderly (Parser.function kind (depth + 1)) :=
  (orderly_expect (by decide) _).bind fun _ => (orderly_expect (by decide) _).bind fun _ =>
    orderly_parameters.bind fun _ => (orderly_expect (by decide) _).bind fun _ =>
      (orderly_expect (by decide) _).bind fun _ => ih.block.bind fun _ => orderly_pure _

theorem StatementsOrderly.blockStep : Orderly (Parser.block (depth + 1)) := by
  refine (orderly_loop (fun statements => orderly_peek.bind fun token => ?_)
    (turns_declaration fun _ heof => .inr heof) []).bind
    fun statements => (orderly_expect (by decide) _).bind fun _ => orderly_pure _
  split
  · exact orderly_pure _
  · exact ih.declaration.bind fun statement => orderly_pure _

theorem StatementsOrderly.statementStep : Orderly (Parser.statement (depth + 1)) := by
  refine (orderly_accept (by decide)).bind fun found => ?_
  cases found with
  | none => exact orderly_expressionStatement depth
  | some token =>
    simp only
    split
    · exact ih.forStatement
    · exact ih.ifStatement
    · exact orderly_printStatement depth
    · exact orderly_returnStatement token depth
    · exact ih.whileStatement
    · exact ih.block.map Node.block

theorem StatementsOrderly.forStatementStep : Orderly (Parser.forStatement (depth + 1)) :=
  (orderly_expect (by decide) _).bind fun _ => (orderly_forInitializer depth).bind fun _ =>
    (orderly_expressionUnless _ depth).bind fun _ => (orderly_expect (by decide) _).bind fun _ =>
      (orderly_expressionUnless _ depth).bind fun _ => (orderly_expect (by decide) _).bind fun _ =>
        ih.statement.bind fun _ => orderly_pure _

theorem StatementsOrderly.ifStatementStep : Orderly (Parser.ifStatement (depth + 1)) := by
  refine (orderly_expect (by decide) _).bind fun _ => (orderly_expression depth).bind fun _ =>
    (orderly_expect (by decide) _).bind fun _ => ih.statement.bind fun _ =>
      (orderly_accept (by decide)).bind fun found => ?_
  cases found with
  | none => exact orderly_pure _
  | some word => exact ih.statement.bind fun _ => orderly_pure _

theorem StatementsOrderly.whileStatementStep : Orderly (Parser.whileStatement (depth + 1)) :=
  (orderly_expect (by decide) _).bind fun _ => (orderly_expression depth).bind fun _ =>
    (orderly_expect (by decide) _).bind fun _ => ih.statement.bind fun _ => orderly_pure _

end Statements

theorem statementsOrderly : ∀ depth, StatementsOrderly depth
  | 0 => ⟨orderly_tooDeep, orderly_tooDeep, fun _ => orderly_tooDeep, orderly_tooDeep,
      orderly_tooDeep, orderly_tooDeep, orderly_tooDeep, orderly_tooDeep⟩
  | depth + 1 =>
    have ih := statementsOrderly depth
    ⟨ih.declarationBodyStep.recover, ih.classDeclarationStep, ih.functionStep, ih.blockStep,
      ih.statementStep, ih.forStatementStep, ih.ifStatementStep, ih.whileStatementStep⟩

theorem program_eq (depth : Nat) :
    program depth = loop (fun statements => do
      let token ← peek
      if token.kind = .eof then return .inr statements
      return .inl (statements ++ (← declaration depth).toList)) [] := by
  simp only [program, check, bind_assoc, pure_bind, decide_eq_true_eq]

theorem orderly_program (depth : Nat) : Orderly (program depth) := by
  rw [program_eq]
  refine orderly_loop (fun statements => orderly_peek.bind fun token => ?_)
    (turns_declaration fun _ heof => heof) []
  split
  · exact orderly_pure _
  · exact (statementsOrderly depth).declaration.bind fun statement => orderly_pure _

/-! ## Where a program ends -/

/-- The parser does not fail from the tokens, and what it gives is as described. -/
def Concludes (p : Parser α) (tokens : List Token) (Q : α → List Token → Prop) : Prop :=
  match (p tokens).result with
  | .ok a rest => Q a rest
  | .failed _ => False
  | .noToken => True
  | .tooDeep => True

theorem Concludes.bind {p : Parser α} {f : α → Parser β} {P : α → List Token → Prop}
    {Q : β → List Token → Prop} (hp : Concludes p tokens P)
    (hf : ∀ a rest, P a rest → Concludes (f a) rest Q) : Concludes (p >>= f) tokens Q := by
  unfold Concludes at hp ⊢
  change match (Parser.bind p f tokens).result with
    | .ok a rest => Q a rest
    | .failed _ => False
    | .noToken => True
    | .tooDeep => True
  unfold Parser.bind
  generalize p tokens = reply at hp ⊢
  rcases reply with ⟨first, ⟨a, middle⟩ | ⟨middle⟩ | _ | _⟩ <;> simp only at hp ⊢
  exact hf a middle hp

theorem concludes_loop {step : σ → Parser (σ ⊕ β)} {Q : List Token → Prop}
    (hstep : ∀ s tokens, Concludes (step s) tokens fun r rest => r.isRight → Q rest) (s : σ)
    (tokens : List Token) : Concludes (loop step s) tokens fun _ rest => Q rest := by
  have within : ∀ turns s tokens,
      Concludes (loopWithin step turns s) tokens fun _ rest => Q rest := by
    intro turns
    induction turns with
    | zero => exact fun _ _ => trivial
    | succ turns ih =>
      refine fun s tokens => (hstep s tokens).bind fun r rest hr => ?_
      cases r with
      | inl s' => exact ih s' rest
      | inr b => exact hr rfl
  exact within _ s tokens

/-- A program ends at an end of source. -/
theorem program_concludes (depth : Nat) (tokens : List Token) :
    Concludes (program depth) tokens fun _ rest => ∃ t, rest.head? = some t ∧ t.kind = .eof := by
  have hpeek : ∀ tokens, Concludes peek tokens fun t rest => rest.head? = some t := by
    rintro (_ | ⟨t, tokens⟩)
    · trivial
    · rfl
  have hdeclaration : ∀ tokens, Concludes (declaration depth) tokens fun _ _ => True := by
    intro tokens
    cases depth with
    | zero => trivial
    | succ depth =>
      unfold Concludes
      split
      · trivial
      · rename_i rest hfailed
        exact recover_ne_failed (declarationBody depth) tokens rest hfailed
      all_goals trivial
  rw [program_eq]
  refine concludes_loop (fun statements tokens => (hpeek tokens).bind fun token rest hhead => ?_)
    [] tokens
  split
  · rename_i heof
    exact fun _ => ⟨token, hhead, heof⟩
  · exact (hdeclaration rest).bind fun _ _ _ => nofun

/-! ## Boundaries -/

/-- The token at the index is the end of source or starts a statement, or the one before it is a
semicolon. -/
def Boundary (tokens : List Token) (j : Nat) : Prop :=
  ∃ token, tokens[j]? = some token ∧ (token.kind = .eof ∨
    (∃ previous, tokens[j - 1]? = some previous ∧ previous.kind = .semicolon) ∨
    token.kind ∈ [.classWord, .funWord, .varWord, .forWord, .ifWord, .whileWord, .printWord,
      .returnWord])

theorem boundary_drop {e k : Nat} (hk : 0 < k) :
    Boundary (tokens.drop e) k ↔ Boundary tokens (e + k) := by
  have hprevious : e + (k - 1) = e + k - 1 := by omega
  simp only [Boundary, List.getElem?_drop, hprevious]

/-- Skipping stops at the least boundary. -/
theorem skip_least : ∀ {tokens rest : List Token} {previous : Token},
    skip previous tokens = some rest → ∃ k, rest = (previous :: tokens).drop k ∧
      IsLeast {k | 0 < k ∧ Boundary (previous :: tokens) k} k
  | [], _, _, h => by cases h
  | token :: tokens, rest, previous, h => by
    have hone : Boundary (previous :: token :: tokens) 1 ↔
        token.kind = .eof ∨ previous.kind = .semicolon ∨ startsStatement token.kind := by
      simp [Boundary, startsStatement]
    rw [skip] at h
    split at h
    · rename_i hboundary
      cases h
      exact ⟨1, rfl, ⟨Nat.one_pos, hone.2 hboundary⟩, fun k hk => hk.1⟩
    · rename_i hgo
      obtain ⟨k, rfl, ⟨hpos, hk⟩, hleast⟩ := skip_least h
      have hshift : ∀ k, 0 < k → (Boundary (token :: tokens) k ↔
          Boundary (previous :: token :: tokens) (k + 1)) := by
        intro k hpos
        have hdrop : Boundary ((previous :: token :: tokens).drop 1) k ↔ _ := boundary_drop hpos
        rwa [Nat.add_comm] at hdrop
      refine ⟨k + 1, rfl, ⟨Nat.succ_pos k, (hshift k hpos).1 hk⟩, ?_⟩
      rintro (_ | _ | k') ⟨hpos', hk'⟩
      · exact absurd hpos' (lt_irrefl 0)
      · exact absurd (hone.1 hk') hgo
      · exact Nat.succ_le_succ (hleast ⟨Nat.succ_pos k', (hshift _ (Nat.succ_pos k')).2 hk'⟩)

/-- Recovery from a failure at an index resumes at the least boundary after it. -/
theorem synchronize_least {e : Nat} {offending : Token} (hoffending : tokens[e]? = some offending)
    (hkind : offending.kind ≠ .eof) (h : synchronize (tokens.drop e) = some rest) :
    ∃ j, rest = tokens.drop j ∧ IsLeast {j | e < j ∧ Boundary tokens j} j := by
  obtain ⟨hlt, hget⟩ := List.getElem?_eq_some_iff.1 hoffending
  have hdrop : tokens.drop e = offending :: tokens.drop (e + 1) := by
    rw [List.drop_eq_getElem_cons hlt, hget]
  rw [hdrop, synchronize, if_neg hkind] at h
  obtain ⟨k, hrest, ⟨hpos, hk⟩, hleast⟩ := skip_least h
  rw [← hdrop] at hrest hk hleast
  refine ⟨e + k, by rw [hrest, List.drop_drop], ⟨by omega, (boundary_drop hpos).1 hk⟩, ?_⟩
  rintro j ⟨hj, hboundary⟩
  obtain ⟨k', rfl⟩ := Nat.exists_eq_add_of_lt hj
  have hle := hleast ⟨Nat.succ_pos k', (boundary_drop (Nat.succ_pos k')).2 hboundary⟩
  omega

/-! ## Positions -/

/-- The index of the first end of source. -/
def endIndex (tokens : List Token) : Nat := tokens.findIdx fun t => t.kind = .eof

theorem endIndex_lt (h : Ended tokens) : endIndex tokens < tokens.length :=
  List.findIdx_lt_length_of_exists (by simpa [Ended] using h)

theorem kind_endIndex (h : Ended tokens) :
    ∃ t, tokens[endIndex tokens]? = some t ∧ t.kind = .eof := by
  have hlt := endIndex_lt h
  exact ⟨_, List.getElem?_eq_getElem hlt, of_decide_eq_true (List.findIdx_getElem (w := hlt))⟩

theorem eq_endIndex {j : Nat} {t : Token} (hj : j ≤ endIndex tokens) (ht : tokens[j]? = some t)
    (heof : t.kind = .eof) : j = endIndex tokens := by
  by_contra hne
  have hlt : j < endIndex tokens := by omega
  have hnot := List.not_of_lt_findIdx hlt
  obtain ⟨hlength, hget⟩ := List.getElem?_eq_some_iff.1 ht
  rw [hget] at hnot
  simp [heof] at hnot

/-- The tokens from an index to the first end of source. -/
def upToEnd (tokens : List Token) (i : Nat) : List Token :=
  (tokens.take (endIndex tokens + 1)).drop i

section Positions

variable {i : Nat} (h : Ended tokens) (hi : i ≤ endIndex tokens)

include h hi

theorem length_upToEnd : (upToEnd tokens i).length = endIndex tokens + 1 - i := by
  have hlt := endIndex_lt h
  simp only [upToEnd, List.length_drop, List.length_take]
  omega

theorem upToEnd_append :
    upToEnd tokens i ++ tokens.drop (endIndex tokens + 1) = tokens.drop i := by
  have hlt := endIndex_lt h
  have hlength : i ≤ (tokens.take (endIndex tokens + 1)).length := by
    rw [List.length_take]
    omega
  rw [upToEnd, ← List.drop_append_of_le_length hlength, List.take_append_drop]

theorem ended_upToEnd : Ended (upToEnd tokens i) := by
  obtain ⟨t, ht, heof⟩ := kind_endIndex h
  refine ⟨t, List.mem_of_getElem? (i := endIndex tokens - i) ?_, heof⟩
  have hindex : i + (endIndex tokens - i) = endIndex tokens := by omega
  rw [upToEnd, List.getElem?_drop, hindex, List.getElem?_take_of_succ, ht]

/-- What a parser leaves of the tokens up to the end of source are those from some index on. -/
theorem leaves_upToEnd (hleaves : Leaves (upToEnd tokens i) rest) :
    ∃ j, i ≤ j ∧ j ≤ endIndex tokens ∧
      rest ++ tokens.drop (endIndex tokens + 1) = tokens.drop j := by
  obtain ⟨k, hk⟩ : ∃ k, rest = (upToEnd tokens i).drop k :=
    ⟨_, List.suffix_iff_eq_drop.1 hleaves.1⟩
  have hlength := length_upToEnd h hi
  have hlt : k < (upToEnd tokens i).length := by
    obtain ⟨t, ht, -⟩ := hleaves.2
    by_contra hge
    rw [hk, List.drop_eq_nil_of_le (Nat.le_of_not_lt hge)] at ht
    cases ht
  refine ⟨i + k, by omega, by omega, ?_⟩
  rw [hk, ← List.drop_append_of_le_length hlt.le, upToEnd_append h hi, List.drop_drop]

/-- From a position up to the first end of source a parser comes to such a position. -/
theorem Orderly.stops {p : Parser α} (hp : Orderly p) :
    (p (tokens.drop i)).result = .tooDeep ∨
    (∃ a j, i ≤ j ∧ j ≤ endIndex tokens ∧ (p (tokens.drop i)).result = .ok a (tokens.drop j)) ∨
    ∃ e, i ≤ e ∧ e ≤ endIndex tokens ∧ (p (tokens.drop i)).result = .failed (tokens.drop e) := by
  have hgoes := hp.goes (ended_upToEnd h hi)
  rw [← upToEnd_append h hi, hp.ahead (ended_upToEnd h hi)]
  unfold Goes at hgoes
  generalize p (upToEnd tokens i) = reply at hgoes ⊢
  rcases reply with ⟨complaints, ⟨a, rest⟩ | rest | _ | _⟩
  · obtain ⟨j, hij, hj, hrest⟩ := leaves_upToEnd h hi hgoes.1
    exact .inr (.inl ⟨a, j, hij, hj, congrArg (Result.ok a) hrest⟩)
  · obtain ⟨e, hie, he, hrest⟩ := leaves_upToEnd h hi hgoes.1
    exact .inr (.inr ⟨e, hie, he, congrArg Result.failed hrest⟩)
  · exact hgoes.elim
  · exact .inl rfl

end Positions

/-! ## Declarations -/

theorem Goes.of_tooDeep {p : Parser α} {deep : Prop} {Q : α → List Token → Prop}
    (h : Goes p tokens deep Q) (hdeep : (p tokens).result = .tooDeep) : deep := by
  unfold Goes at h
  generalize p tokens = reply at h hdeep
  obtain ⟨complaints, result⟩ := reply
  cases hdeep
  exact h

theorem recover_ok {p : Parser α} {a : α} (h : (p tokens).result = .ok a rest) :
    recover p tokens = ⟨(p tokens).complaints, .ok (some a) rest⟩ := by
  unfold recover
  generalize p tokens = reply at h ⊢
  obtain ⟨complaints, result⟩ := reply
  cases h
  rfl

theorem recover_tooDeep {p : Parser α} (h : (p tokens).result = .tooDeep) :
    recover p tokens = ⟨(p tokens).complaints, .tooDeep⟩ := by
  unfold recover
  generalize p tokens = reply at h ⊢
  obtain ⟨complaints, result⟩ := reply
  cases h
  rfl

theorem recover_failed {p : Parser α} {later : List Token} (h : (p tokens).result = .failed rest)
    (hsync : synchronize rest = some later) :
    recover p tokens = ⟨(p tokens).complaints, .ok none later⟩ := by
  unfold recover
  generalize p tokens = reply at h ⊢
  obtain ⟨complaints, result⟩ := reply
  cases h
  simp only [hsync]

/-- The declaration from index `i` on fails at index `e` and is given up. The token there is the one
that was complained of last. Reading resumes at `j`, the least boundary after `e` unless the end of
source is at `e` already. -/
structure GivesUp (depth : Nat) (tokens : List Token) (i e : Nat) (offending : Token) (j : Nat) :
    Prop where
  failed : (declarationBody (depth - 1) (tokens.drop i)).result = .failed (tokens.drop e)
  result : (declaration depth (tokens.drop i)).result = .ok none (tokens.drop j)
  offends : tokens[e]? = some offending
  blames : ∃ problem,
    (declaration depth (tokens.drop i)).complaints.getLast? = some ⟨offending, problem⟩
  resumes : offending.kind ≠ .eof → IsLeast {j | e < j ∧ Boundary tokens j} j
  atEnd : offending.kind = .eof → j = e

section Declarations

variable {i : Nat} (h : Ended tokens) (hi : i < endIndex tokens)

include h

theorem boundary_endIndex : Boundary tokens (endIndex tokens) := by
  obtain ⟨t, ht, heof⟩ := kind_endIndex h
  exact ⟨t, ht, .inl heof⟩

theorem ended_drop (hle : i ≤ endIndex tokens) : Ended (tokens.drop i) := by
  obtain ⟨t, ht, heof⟩ := ended_upToEnd h hle
  exact ⟨t, upToEnd_append h hle ▸ List.mem_append_left _ ht, heof⟩

include hi

/-- A declaration that failed resumes further on, and not past the end of source. -/
theorem givesUp_of_failed {depth e : Nat} (hie : i ≤ e) (he : e ≤ endIndex tokens)
    (hfailed : (declarationBody depth (tokens.drop i)).result = .failed (tokens.drop e)) :
    ∃ offending j, i < j ∧ j ≤ endIndex tokens ∧ GivesUp (depth + 1) tokens i e offending j := by
  obtain ⟨offending, later, problem, hrest, hlast⟩ :=
    (statementsOrderly depth).declarationBodyStep.blames _ _ hfailed
  have hoffends : tokens[e]? = some offending := by
    rw [← Nat.add_zero e, ← List.getElem?_drop, hrest]
    rfl
  obtain ⟨resumed, hsync, -⟩ := synchronize_leaves (ended_drop h he)
  have hrecover := recover_failed hfailed hsync
  have hblames := (congrArg (·.complaints.getLast?) hrecover).trans hlast
  by_cases heof : offending.kind = .eof
  · have hend := eq_endIndex he hoffends heof
    have hsame : resumed = tokens.drop e := by
      rw [hrest, synchronize, if_pos heof] at hsync
      cases hsync
      exact hrest.symm
    exact ⟨offending, e, by omega, he, hfailed,
      (congrArg Reply.result hrecover).trans (congrArg (Result.ok none) hsame), hoffends,
      ⟨problem, hblames⟩, absurd heof, fun _ => rfl⟩
  · obtain ⟨j, rfl, hleast⟩ := synchronize_least hoffends heof hsync
    have hej : e < j := hleast.1.1
    have hne : e ≠ endIndex tokens := by
      rintro rfl
      obtain ⟨t, ht, hkind⟩ := kind_endIndex h
      rw [hoffends] at ht
      cases ht
      exact heof hkind
    exact ⟨offending, j, by omega, hleast.2 ⟨by omega, boundary_endIndex h⟩, hfailed,
      congrArg Reply.result hrecover, hoffends, ⟨problem, hblames⟩, fun _ => hleast,
      fun hkind => absurd hkind heof⟩

theorem declaration_outcome (depth : Nat) :
    (declaration depth (tokens.drop i)).result = .tooDeep ∧ depth < 10 * tokens.length + 12 ∨
    (∃ n j, i < j ∧ j ≤ endIndex tokens ∧
      (declaration depth (tokens.drop i)).result = .ok (some n) (tokens.drop j)) ∨
    ∃ e offending j, i ≤ e ∧ i < j ∧ j ≤ endIndex tokens ∧
      GivesUp depth tokens i e offending j := by
  cases depth with
  | zero => exact .inl ⟨rfl, by omega⟩
  | succ depth =>
    have hstart : ∀ t, (tokens.drop i).head? = some t → t.kind ≠ .eof := by
      intro t ht heof
      rw [List.head?_drop] at ht
      exact hi.ne (eq_endIndex hi.le ht heof)
    have htakes := (statementsGo (depth + 1)).declaration (ended_drop h hi.le) hstart
    rcases (statementsOrderly depth).declarationBodyStep.stops h hi.le with
      hdeep | ⟨n, j, hij, hj, hok⟩ | ⟨e, hie, he, hfailed⟩
    · have hresult := congrArg Reply.result (recover_tooDeep hdeep)
      have hbound := htakes.of_tooDeep hresult
      rw [List.length_drop] at hbound
      exact .inl ⟨hresult, by omega⟩
    · have hresult := congrArg Reply.result (recover_ok hok)
      have hshorter := (htakes.of_ok hresult).2
      simp only [List.length_drop] at hshorter
      exact .inr (.inl ⟨n, j, by omega, hj, hresult⟩)
    · obtain ⟨offending, j, hij, hj, hgivesUp⟩ := givesUp_of_failed h hi hie he hfailed
      exact .inr (.inr ⟨e, offending, j, hie, hij, hj, hgivesUp⟩)

end Declarations

/-- A program is read to the first end of source, if it is not nested too deep. -/
theorem program_result (depth : Nat) (h : Ended tokens) :
    (∃ statements, (program depth tokens).result = .ok statements (tokens.drop (endIndex tokens))) ∨
      (program depth tokens).result = .tooDeep ∧ depth < 10 * tokens.length + 12 := by
  have hconcludes := program_concludes depth tokens
  unfold Concludes at hconcludes
  rcases (orderly_program depth).stops h (Nat.zero_le _) with
    hdeep | ⟨statements, j, -, hj, hok⟩ | ⟨e, -, -, hfailed⟩
  · exact .inr ⟨hdeep, (program_goes depth h).of_tooDeep hdeep⟩
  · rw [List.drop_zero] at hok
    rw [hok] at hconcludes
    obtain ⟨t, ht, heof⟩ := hconcludes
    rw [List.head?_drop] at ht
    exact .inl ⟨statements, by rw [hok, eq_endIndex hj ht heof]⟩
  · rw [List.drop_zero] at hfailed
    rw [hfailed] at hconcludes
    exact hconcludes.elim

/-- Tokens with an end of source among them are read to the first of them and no further, unless
they are nested too deep. Each declaration on the way takes a token. One that is given up has
complained, and is resumed at the earliest boundary. -/
theorem program_recovers (depth : Nat) {tokens : List Token} (h : Ended tokens) :
    ((∃ statements,
        (program depth tokens).result = .ok statements (tokens.drop (endIndex tokens))) ∨
      (program depth tokens).result = .tooDeep ∧ depth < 10 * tokens.length + 12) ∧
    (∀ more, program depth (tokens.take (endIndex tokens + 1) ++ more) =
      (program depth (tokens.take (endIndex tokens + 1))).before more) ∧
    ∀ i < endIndex tokens,
      (declaration depth (tokens.drop i)).result = .tooDeep ∧ depth < 10 * tokens.length + 12 ∨
      (∃ n j, i < j ∧ j ≤ endIndex tokens ∧
        (declaration depth (tokens.drop i)).result = .ok (some n) (tokens.drop j)) ∨
      ∃ e offending j, i ≤ e ∧ i < j ∧ j ≤ endIndex tokens ∧
        GivesUp depth tokens i e offending j :=
  ⟨program_result depth h, (orderly_program depth).ahead (ended_upToEnd h (Nat.zero_le _)),
    fun _ hi => declaration_outcome h hi depth⟩

/-- A variable without a name, a statement, a brace too many, and a token after the end. -/
def malformed : List Token :=
  [⟨.varWord, "var", .nil, 1⟩, ⟨.equal, "=", .nil, 1⟩, ⟨.printWord, "print", .nil, 1⟩,
   ⟨.nilWord, "nil", .nil, 1⟩, ⟨.semicolon, ";", .nil, 1⟩, ⟨.rightBrace, "\x7d", .nil, 1⟩,
   ⟨.eof, "", .nil, 1⟩, ⟨.dot, ".", .nil, 1⟩]

theorem program_recovers_malformed :
    Ended malformed ∧
      (∃ statements, (program 100 malformed).result = .ok statements (malformed.drop 6)) ∧
      ∃ e offending j, GivesUp 100 malformed 0 e offending j := by
  have hended : Ended malformed := ⟨⟨.eof, "", .nil, 1⟩, by decide, rfl⟩
  have hend : endIndex malformed = 6 := by decide
  obtain ⟨hresult, -, hdeclarations⟩ := program_recovers 100 hended
  refine ⟨hended, ?_, ?_⟩
  · rcases hresult with hok | ⟨-, hdeep⟩
    · rwa [hend] at hok
    · exact absurd hdeep (by decide)
  · have hnone : (declaration 100 (malformed.drop 0)).result = .ok none (malformed.drop 2) := rfl
    rcases hdeclarations 0 (by rw [hend]; decide) with
      ⟨-, hdeep⟩ | ⟨n, j, -, -, hsome⟩ | ⟨e, offending, j, -, -, -, hgivesUp⟩
    · exact absurd hdeep (by decide)
    · rw [hnone] at hsome
      cases hsome
    · exact ⟨e, offending, j, hgivesUp⟩

end Parser

end Lox
