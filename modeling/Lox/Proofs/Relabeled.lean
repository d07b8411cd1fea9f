import Mathlib.Tactic
import Lox.Proofs.Mapped
import Lox.Proofs.Accepted

/-!
# Parsing goes by kinds

The parser looks at the kinds of tokens and at nothing else. If each token is replaced by one of its
kind, then the parser replies as before, with the tokens replaced in its tree, in its complaints and
in what is left (`program_relabel`).
-/

namespace Lox

theorem Tier.map_node (f : Token → Token) (t : Tier) (left : Node) (operator : Token)
    (right : Node) :
    (t.node left operator right).map f id =
      t.node (left.map f id) (f operator) (right.map f id) := by
  cases t <;> rfl

theorem Node.map_forLoop (f : Token → Token) (initializer condition increment : Option Node)
    (body : Node) :
    (Node.forLoop initializer condition increment body).map f id =
      .forLoop (Node.mapOption f id initializer) (Node.mapOption f id condition)
        (Node.mapOption f id increment) (body.map f id) := by
  cases initializer <;> cases condition <;> cases increment <;> rfl

namespace Parser

variable {α β σ τ : Type} (f : Token → Token)

/-- The reply with its tokens replaced. -/
def Reply.relabel (g : α → β) (reply : Reply α) : Reply β where
  complaints := reply.complaints.map fun c => ⟨f c.token, c.problem⟩
  result := match reply.result with
    | .ok a rest => .ok (g a) (rest.map f)
    | .failed rest => .failed (rest.map f)
    | .noToken => .noToken
    | .tooDeep => .tooDeep

/-- Of the replaced tokens the second parser makes what the first makes of the tokens. -/
def Carries (g : α → β) (p : Parser α) (q : Parser β) : Prop :=
  ∀ tokens, q (tokens.map f) = (p tokens).relabel f g

variable {f} {g : α → β}

/-! ## Rules -/

theorem carries_pure (a : α) : Carries f g (Pure.pure a) (Pure.pure (g a)) := fun _ => rfl

theorem Carries.bind {p : Parser α} {q : Parser β} {h : σ → τ} {k : α → Parser σ}
    {l : β → Parser τ} (hp : Carries f g p q) (hk : ∀ a, Carries f h (k a) (l (g a))) :
    Carries f h (p >>= k) (q >>= l) := by
  intro tokens
  show Parser.bind q l _ = (Parser.bind p k tokens).relabel f h
  unfold Parser.bind
  rw [hp tokens]
  rcases p tokens with ⟨complaints, ⟨a, rest⟩ | rest | _ | _⟩
  · simp only [Reply.relabel, hk a rest, Reply.after, List.map_append]
  all_goals rfl

theorem Carries.map {p : Parser α} {q : Parser β} {h : σ → τ} {k : α → σ} {l : β → τ}
    (hp : Carries f g p q) (hk : ∀ a, l (g a) = h (k a)) : Carries f h (k <$> p) (l <$> q) := by
  refine hp.bind fun a => ?_
  simp only [Function.comp, hk a]
  exact carries_pure _

theorem carries_tooDeep : Carries f g tooDeep tooDeep := fun _ => rfl

theorem carries_complain (t : Token) (problem : Problem) :
    Carries f id (complain t problem) (complain (f t) problem) := fun _ => rfl

theorem carries_fail (problem : Problem) : Carries f g (fail problem) (fail problem) := by
  rintro (_ | ⟨t, rest⟩) <;> rfl

theorem carries_peek : Carries f f peek peek := by
  rintro (_ | ⟨t, rest⟩) <;> rfl

section Loops

variable {h : σ → τ}

theorem carries_loopWithin {step : σ → Parser (σ ⊕ α)} {step' : τ → Parser (τ ⊕ β)}
    (hstep : ∀ s, Carries f (Sum.map h g) (step s) (step' (h s))) (turns : Nat) :
    ∀ s, Carries f g (loopWithin step turns s) (loopWithin step' turns (h s)) := by
  induction turns with
  | zero => exact fun s tokens => rfl
  | succ turns ih =>
    refine fun s => (hstep s).bind fun next => ?_
    cases next with
    | inl s => exact ih s
    | inr a => exact carries_pure a

theorem carries_loop {step : σ → Parser (σ ⊕ α)} {step' : τ → Parser (τ ⊕ β)}
    (hstep : ∀ s, Carries f (Sum.map h g) (step s) (step' (h s))) (s : σ) :
    Carries f g (loop step s) (loop step' (h s)) := by
  intro tokens
  rw [loop, List.length_map]
  exact carries_loopWithin hstep _ s tokens

end Loops

theorem carries_assignTo (target : Node) (equals : Token) (value : Node) :
    Carries f (Node.map f id) (assignTo target equals value)
      (assignTo (target.map f id) (f equals) (value.map f id)) := by
  unfold assignTo
  cases target with
  | ident name => exact carries_pure (Node.assign name value)
  | property object name => exact carries_pure (Node.setProperty object name value)
  | _ => exact (carries_complain equals _).bind fun _ => carries_pure _

/-- A replacement that keeps what the parser goes by. -/
structure Relabels (f : Token → Token) : Prop where
  kind : ∀ t, (f t).kind = t.kind
  literal : ∀ t, (f t).literal = t.literal

section Kinds

variable (hf : Relabels f)

include hf

theorem carries_check (kind : TokenKind) : Carries f id (check kind) (check kind) := by
  refine carries_peek.bind fun t => ?_
  rw [hf.kind]
  exact carries_pure _

theorem carries_accept (kinds : List TokenKind) :
    Carries f (Option.map f) (accept? kinds) (accept? kinds) := by
  rintro (_ | ⟨t, rest⟩)
  · rfl
  · simp only [List.map_cons, accept?, hf.kind]
    split <;> rfl

theorem carries_expect (kind : TokenKind) (problem : Problem) :
    Carries f f (expect kind problem) (expect kind problem) := by
  refine (carries_accept hf [kind]).bind fun found => ?_
  cases found with
  | none => exact carries_fail problem
  | some t => exact carries_pure t

theorem skip_relabel (tokens : List Token) :
    ∀ previous, skip (f previous) (tokens.map f) = (skip previous tokens).map (List.map f) := by
  induction tokens with
  | nil => exact fun _ => rfl
  | cons t rest ih =>
    intro previous
    simp only [List.map_cons, skip, hf.kind, ih]
    split <;> rfl

theorem synchronize_relabel (tokens : List Token) :
    synchronize (tokens.map f) = (synchronize tokens).map (List.map f) := by
  cases tokens with
  | nil => rfl
  | cons t rest =>
    simp only [List.map_cons, synchronize, hf.kind, skip_relabel hf]
    split <;> rfl

theorem Carries.recover {p : Parser α} {q : Parser β} (hp : Carries f g p q) :
    Carries f (Option.map g) (recover p) (recover q) := by
  intro tokens
  unfold Parser.recover
  rw [hp tokens]
  rcases p tokens with ⟨complaints, ⟨a, rest⟩ | rest | _ | _⟩
  · rfl
  · simp only [Reply.relabel, synchronize_relabel hf]
    cases synchronize rest <;> rfl
  all_goals rfl

/-! ## Expressions -/

/-- Every rule of expressions goes by kinds, at the depth. -/
structure ExpressionsCarry (f : Token → Token) (depth : Nat) : Prop where
  expression : Carries f (Node.map f id) (expression depth) (expression depth)
  binary : ∀ t, Carries f (Node.map f id) (binary depth t) (binary depth t)
  unary : Carries f (Node.map f id) (unary depth) (unary depth)
  access : Carries f (Node.map f id) (access depth) (access depth)
  arguments : Carries f (Node.mapAll f id) (arguments depth) (arguments depth)
  primary : Carries f (Node.map f id) (primary depth) (primary depth)

section Expressions

variable {depth : Nat} (ih : ExpressionsCarry f depth)

include ih

theorem ExpressionsCarry.expressionStep :
    Carries f (Node.map f id) (Parser.expression (depth + 1)) (Parser.expression (depth + 1)) := by
  refine (ih.binary .or).bind fun target => (carries_accept hf _).bind fun found => ?_
  cases found with
  | none => exact carries_pure target
  | some equals => exact ih.expression.bind fun value => carries_assignTo target equals value

omit hf in
theorem ExpressionsCarry.operandStep (t : Tier) :
    Carries f (Node.map f id) (operand depth t) (operand depth t) := by
  cases t with
  | factor => exact ih.unary
  | _ => exact ih.binary _

theorem ExpressionsCarry.binaryStep (t : Tier) :
    Carries f (Node.map f id) (Parser.binary (depth + 1) t) (Parser.binary (depth + 1) t) := by
  rw [binary_succ]
  refine (ih.operandStep t).bind fun first => carries_loop (fun left => ?_) first
  refine (carries_accept hf _).bind fun found => ?_
  cases found with
  | none => exact carries_pure (Sum.inr left : Node ⊕ Node)
  | some operator =>
    refine (ih.operandStep t).bind fun right => ?_
    have hpure := carries_pure (f := f) (g := Sum.map (Node.map f id) (Node.map f id))
      (.inl (t.node left operator right))
    rwa [Sum.map_inl, Tier.map_node] at hpure

theorem ExpressionsCarry.unaryStep :
    Carries f (Node.map f id) (Parser.unary (depth + 1)) (Parser.unary (depth + 1)) := by
  refine (carries_accept hf _).bind fun found => ?_
  cases found with
  | none => exact ih.access
  | some operator => exact ih.unary.bind fun right => carries_pure (Node.unary operator right)

theorem ExpressionsCarry.accessStep :
    Carries f (Node.map f id) (Parser.access (depth + 1)) (Parser.access (depth + 1)) := by
  rw [access_succ]
  refine ih.primary.bind fun first => carries_loop (fun object => ?_) first
  refine (carries_accept hf _).bind fun found => ?_
  cases found with
  | none => exact carries_pure (Sum.inr object : Node ⊕ Node)
  | some opening =>
    simp only [Option.map_some, hf.kind]
    split
    · refine ih.arguments.bind fun values => (carries_expect hf _ _).bind fun paren => ?_
      exact carries_pure (Sum.inl (.call object paren values) : Node ⊕ Node)
    · exact (carries_expect hf _ _).bind fun name =>
        carries_pure (Sum.inl (.property object name) : Node ⊕ Node)

theorem ExpressionsCarry.argumentsStep :
    Carries f (Node.mapAll f id) (Parser.arguments (depth + 1)) (Parser.arguments (depth + 1)) := by
  rw [arguments_succ]
  refine (carries_check hf _).bind fun closed => ?_
  simp only [id]
  split
  · exact carries_pure []
  · refine ih.expression.bind fun first =>
      carries_loop (h := Node.mapAll f id) (fun values => ?_) [first]
    refine (carries_accept hf _).bind fun found => ?_
    cases found with
    | none => exact carries_pure (Sum.inr values : List Node ⊕ List Node)
    | some comma =>
      have hlast : Carries f (Sum.map (Node.mapAll f id) (Node.mapAll f id))
          (Parser.expression depth >>= fun value => Pure.pure (.inl (values ++ [value])))
          (Parser.expression depth >>= fun value =>
            Pure.pure (.inl (Node.mapAll f id values ++ [value]))) := by
        refine ih.expression.bind fun value => ?_
        have hpure := carries_pure (f := f) (g := Sum.map (Node.mapAll f id) (Node.mapAll f id))
          (.inl (values ++ [value]))
        rwa [Sum.map_inl, Node.mapAll_append] at hpure
      simp only [Option.map_some, Node.length_mapAll]
      split
      · exact carries_peek.bind fun t => (carries_complain t _).bind fun _ => hlast
      · exact hlast

theorem ExpressionsCarry.primaryStep :
    Carries f (Node.map f id) (Parser.primary (depth + 1)) (Parser.primary (depth + 1)) := by
  refine (carries_accept hf _).bind fun found => ?_
  cases found with
  | none => exact carries_fail _
  | some token =>
    simp only [Option.map_some, hf.kind, hf.literal]
    split
    · exact carries_pure (Node.literal (.bool false))
    · exact carries_pure (Node.literal (.bool true))
    · exact carries_pure (Node.literal .nil)
    · refine (carries_expect hf _ _).bind fun _ => (carries_expect hf _ _).bind fun method => ?_
      exact carries_pure (Node.superMethod ⟨token, none⟩ method)
    · exact carries_pure (Node.receiver ⟨token, none⟩)
    · exact carries_pure (Node.ident ⟨token, none⟩)
    · refine ih.expression.bind fun inner => (carries_expect hf _ _).bind fun _ => ?_
      exact carries_pure (Node.group inner)
    · exact carries_pure (Node.literal token.literal)

end Expressions

theorem expressionsCarry : ∀ depth, ExpressionsCarry f depth
  | 0 => ⟨carries_tooDeep, fun _ => carries_tooDeep, carries_tooDeep, carries_tooDeep,
      carries_tooDeep, carries_tooDeep⟩
  | depth + 1 =>
    have ih := expressionsCarry depth
    ⟨ih.expressionStep hf, ih.binaryStep hf, ih.unaryStep hf, ih.accessStep hf,
      ih.argumentsStep hf, ih.primaryStep hf⟩

/-! ## Statements -/

theorem carries_expression (depth : Nat) :
    Carries f (Node.map f id) (expression depth) (expression depth) :=
  (expressionsCarry hf depth).expression

theorem carries_expressionUnless (kind : TokenKind) (depth : Nat) :
    Carries f (Node.mapOption f id) (expressionUnless kind depth)
      (expressionUnless kind depth) := by
  refine (carries_check hf kind).bind fun closed => ?_
  simp only [id]
  split
  · exact carries_pure none
  · exact (carries_expression hf depth).bind fun value => carries_pure (some value)

theorem carries_expressionStatement (depth : Nat) :
    Carries f (Node.map f id) (expressionStatement depth) (expressionStatement depth) :=
  (carries_expression hf depth).bind fun value => (carries_expect hf _ _).bind fun _ =>
    carries_pure (Node.expression value)

theorem carries_printStatement (depth : Nat) :
    Carries f (Node.map f id) (printStatement depth) (printStatement depth) :=
  (carries_expression hf depth).bind fun value => (carries_expect hf _ _).bind fun _ =>
    carries_pure (Node.print value)

theorem carries_returnStatement (keyword : Token) (depth : Nat) :
    Carries f (Node.map f id) (returnStatement keyword depth) (returnStatement (f keyword) depth) :=
  (carries_expressionUnless hf _ depth).bind fun value => (carries_expect hf _ _).bind fun _ =>
    carries_pure (Node.returning keyword value)

theorem carries_varDeclaration (depth : Nat) :
    Carries f (Node.map f id) (varDeclaration depth) (varDeclaration depth) := by
  refine (carries_expect hf _ _).bind fun name => (carries_accept hf _).bind fun found => ?_
  have hlast : ∀ initializer, Carries f (Node.map f id)
      (expect .semicolon .expectVariableEnd >>= fun _ => Pure.pure (.varDecl name initializer))
      (expect .semicolon .expectVariableEnd >>= fun _ =>
        Pure.pure (.varDecl (f name) (Node.mapOption f id initializer))) := fun initializer =>
    (carries_expect hf _ _).bind fun _ => carries_pure (Node.varDecl name initializer)
  cases found with
  | none => exact (carries_pure none).bind hlast
  | some equals =>
    have hvalue : Carries f (Node.mapOption f id) (some <$> expression depth)
        (some <$> expression depth) := (carries_expression hf depth).map fun _ => rfl
    exact hvalue.bind hlast

theorem carries_forInitializer (depth : Nat) :
    Carries f (Node.mapOption f id) (forInitializer depth) (forInitializer depth) := by
  refine (carries_accept hf _).bind fun found => ?_
  cases found with
  | none => exact (carries_expressionStatement hf depth).map fun _ => rfl
  | some token =>
    simp only [Option.map_some, hf.kind]
    split
    · exact carries_pure none
    · exact (carries_varDeclaration hf depth).map fun _ => rfl

theorem carries_parameters : Carries f (List.map f) parameters parameters := by
  rw [parameters_eq]
  refine (carries_check hf _).bind fun closed => ?_
  simp only [id]
  split
  · exact carries_pure []
  · refine (carries_expect hf _ _).bind fun first =>
      carries_loop (h := List.map f) (fun names => ?_) [first]
    refine (carries_accept hf _).bind fun found => ?_
    cases found with
    | none => exact carries_pure (Sum.inr names : List Token ⊕ List Token)
    | some comma =>
      have hlast : Carries f (Sum.map (List.map f) (List.map f))
          (expect .identifier .expectParameterName >>= fun name =>
            Pure.pure (.inl (names ++ [name])))
          (expect .identifier .expectParameterName >>= fun name =>
            Pure.pure (.inl (names.map f ++ [name]))) := by
        refine (carries_expect hf _ _).bind fun name => ?_
        have hpure := carries_pure (f := f) (g := Sum.map (List.map f) (List.map f))
          (.inl (names ++ [name]))
        rwa [Sum.map_inl, List.map_append] at hpure
      simp only [Option.map_some, List.length_map]
      split
      · exact carries_peek.bind fun t => (carries_complain t _).bind fun _ => hlast
      · exact hlast

theorem carries_superclass : Carries f (Node.mapOption f id) superclass superclass := by
  refine (carries_accept hf _).bind fun found => ?_
  cases found with
  | none => exact carries_pure none
  | some less =>
    exact (carries_expect hf _ _).bind fun name => carries_pure (some (Node.ident ⟨name, none⟩))

/-- Every rule of statements goes by kinds, at the depth. -/
structure StatementsCarry (f : Token → Token) (depth : Nat) : Prop where
  declaration : Carries f (Node.mapOption f id) (declaration depth) (declaration depth)
  classDeclaration : Carries f (Node.map f id) (classDeclaration depth) (classDeclaration depth)
  function : ∀ kind, Carries f (Node.map f id) (function kind depth) (function kind depth)
  block : Carries f (Node.mapAll f id) (block depth) (block depth)
  statement : Carries f (Node.map f id) (statement depth) (statement depth)
  forStatement : Carries f (Node.map f id) (forStatement depth) (forStatement depth)
  ifStatement : Carries f (Node.map f id) (ifStatement depth) (ifStatement depth)
  whileStatement : Carries f (Node.map f id) (whileStatement depth) (whileStatement depth)

section Statements

variable {depth : Nat} (ih : StatementsCarry f depth)

include ih

theorem StatementsCarry.declarationStep :
    Carries f (Node.mapOption f id) (Parser.declaration (depth + 1))
      (Parser.declaration (depth + 1)) := by
  have hmap : Node.mapOption f id = Option.map (Node.map f id) := by
    funext n
    cases n <;> rfl
  rw [hmap]
  refine Carries.recover hf ((carries_accept hf _).bind fun found => ?_)
  cases found with
  | none => exact ih.statement
  | some token =>
    simp only [Option.map_some, hf.kind]
    split
    · exact ih.classDeclaration
    · exact ih.function .function
    · exact carries_varDeclaration hf depth

theorem StatementsCarry.classDeclarationStep :
    Carries f (Node.map f id) (Parser.classDeclaration (depth + 1))
      (Parser.classDeclaration (depth + 1)) := by
  refine (carries_expect hf _ _).bind fun name => (carries_superclass hf).bind fun parent =>
    (carries_expect hf _ _).bind fun _ => Carries.bind (g := Node.mapAll f id)
      (carries_loop (h := Node.mapAll f id) (fun methods => ?_) []) fun methods =>
        (carries_expect hf _ _).bind fun _ => carries_pure (Node.classDecl name parent methods)
  refine carries_peek.bind fun token => ?_
  simp only [hf.kind]
  split
  · exact carries_pure (Sum.inr methods : List Node ⊕ List Node)
  · refine (ih.function .method).bind fun n => ?_
    have hpure := carries_pure (f := f) (g := Sum.map (Node.mapAll f id) (Node.mapAll f id))
      (.inl (methods ++ [n]))
    rwa [Sum.map_inl, Node.mapAll_append] at hpure

theorem StatementsCarry.functionStep (kind : FunctionKind) :
    Carries f (Node.map f id) (Parser.function kind (depth + 1))
      (Parser.function kind (depth + 1)) :=
  (carries_expect hf _ _).bind fun name => (carries_expect hf _ _).bind fun _ =>
    (carries_parameters hf).bind fun params => (carries_expect hf _ _).bind fun _ =>
      (carries_expect hf _ _).bind fun _ => ih.block.bind fun body =>
        carries_pure (Node.function name params body)

omit hf in
/-- One more declaration, unless it was given up. -/
theorem StatementsCarry.declarations (ns : List Node) :
    Carries f (Sum.map (Node.mapAll f id) (Node.mapAll f id))
      (Parser.declaration depth >>= fun n =>
        Pure.pure (Sum.inl (ns ++ n.toList) : List Node ⊕ List Node))
      (Parser.declaration depth >>= fun n =>
        Pure.pure (Sum.inl (Node.mapAll f id ns ++ n.toList) : List Node ⊕ List Node)) := by
  refine ih.declaration.bind fun n => ?_
  have hpure := carries_pure (f := f) (g := Sum.map (Node.mapAll f id) (Node.mapAll f id))
    (.inl (ns ++ n.toList))
  rw [Sum.map_inl, Node.mapAll_append] at hpure
  cases n <;> exact hpure

theorem StatementsCarry.blockStep :
    Carries f (Node.mapAll f id) (Parser.block (depth + 1)) (Parser.block (depth + 1)) := by
  refine Carries.bind (g := Node.mapAll f id)
    (carries_loop (h := Node.mapAll f id) (fun statements => ?_) []) fun statements =>
      (carries_expect hf _ _).bind fun _ => carries_pure statements
  refine carries_peek.bind fun token => ?_
  simp only [hf.kind]
  split
  · exact carries_pure (Sum.inr statements : List Node ⊕ List Node)
  · exact ih.declarations statements

theorem StatementsCarry.statementStep :
    Carries f (Node.map f id) (Parser.statement (depth + 1)) (Parser.statement (depth + 1)) := by
  refine (carries_accept hf _).bind fun found => ?_
  cases found with
  | none => exact carries_expressionStatement hf depth
  | some token =>
    simp only [Option.map_some, hf.kind]
    split
    · exact ih.forStatement
    · exact ih.ifStatement
    · exact carries_printStatement hf depth
    · exact carries_returnStatement hf token depth
    · exact ih.whileStatement
    · exact ih.block.map fun _ => rfl

theorem StatementsCarry.forStatementStep :
    Carries f (Node.map f id) (Parser.forStatement (depth + 1))
      (Parser.forStatement (depth + 1)) := by
  refine (carries_expect hf _ _).bind fun _ => (carries_forInitializer hf depth).bind fun first =>
    (carries_expressionUnless hf _ depth).bind fun condition =>
      (carries_expect hf _ _).bind fun _ =>
      (carries_expressionUnless hf _ depth).bind fun increment =>
        (carries_expect hf _ _).bind fun _ => ih.statement.bind fun body => ?_
  rw [← Node.map_forLoop]
  exact carries_pure _

theorem StatementsCarry.ifStatementStep :
    Carries f (Node.map f id) (Parser.ifStatement (depth + 1))
      (Parser.ifStatement (depth + 1)) := by
  refine (carries_expect hf _ _).bind fun _ => (carries_expression hf depth).bind fun condition =>
    (carries_expect hf _ _).bind fun _ => ih.statement.bind fun thenBranch =>
      (carries_accept hf _).bind fun found => ?_
  cases found with
  | none => exact carries_pure (Node.conditional condition thenBranch none)
  | some _ => exact ih.statement.bind fun elseBranch =>
      carries_pure (Node.conditional condition thenBranch (some elseBranch))

theorem StatementsCarry.whileStatementStep :
    Carries f (Node.map f id) (Parser.whileStatement (depth + 1))
      (Parser.whileStatement (depth + 1)) :=
  (carries_expect hf _ _).bind fun _ => (carries_expression hf depth).bind fun condition =>
    (carries_expect hf _ _).bind fun _ => ih.statement.bind fun body =>
      carries_pure (Node.loop condition body)

end Statements

theorem statementsCarry : ∀ depth, StatementsCarry f depth
  | 0 => ⟨carries_tooDeep, carries_tooDeep, fun _ => carries_tooDeep, carries_tooDeep,
      carries_tooDeep, carries_tooDeep, carries_tooDeep, carries_tooDeep⟩
  | depth + 1 =>
    have ih := statementsCarry depth
    ⟨ih.declarationStep hf, ih.classDeclarationStep hf, ih.functionStep hf, ih.blockStep hf,
      ih.statementStep hf, ih.forStatementStep hf, ih.ifStatementStep hf, ih.whileStatementStep hf⟩

/-- A program of replaced tokens is the program with its tokens replaced. -/
theorem program_relabel (depth : Nat) (tokens : List Token) :
    program depth (tokens.map f) = (program depth tokens).relabel f (Node.mapAll f id) := by
  have ih := statementsCarry hf depth
  refine carries_loop (h := Node.mapAll f id) (fun statements => ?_) [] tokens
  refine (carries_check hf _).bind fun ended => ?_
  simp only [id]
  split
  · exact carries_pure (Sum.inr statements : List Node ⊕ List Node)
  · exact ih.declarations statements

end Kinds

end Parser

end Lox
