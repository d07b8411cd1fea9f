import Mathlib.Tactic
import Lox.Parser.Statement

/-!
# The trees that parsing makes

Parsing puts expressions, statements and declarations only where the grammar has them, whatever it
complains of on the way: a declaration is never a branch or the body of a loop, a superclass is a
name, every operator is one its tier knows, and every name is an identifier (`fits_program`). The
tokens in a tree are all among the tokens read, and no reference in it has a distance yet.
-/

namespace Lox

/-- What a node is in its place. -/
inductive Role where
  | expression
  | statement
  | declaration
  | method
deriving DecidableEq

/-- A declaration may also be a plain statement. -/
def Role.IsStatement (role : Role) : Prop := role = .statement ∨ role = .declaration

namespace Operator

/-- The operators that compute from two values. -/
def binaryKinds : List TokenKind :=
  [.bangEqual, .equalEqual, .greater, .greaterEqual, .less, .lessEqual, .minus, .plus, .slash,
   .star]

def logicalKinds : List TokenKind := [.orWord, .andWord]

def unaryKinds : List TokenKind := [.bang, .minus]

end Operator

section Fits

variable (ok : Token → Prop)

/-- A token of the kind, among the tokens of interest. -/
def Token.Is (kind : TokenKind) (t : Token) : Prop := ok t ∧ t.kind = kind

/-- A reference as parsing makes it. -/
def Reference.IsFresh (kind : TokenKind) (r : Reference) : Prop := r.name.Is ok kind ∧ r.hops = none

/-- A superclass is a name. -/
def FitsSuperclass : Option Node → Prop
  | none => True
  | some (.ident name) => name.IsFresh ok .identifier
  | some _ => False

mutual

/-- The node and all in it stand where the grammar has them. -/
def Node.Fits : Role → Node → Prop
  | role, .assign target value =>
    role = .expression ∧ target.IsFresh ok .identifier ∧ value.Fits .expression
  | role, .binary left operator right =>
    role = .expression ∧ (ok operator ∧ operator.kind ∈ Operator.binaryKinds) ∧
      left.Fits .expression ∧ right.Fits .expression
  | role, .call callee paren arguments =>
    role = .expression ∧ paren.Is ok .rightParen ∧ callee.Fits .expression ∧
      Node.FitAll .expression arguments
  | role, .property object name =>
    role = .expression ∧ name.Is ok .identifier ∧ object.Fits .expression
  | role, .group inner => role = .expression ∧ inner.Fits .expression
  | role, .literal _ => role = .expression
  | role, .logical left operator right =>
    role = .expression ∧ (ok operator ∧ operator.kind ∈ Operator.logicalKinds) ∧
      left.Fits .expression ∧ right.Fits .expression
  | role, .setProperty object name value =>
    role = .expression ∧ name.Is ok .identifier ∧ object.Fits .expression ∧
      value.Fits .expression
  | role, .superMethod keyword method =>
    role = .expression ∧ keyword.IsFresh ok .superWord ∧ method.Is ok .identifier
  | role, .receiver keyword => role = .expression ∧ keyword.IsFresh ok .thisWord
  | role, .unary operator right =>
    role = .expression ∧ (ok operator ∧ operator.kind ∈ Operator.unaryKinds) ∧
      right.Fits .expression
  | role, .ident name => role = .expression ∧ name.IsFresh ok .identifier
  | role, .block statements => role.IsStatement ∧ Node.FitAll .declaration statements
  | role, .classDecl name superclass methods =>
    role = .declaration ∧ name.Is ok .identifier ∧ FitsSuperclass ok superclass ∧
      Node.FitAll .method methods
  | role, .expression value => role.IsStatement ∧ value.Fits .expression
  | role, .function name params body =>
    (role = .declaration ∨ role = .method) ∧ name.Is ok .identifier ∧
      (∀ param ∈ params, param.Is ok .identifier) ∧ Node.FitAll .declaration body
  | role, .conditional condition thenBranch elseBranch =>
    role.IsStatement ∧ condition.Fits .expression ∧ thenBranch.Fits .statement ∧
      Node.FitsOption .statement elseBranch
  | role, .print value => role.IsStatement ∧ value.Fits .expression
  | role, .returning keyword value =>
    role.IsStatement ∧ keyword.Is ok .returnWord ∧ Node.FitsOption .expression value
  | role, .varDecl name initializer =>
    role = .declaration ∧ name.Is ok .identifier ∧ Node.FitsOption .expression initializer
  | role, .loop condition body =>
    role.IsStatement ∧ condition.Fits .expression ∧ body.Fits .statement
  | _, .misfit _ => False

def Node.FitAll : Role → List Node → Prop
  | _, [] => True
  | role, n :: rest => n.Fits role ∧ Node.FitAll role rest

def Node.FitsOption : Role → Option Node → Prop
  | _, none => True
  | role, some n => n.Fits role

end

end Fits

theorem fitAll_append {ok : Token → Prop} {role : Role} :
    ∀ {xs ys : List Node}, Node.FitAll ok role xs → Node.FitAll ok role ys →
      Node.FitAll ok role (xs ++ ys)
  | [], _, _, hy => hy
  | _ :: _, _, hx, hy => ⟨hx.1, fitAll_append hx.2 hy⟩

/-! ## What a parser yields -/

namespace Parser

variable {ok : Token → Prop} {α β σ : Type}

/-- What is left of tokens of interest are tokens of interest, and the value, if there is one, is
as described. -/
def Result.Satisfies (ok : Token → Prop) (Q : α → Prop) : Result α → Prop
  | .ok value rest => (∀ t ∈ rest, ok t) ∧ Q value
  | .failed rest => ∀ t ∈ rest, ok t
  | .noToken => True
  | .tooDeep => True

/-- From tokens of interest the parser gives only what is as described. -/
def Yields (ok : Token → Prop) (p : Parser α) (Q : α → Prop) : Prop :=
  ∀ tokens, (∀ t ∈ tokens, ok t) → (p tokens).result.Satisfies ok Q

theorem yields_pure {a : α} {Q : α → Prop} (h : Q a) : Yields ok (Pure.pure a : Parser α) Q :=
  fun _ ht => ⟨ht, h⟩

theorem Yields.bind {p : Parser α} {f : α → Parser β} {P : α → Prop} {Q : β → Prop}
    (hp : Yields ok p P) (hf : ∀ a, P a → Yields ok (f a) Q) : Yields ok (p >>= f) Q := by
  intro tokens ht
  have hfirst := hp tokens ht
  change (Parser.bind p f tokens).result.Satisfies ok Q
  unfold Parser.bind
  generalize p tokens = reply at hfirst ⊢
  rcases reply with ⟨first, ⟨a, middle⟩ | ⟨middle⟩ | _ | _⟩
  · exact hf a hfirst.2 middle hfirst.1
  · exact hfirst
  · trivial
  · trivial

theorem Yields.map {p : Parser α} {f : α → β} {Q : β → Prop} (hp : Yields ok p fun a => Q (f a)) :
    Yields ok (f <$> p) Q := by
  rw [← bind_pure_comp]
  exact hp.bind fun a ha => yields_pure ha

theorem Yields.mono {p : Parser α} {P Q : α → Prop} (hp : Yields ok p P) (h : ∀ a, P a → Q a) :
    Yields ok p Q := by
  rw [← bind_pure p]
  exact hp.bind fun a ha => yields_pure (h a ha)

theorem yields_tooDeep {Q : α → Prop} : Yields ok (tooDeep : Parser α) Q :=
  fun _ _ => trivial

theorem yields_fail {problem : Problem} {Q : α → Prop} : Yields ok (fail problem : Parser α) Q := by
  intro tokens ht
  cases tokens with
  | nil => trivial
  | cons token tokens => exact ht

theorem yields_complain {token : Token} {problem : Problem} :
    Yields ok (complain token problem) fun _ => True :=
  fun _ ht => ⟨ht, trivial⟩

theorem yields_peek : Yields ok peek ok := by
  intro tokens ht
  cases tokens with
  | nil => trivial
  | cons token tokens => exact ⟨ht, ht _ List.mem_cons_self⟩

theorem yields_check {kind : TokenKind} : Yields ok (check kind) fun _ => True :=
  yields_peek.bind fun _ _ => yields_pure trivial

theorem yields_accept {kinds : List TokenKind} :
    Yields ok (accept? kinds) fun found => ∀ t, found = some t → ok t ∧ t.kind ∈ kinds := by
  intro tokens ht
  cases tokens with
  | nil => trivial
  | cons token tokens =>
    simp only [accept?]
    split
    · rename_i hkind
      refine ⟨fun t h => ht t (List.mem_cons_of_mem _ h), fun t h => ?_⟩
      cases h
      exact ⟨ht _ List.mem_cons_self, hkind⟩
    · exact ⟨ht, fun t h => nomatch h⟩

theorem yields_expect {kind : TokenKind} {problem : Problem} :
    Yields ok (expect kind problem) fun t => t.Is ok kind := by
  refine yields_accept.bind fun found hfound => ?_
  cases found with
  | none => exact yields_fail
  | some token =>
    obtain ⟨hok, hkind⟩ := hfound token rfl
    exact yields_pure ⟨hok, by simpa using hkind⟩

/-- What every turn of a loop keeps holds of the state its outcome comes from. -/
theorem yields_loop {step : σ → Parser (σ ⊕ β)} {I : σ → Prop} {Q : β → Prop}
    (hstep : ∀ s, I s → Yields ok (step s) (Sum.elim I Q)) {s : σ} (hs : I s) :
    Yields ok (loop step s) Q := by
  have within : ∀ turns s, I s → Yields ok (loopWithin step turns s) Q := by
    intro turns
    induction turns with
    | zero => exact fun _ _ _ _ => trivial
    | succ turns ih =>
      intro s hs
      refine (hstep s hs).bind fun r hr => ?_
      cases r with
      | inl s' => exact ih s' hr
      | inr b => exact yields_pure hr
  exact fun tokens ht => within _ s hs tokens ht

/-- A part that is given up leaves the tokens from the next boundary on. -/
theorem skip_subset : ∀ {previous : Token} {tokens rest : List Token},
    skip previous tokens = some rest → rest ⊆ tokens
  | _, [], _, h => by simp [skip] at h
  | previous, token :: tokens, rest, h => by
    simp only [skip] at h
    split at h
    · cases h
      exact fun _ h => h
    · exact fun t ht => List.mem_cons_of_mem _ (skip_subset h ht)

theorem synchronize_subset {tokens rest : List Token} (h : synchronize tokens = some rest) :
    rest ⊆ tokens := by
  cases tokens with
  | nil => simp [synchronize] at h
  | cons token tokens =>
    simp only [synchronize] at h
    split at h
    · cases h
      exact fun _ h => h
    · exact fun t ht => List.mem_cons_of_mem _ (skip_subset h ht)

theorem Yields.recover {p : Parser α} {Q : α → Prop} (hp : Yields ok p Q) :
    Yields ok (recover p) fun found => ∀ a, found = some a → Q a := by
  intro tokens ht
  have hfirst := hp tokens ht
  unfold Parser.recover
  generalize p tokens = reply at hfirst ⊢
  rcases reply with ⟨first, ⟨a, middle⟩ | ⟨middle⟩ | _ | _⟩
  · refine ⟨hfirst.1, fun b hb => ?_⟩
    cases hb
    exact hfirst.2
  · rcases hsync : synchronize middle with _ | rest <;> simp only [hsync]
    · trivial
    · exact ⟨fun t h => hfirst t (synchronize_subset hsync h), fun a h => nomatch h⟩
  · trivial
  · trivial

end Parser

/-! ## Expressions -/

namespace Parser

variable {ok : Token → Prop}

theorem tier_node_fits {tier : Tier} {left right : Node} {operator : Token} (hok : ok operator)
    (hkind : operator.kind ∈ tier.operators) (hl : left.Fits ok .expression)
    (hr : right.Fits ok .expression) : (tier.node left operator right).Fits ok .expression := by
  cases tier <;> simp only [Tier.operators, List.mem_cons, List.not_mem_nil, or_false] at hkind <;>
    simp [Tier.node, Node.Fits, Operator.binaryKinds, Operator.logicalKinds, *] <;> grind

theorem yields_assignTo {target value : Node} {equals : Token}
    (ht : target.Fits ok .expression) (hv : value.Fits ok .expression) :
    Yields ok (assignTo target equals value) (Node.Fits ok .expression) := by
  unfold assignTo
  split
  · exact yields_pure ⟨rfl, ht.2, hv⟩
  · exact yields_pure ⟨rfl, ht.2.1, ht.2.2, hv⟩
  · exact yields_complain.bind fun _ _ => yields_pure ht

/-- What the rules of expressions give at one depth. -/
structure ExpressionsFit (ok : Token → Prop) (depth : Nat) : Prop where
  expression : Yields ok (expression depth) (Node.Fits ok .expression)
  binary : ∀ tier, Yields ok (binary depth tier) (Node.Fits ok .expression)
  unary : Yields ok (unary depth) (Node.Fits ok .expression)
  access : Yields ok (access depth) (Node.Fits ok .expression)
  arguments : Yields ok (arguments depth) (Node.FitAll ok .expression)
  primary : Yields ok (primary depth) (Node.Fits ok .expression)

theorem yields_operand {depth : Nat} (h : ExpressionsFit ok depth) (tier : Tier) :
    Yields ok (match tier.tighter? with
      | some tighter => Parser.binary depth tighter
      | none => Parser.unary depth) (Node.Fits ok .expression) := by
  split
  · exact h.binary _
  · exact h.unary

theorem yields_binary {depth : Nat} (h : ExpressionsFit ok depth) (tier : Tier) :
    Yields ok (Parser.binary (depth + 1) tier) (Node.Fits ok .expression) := by
  have hoperand := yields_operand h tier
  rw [Parser.binary]
  refine hoperand.bind fun first hfirst => yields_loop (fun left hleft => ?_) hfirst
  refine yields_accept.bind fun found hfound => ?_
  cases found with
  | none => exact yields_pure hleft
  | some operator =>
    obtain ⟨hok, hkind⟩ := hfound operator rfl
    exact hoperand.bind fun right hright => yields_pure (tier_node_fits hok hkind hleft hright)

theorem yields_unary {depth : Nat} (h : ExpressionsFit ok depth) :
    Yields ok (Parser.unary (depth + 1)) (Node.Fits ok .expression) := by
  rw [Parser.unary]
  refine yields_accept.bind fun found hfound => ?_
  cases found with
  | none => exact h.access
  | some operator => exact h.unary.bind fun right hright => yields_pure ⟨rfl, hfound _ rfl, hright⟩

theorem yields_access {depth : Nat} (h : ExpressionsFit ok depth) :
    Yields ok (Parser.access (depth + 1)) (Node.Fits ok .expression) := by
  rw [Parser.access]
  refine h.primary.bind fun first hfirst => yields_loop (fun object hobject => ?_) hfirst
  refine yields_accept.bind fun found _ => ?_
  cases found with
  | none => exact yields_pure hobject
  | some opening =>
    simp only
    split
    · exact h.arguments.bind fun values hvalues => yields_expect.bind fun paren hparen =>
        yields_pure ⟨rfl, hparen, hobject, hvalues⟩
    · exact yields_expect.bind fun name hname => yields_pure ⟨rfl, hname, hobject⟩

theorem yields_arguments {depth : Nat} (h : ExpressionsFit ok depth) :
    Yields ok (Parser.arguments (depth + 1)) (Node.FitAll ok .expression) := by
  rw [Parser.arguments]
  refine yields_check.bind fun closed _ => ?_
  split
  · exact yields_pure trivial
  refine h.expression.bind fun first hfirst => yields_loop (fun values hvalues => ?_)
    (show Node.FitAll ok .expression [first] from ⟨hfirst, trivial⟩)
  refine yields_accept.bind fun found _ => ?_
  cases found with
  | none => exact yields_pure hvalues
  | some comma =>
    have hnext : Yields ok (do return .inl (values ++ [← Parser.expression depth]))
        (Sum.elim (Node.FitAll ok .expression) (Node.FitAll ok .expression)) :=
      h.expression.bind fun value hvalue => yields_pure (fitAll_append hvalues ⟨hvalue, trivial⟩)
    simp only
    split
    · exact yields_peek.bind fun _ _ => yields_complain.bind fun _ _ => hnext
    · exact hnext

theorem yields_primary {depth : Nat} (h : ExpressionsFit ok depth) :
    Yields ok (Parser.primary (depth + 1)) (Node.Fits ok .expression) := by
  rw [Parser.primary]
  refine yields_accept.bind fun found hfound => ?_
  cases found with
  | none => exact yields_fail
  | some token =>
    obtain ⟨hok, -⟩ := hfound token rfl
    simp only
    split
    · exact yields_pure rfl
    · exact yields_pure rfl
    · exact yields_pure rfl
    · rename_i hkind
      exact yields_expect.bind fun _ _ => yields_expect.bind fun method hmethod =>
        yields_pure ⟨rfl, ⟨⟨hok, hkind⟩, rfl⟩, hmethod⟩
    · rename_i hkind
      exact yields_pure ⟨rfl, ⟨hok, hkind⟩, rfl⟩
    · rename_i hkind
      exact yields_pure ⟨rfl, ⟨hok, hkind⟩, rfl⟩
    · exact h.expression.bind fun inner hinner => yields_expect.bind fun _ _ =>
        yields_pure ⟨rfl, hinner⟩
    · exact yields_pure rfl

theorem expressionsFit : ∀ depth, ExpressionsFit ok depth
  | 0 => by
    constructor <;> intros <;>
      simp only [Parser.expression, Parser.binary, Parser.unary, Parser.access, Parser.arguments,
        Parser.primary] <;> exact yields_tooDeep
  | depth + 1 => by
    have h := expressionsFit depth
    refine ⟨?_, yields_binary h, yields_unary h, yields_access h, yields_arguments h,
      yields_primary h⟩
    rw [Parser.expression]
    refine (h.binary .or).bind fun target htarget => yields_accept.bind fun found _ => ?_
    cases found with
    | none => exact yields_pure htarget
    | some equals => exact h.expression.bind fun value hvalue => yields_assignTo htarget hvalue

/-! ## Statements and declarations -/

theorem yields_expressionUnless {kind : TokenKind} {depth : Nat} :
    Yields ok (expressionUnless kind depth) (Node.FitsOption ok .expression) := by
  refine yields_check.bind fun closed _ => ?_
  split
  · exact yields_pure trivial
  · exact (expressionsFit depth).expression.bind fun value hvalue => yields_pure hvalue

theorem yields_expressionStatement {role : Role} (hrole : role.IsStatement) {depth : Nat} :
    Yields ok (expressionStatement depth) (Node.Fits ok role) :=
  (expressionsFit depth).expression.bind fun _ hvalue => yields_expect.bind fun _ _ =>
    yields_pure ⟨hrole, hvalue⟩

theorem yields_printStatement {role : Role} (hrole : role.IsStatement) {depth : Nat} :
    Yields ok (printStatement depth) (Node.Fits ok role) :=
  (expressionsFit depth).expression.bind fun _ hvalue => yields_expect.bind fun _ _ =>
    yields_pure ⟨hrole, hvalue⟩

theorem yields_returnStatement {role : Role} (hrole : role.IsStatement) {keyword : Token}
    (hkeyword : keyword.Is ok .returnWord) {depth : Nat} :
    Yields ok (returnStatement keyword depth) (Node.Fits ok role) :=
  yields_expressionUnless.bind fun _ hvalue => yields_expect.bind fun _ _ =>
    yields_pure ⟨hrole, hkeyword, hvalue⟩

theorem yields_varDeclaration {depth : Nat} :
    Yields ok (varDeclaration depth) (Node.Fits ok .declaration) := by
  refine yields_expect.bind fun name hname => yields_accept.bind fun found _ => ?_
  have hend : ∀ initializer, Node.FitsOption ok .expression initializer →
      Yields ok (do
        let _ ← expect .semicolon .expectVariableEnd
        return .varDecl name initializer) (Node.Fits ok .declaration) :=
    fun _ hvalue => yields_expect.bind fun _ _ => yields_pure ⟨rfl, hname, hvalue⟩
  cases found with
  | none => exact (yields_pure (a := none) (Q := Node.FitsOption ok .expression) trivial).bind hend
  | some _ =>
    have hsome : Yields ok (some <$> Parser.expression depth) (Node.FitsOption ok .expression) :=
      Yields.map (f := some) (expressionsFit depth).expression
    exact hsome.bind hend

theorem yields_forInitializer {depth : Nat} :
    Yields ok (forInitializer depth) (Node.FitsOption ok .declaration) := by
  refine yields_accept.bind fun found _ => ?_
  cases found with
  | none => exact Yields.map (f := some) (yields_expressionStatement (.inr rfl))
  | some token =>
    simp only
    split
    · exact yields_pure trivial
    · exact Yields.map (f := some) yields_varDeclaration

theorem yields_parameters :
    Yields ok parameters fun names => ∀ name ∈ names, name.Is ok .identifier := by
  refine yields_check.bind fun closed _ => ?_
  split
  · exact yields_pure fun _ h => nomatch h
  refine yields_expect.bind fun first hfirst => yields_loop
    (I := fun names => ∀ name ∈ names, name.Is ok .identifier) (fun names hnames => ?_)
    (by simpa using hfirst)
  refine yields_accept.bind fun found _ => ?_
  cases found with
  | none => exact yields_pure hnames
  | some comma =>
    have hnext : Yields ok (do return .inl (names ++ [← expect .identifier .expectParameterName]))
        (Sum.elim (fun names : List Token => ∀ name ∈ names, name.Is ok .identifier)
          fun names : List Token => ∀ name ∈ names, name.Is ok .identifier) := by
      refine yields_expect.bind fun name hname => yields_pure fun other hother => ?_
      rcases List.mem_append.1 hother with h | h
      · exact hnames other h
      · rw [List.mem_singleton.1 h]
        exact hname
    simp only
    split
    · exact yields_peek.bind fun _ _ => yields_complain.bind fun _ _ => hnext
    · exact hnext

theorem yields_superclass : Yields ok superclass (FitsSuperclass ok) := by
  refine yields_accept.bind fun found _ => ?_
  cases found with
  | none => exact yields_pure trivial
  | some _ => exact yields_expect.bind fun name hname => yields_pure ⟨hname, rfl⟩

theorem fits_declaration {n : Node} (h : n.Fits ok .statement) : n.Fits ok .declaration := by
  cases n <;> simp_all [Node.Fits, Role.IsStatement]

theorem forLoop_fits {role : Role} (hrole : role.IsStatement)
    {initializer condition increment : Option Node} {body : Node}
    (hi : Node.FitsOption ok .declaration initializer)
    (hc : Node.FitsOption ok .expression condition)
    (hn : Node.FitsOption ok .expression increment) (hb : body.Fits ok .statement) :
    (Node.forLoop initializer condition increment body).Fits ok role := by
  have hcondition : (condition.getD (.literal (.bool true))).Fits ok .expression := by
    cases condition with
    | none => rfl
    | some condition => exact hc
  have hloop : ∀ turn : Node, turn.Fits ok .statement → ∀ role : Role, role.IsStatement →
      (Node.loop (condition.getD (.literal (.bool true))) turn).Fits ok role :=
    fun turn hturn role hrole => ⟨hrole, hcondition, hturn⟩
  unfold Node.forLoop
  cases increment with
  | none =>
    cases initializer with
    | none => exact hloop _ hb _ hrole
    | some initializer => exact ⟨hrole, hi, hloop _ hb _ (.inr rfl), trivial⟩
  | some increment =>
    have hturn : (Node.block [body, .expression increment]).Fits ok .statement :=
      ⟨.inl rfl, fits_declaration hb, ⟨.inr rfl, hn⟩, trivial⟩
    cases initializer with
    | none => exact hloop _ hturn _ hrole
    | some initializer => exact ⟨hrole, hi, hloop _ hturn _ (.inr rfl), trivial⟩

/-- What the rules of statements give at one depth. -/
structure StatementsFit (ok : Token → Prop) (depth : Nat) : Prop where
  declaration : Yields ok (declaration depth) (Node.FitsOption ok .declaration)
  classDeclaration : Yields ok (classDeclaration depth) (Node.Fits ok .declaration)
  function : ∀ kind, Yields ok (function kind depth) fun n =>
    n.Fits ok .declaration ∧ n.Fits ok .method
  block : Yields ok (block depth) (Node.FitAll ok .declaration)
  statement : Yields ok (statement depth) (Node.Fits ok .statement)
  forStatement : Yields ok (forStatement depth) (Node.Fits ok .statement)
  ifStatement : Yields ok (ifStatement depth) (Node.Fits ok .statement)
  whileStatement : Yields ok (whileStatement depth) (Node.Fits ok .statement)

theorem fitAll_toList {role : Role} {nodes : List Node} {found : Option Node}
    (h : Node.FitAll ok role nodes) (hf : Node.FitsOption ok role found) :
    Node.FitAll ok role (nodes ++ found.toList) := by
  cases found with
  | none => simpa using h
  | some n => exact fitAll_append h ⟨hf, trivial⟩

theorem yields_declaration {depth : Nat} (h : StatementsFit ok depth) :
    Yields ok (Parser.declaration (depth + 1)) (Node.FitsOption ok .declaration) := by
  rw [Parser.declaration]
  refine Yields.mono (Yields.recover (Q := Node.Fits ok .declaration) ?_) fun found hfound => ?_
  · refine yields_accept.bind fun found _ => ?_
    cases found with
    | none => exact h.statement.mono fun _ => fits_declaration
    | some token =>
      simp only
      split
      · exact h.classDeclaration
      · exact (h.function _).mono fun _ hn => hn.1
      · exact yields_varDeclaration
  cases found with
  | none => trivial
  | some n => exact hfound n rfl

theorem yields_classDeclaration {depth : Nat} (h : StatementsFit ok depth) :
    Yields ok (Parser.classDeclaration (depth + 1)) (Node.Fits ok .declaration) := by
  rw [Parser.classDeclaration]
  have hmethods : Yields ok (loop (fun methods => do
      let token ← peek
      if token.kind = .eof ∨ token.kind = .rightBrace then return .inr methods
      return .inl (methods ++ [← Parser.function .method depth])) [])
      (Node.FitAll ok .method) := by
    refine yields_loop (I := Node.FitAll ok .method) (fun methods hmethods => ?_) trivial
    refine yields_peek.bind fun token _ => ?_
    split
    · exact yields_pure hmethods
    · exact (h.function _).bind fun n hn => yields_pure (fitAll_append hmethods ⟨hn.2, trivial⟩)
  exact yields_expect.bind fun name hname => yields_superclass.bind fun parent hparent =>
    yields_expect.bind fun _ _ => hmethods.bind fun methods hm => yields_expect.bind fun _ _ =>
      yields_pure ⟨rfl, hname, hparent, hm⟩

theorem yields_function {depth : Nat} (h : StatementsFit ok depth) (kind : FunctionKind) :
    Yields ok (Parser.function kind (depth + 1)) fun n =>
      n.Fits ok .declaration ∧ n.Fits ok .method := by
  rw [Parser.function]
  exact yields_expect.bind fun name hname => yields_expect.bind fun _ _ =>
    yields_parameters.bind fun params hparams => yields_expect.bind fun _ _ =>
      yields_expect.bind fun _ _ => h.block.bind fun body hbody =>
        yields_pure ⟨⟨.inl rfl, hname, hparams, hbody⟩, ⟨.inr rfl, hname, hparams, hbody⟩⟩

theorem yields_block {depth : Nat} (h : StatementsFit ok depth) :
    Yields ok (Parser.block (depth + 1)) (Node.FitAll ok .declaration) := by
  rw [Parser.block]
  have hstatements : Yields ok (loop (fun statements => do
      let token ← peek
      if token.kind = .rightBrace ∨ token.kind = .eof then return .inr statements
      return .inl (statements ++ (← Parser.declaration depth).toList)) [])
      (Node.FitAll ok .declaration) := by
    refine yields_loop (I := Node.FitAll ok .declaration) (fun statements hs => ?_) trivial
    refine yields_peek.bind fun token _ => ?_
    split
    · exact yields_pure hs
    · exact h.declaration.bind fun found hfound => yields_pure (fitAll_toList hs hfound)
  exact hstatements.bind fun statements hs => yields_expect.bind fun _ _ => yields_pure hs

theorem yields_statement {depth : Nat} (h : StatementsFit ok depth) :
    Yields ok (Parser.statement (depth + 1)) (Node.Fits ok .statement) := by
  rw [Parser.statement]
  refine yields_accept.bind fun found hfound => ?_
  cases found with
  | none => exact yields_expressionStatement (.inl rfl)
  | some token =>
    simp only
    split
    · exact h.forStatement
    · exact h.ifStatement
    · exact yields_printStatement (.inl rfl)
    · rename_i hkind
      exact yields_returnStatement (.inl rfl) ⟨(hfound token rfl).1, hkind⟩
    · exact h.whileStatement
    · exact Yields.map (f := Node.block) (h.block.mono fun _ hs => ⟨.inl rfl, hs⟩)

theorem yields_forStatement {depth : Nat} (h : StatementsFit ok depth) :
    Yields ok (Parser.forStatement (depth + 1)) (Node.Fits ok .statement) := by
  rw [Parser.forStatement]
  exact yields_expect.bind fun _ _ => yields_forInitializer.bind fun _ hi =>
    yields_expressionUnless.bind fun _ hc => yields_expect.bind fun _ _ =>
      yields_expressionUnless.bind fun _ hn => yields_expect.bind fun _ _ =>
        h.statement.bind fun _ hb => yields_pure (forLoop_fits (.inl rfl) hi hc hn hb)

theorem yields_ifStatement {depth : Nat} (h : StatementsFit ok depth) :
    Yields ok (Parser.ifStatement (depth + 1)) (Node.Fits ok .statement) := by
  rw [Parser.ifStatement]
  refine yields_expect.bind fun _ _ => (expressionsFit depth).expression.bind fun _ hc =>
    yields_expect.bind fun _ _ => h.statement.bind fun _ ht => yields_accept.bind fun found _ => ?_
  cases found with
  | none => exact yields_pure ⟨.inl rfl, hc, ht, trivial⟩
  | some _ => exact h.statement.bind fun _ he => yields_pure ⟨.inl rfl, hc, ht, he⟩

theorem yields_whileStatement {depth : Nat} (h : StatementsFit ok depth) :
    Yields ok (Parser.whileStatement (depth + 1)) (Node.Fits ok .statement) := by
  rw [Parser.whileStatement]
  exact yields_expect.bind fun _ _ => (expressionsFit depth).expression.bind fun _ hc =>
    yields_expect.bind fun _ _ => h.statement.bind fun _ hb => yields_pure ⟨.inl rfl, hc, hb⟩

theorem statementsFit : ∀ depth, StatementsFit ok depth
  | 0 => by
    constructor <;> intros <;>
      simp only [Parser.declaration, Parser.classDeclaration, Parser.function, Parser.block,
        Parser.statement, Parser.forStatement, Parser.ifStatement, Parser.whileStatement] <;>
      exact yields_tooDeep
  | depth + 1 => by
    have h := statementsFit depth
    exact ⟨yields_declaration h, yields_classDeclaration h, yields_function h, yields_block h,
      yields_statement h, yields_forStatement h, yields_ifStatement h, yields_whileStatement h⟩

/-- Every statement of a program, whatever was complained of, stands where the grammar has it. -/
theorem fits_program (depth : Nat) : Yields ok (program depth) (Node.FitAll ok .declaration) := by
  refine yields_loop (I := Node.FitAll ok .declaration) (fun statements hs => ?_) trivial
  refine yields_check.bind fun ended _ => ?_
  split
  · exact yields_pure hs
  · exact (statementsFit depth).declaration.bind fun found hfound =>
      yields_pure (fitAll_toList hs hfound)

end Parser

end Lox
