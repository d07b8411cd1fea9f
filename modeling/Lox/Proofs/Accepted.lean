import Mathlib.Tactic
import Lox.Proofs.Reading

/-!
# What is derived is accepted

The parser reads the tokens of a phrase as its tree before any token that cannot go on with the
phrase (`Derives.accepts`, one lemma for each rule of the grammar). With what is accepted being
derived, the parser accepts what the grammar derives and nothing else, and its tree is the only one
in which each `else` belongs to the nearest `if` (`program_accepts_iff`).
-/

namespace Lox

/-- The kinds of token that the operands of the tier can go on with. -/
def Tier.inner : Tier → List TokenKind
  | .factor => [.leftParen, .dot]
  | .term => Tier.factor.operators ++ [.leftParen, .dot]
  | .comparison => Tier.term.operators ++ (Tier.factor.operators ++ [.leftParen, .dot])
  | .equality => Tier.comparison.operators ++
    (Tier.term.operators ++ (Tier.factor.operators ++ [.leftParen, .dot]))
  | .and => Tier.equality.operators ++ (Tier.comparison.operators ++
    (Tier.term.operators ++ (Tier.factor.operators ++ [.leftParen, .dot])))
  | .or => Tier.and.operators ++ (Tier.equality.operators ++ (Tier.comparison.operators ++
    (Tier.term.operators ++ (Tier.factor.operators ++ [.leftParen, .dot]))))

/-- An operator ends the operand before it. -/
theorem Tier.not_mem_inner {t : Tier} {kind : TokenKind} (h : kind ∈ t.operators) :
    kind ∉ t.inner := by
  revert kind
  cases t <;> decide

namespace Parser

/-- The kinds of token that an expression can go on with. -/
def expressionKinds : List TokenKind := .equal :: (Tier.or.operators ++ Tier.or.inner)

/-- The kinds of token that an expression can start with. -/
def expressionStarts : List TokenKind := .bang :: .minus :: primaryKinds

def statementStarts : List TokenKind :=
  [.forWord, .ifWord, .printWord, .returnWord, .whileWord, .leftBrace] ++ expressionStarts

def declarationStarts : List TokenKind := [.classWord, .funWord, .varWord] ++ statementStarts

end Parser

open Lox.Parser

/-- The first token of a phrase that cannot be empty. -/
def Phrase.Starts (ts : List Token) : Phrase → Prop
  | .expression _ | .disjunction _ | .conjunction _ | .equality _ | .comparison _ | .term _
  | .factor _ | .unary _ => Opens expressionStarts ts
  | .access _ | .primary _ => Opens primaryKinds ts
  | .initializer _ => Opens ([.semicolon, .varWord] ++ expressionStarts) ts
  | .function _ | .binding _ => Opens [.identifier] ts
  | .statement _ _ => Opens statementStarts ts
  | .declaration _ => Opens declarationStarts ts
  | _ => True

theorem Parser.Opens.append {kinds : List TokenKind} {ts : List Token} (h : Opens kinds ts)
    (us : List Token) : Opens kinds (ts ++ us) := by
  obtain ⟨t, vs, rfl, ht⟩ := h
  exact ⟨t, vs ++ us, rfl, ht⟩

theorem Parser.Opens.mono {kinds kinds' : List TokenKind} {ts : List Token} (h : Opens kinds ts)
    (hsub : kinds ⊆ kinds') : Opens kinds' ts := by
  obtain ⟨t, vs, rfl, ht⟩ := h
  exact ⟨t, vs, rfl, hsub ht⟩

theorem Parser.Opens.stops {kinds kinds' : List TokenKind} {ts : List Token} (h : Opens kinds ts)
    (hdisjoint : ∀ kind ∈ kinds, kind ∉ kinds') : Stops kinds' ts := by
  obtain ⟨t, vs, rfl, ht⟩ := h
  exact ⟨t, vs, rfl, hdisjoint _ ht⟩

theorem Derives.starts {nearest : Bool} {g : Phrase} {ts : List Token} (h : Derives nearest g ts) :
    g.Starts ts := by
  have single : ∀ {kinds : List TokenKind} {t : Token} {us : List Token}, t.kind ∈ kinds →
      Opens kinds (t :: us) := fun ht => ⟨_, _, rfl, ht⟩
  induction h with
  | loose _ ih => exact ih
  | assign _ _ _ ih _ => exact (ih.append _).mono (by decide)
  | setProperty _ _ _ ih _ => exact (ih.append _).mono (by decide)
  | ofConjunction _ ih | ofEquality _ ih | ofComparison _ ih | ofTerm _ ih | ofFactor _ ih
  | ofUnary _ ih => exact ih
  | or _ _ _ ih _ | and _ _ _ ih _ | equality _ _ _ ih _ | comparison _ _ _ ih _
  | term _ _ _ ih _ | factor _ _ _ ih _ => exact ih.append _
  | plain _ ih => exact ih.mono (by decide)
  | negation hop _ _ =>
    exact single ((by decide : [TokenKind.bang, .minus] ⊆ expressionStarts) hop)
  | single _ ih => exact ih
  | call _ _ _ _ _ ih _ => exact ih.append _
  | property _ _ _ ih => exact ih.append _
  | no h | yes h | nil h | receiver h | ident h => exact single (by rw [h]; decide)
  | superMethod h _ _ => exact single (by rw [h]; decide)
  | group h _ _ _ => exact single (by rw [h]; decide)
  | literal h => exact single ((by decide : [TokenKind.number, .string] ⊆ primaryKinds) h)
  | binding h _ => exact single (by rw [h]; decide)
  | initialized h _ _ _ _ => exact single (by rw [h]; decide)
  | noInitializer h => exact single (by rw [h]; decide)
  | varInitializer h _ _ => exact single (by rw [h]; decide)
  | expressionInitializer _ _ ih => exact (ih.append _).mono (by decide)
  | function h _ _ _ _ _ _ _ _ _ => exact single (by rw [h]; decide)
  | expressionStatement _ _ ih => exact (ih.append _).mono (by decide)
  | print h _ _ _ => exact single (by rw [h]; decide)
  | returning h _ _ _ => exact single (by rw [h]; decide)
  | block h _ _ _ => exact single (by rw [h]; decide)
  | whileLoop h _ _ _ _ _ _ => exact single (by rw [h]; decide)
  | forLoop h _ _ _ _ _ _ _ _ _ _ _ => exact single (by rw [h]; decide)
  | ifThen h _ _ _ _ _ _ => exact single (by rw [h]; decide)
  | ifElse h _ _ _ _ _ _ _ _ _ _ => exact single (by rw [h]; decide)
  | classDeclaration h _ _ _ _ _ _ _ => exact single (by rw [h]; decide)
  | functionDeclaration h _ _ => exact single (by rw [h]; decide)
  | varDeclaration h _ _ => exact single (by rw [h]; decide)
  | statement _ ih => exact ih.mono (by decide)
  | noArguments | argument _ _ | arguments _ _ _ _ _ _ | absent | present _ _ | noParameters
  | parameter _ | parameters _ _ _ _ _ | noMethods | methods _ _ _ _ | noSuperclass
  | superclass _ _ | noDeclarations | declarations _ _ _ _ => trivial

/-! ## The turns of the loops -/

namespace Parser

def operand (depth : Nat) (t : Tier) : Parser Node :=
  match t.tighter? with
  | some tighter => binary depth tighter
  | none => unary depth

def binaryTurn (depth : Nat) (t : Tier) (left : Node) : Parser (Node ⊕ Node) := do
  match ← accept? t.operators with
  | none => return .inr left
  | some operator => return .inl (t.node left operator (← operand depth t))

theorem binary_succ (depth : Nat) (t : Tier) :
    binary (depth + 1) t = operand depth t >>= loop (binaryTurn depth t) := rfl

def accessTurn (depth : Nat) (object : Node) : Parser (Node ⊕ Node) := do
  match ← accept? [.leftParen, .dot] with
  | none => return .inr object
  | some opening =>
    if opening.kind = .leftParen then
      let values ← arguments depth
      let paren ← expect .rightParen .expectArgumentsEnd
      return .inl (.call object paren values)
    else
      return .inl (.property object (← expect .identifier .expectPropertyName))

theorem access_succ (depth : Nat) :
    access (depth + 1) = primary depth >>= loop (accessTurn depth) := rfl

def argumentTurn (depth : Nat) (values : List Node) : Parser (List Node ⊕ List Node) := do
  match ← accept? [.comma] with
  | none => return .inr values
  | some _ =>
    if maxArguments ≤ values.length then complain (← peek) .tooManyArguments
    return .inl (values ++ [← expression depth])

theorem arguments_succ (depth : Nat) :
    arguments (depth + 1) = (do
      if ← check .rightParen then return []
      let first ← expression depth
      loop (argumentTurn depth) [first]) := rfl

def primaryFrom (depth : Nat) (token : Token) : Parser Node :=
  match token.kind with
  | .falseWord => return .literal (.bool false)
  | .trueWord => return .literal (.bool true)
  | .nilWord => return .literal .nil
  | .superWord => do
    let _ ← expect .dot .expectSuperDot
    return .superMethod ⟨token, none⟩ (← expect .identifier .expectSuperMethod)
  | .thisWord => return .receiver ⟨token, none⟩
  | .identifier => return .ident ⟨token, none⟩
  | .leftParen => do
    let inner ← expression depth
    let _ ← expect .rightParen .expectGroupEnd
    return .group inner
  | _ => return .literal token.literal

def parameterTurn (names : List Token) : Parser (List Token ⊕ List Token) := do
  match ← accept? [.comma] with
  | none => return .inr names
  | some _ =>
    if maxArguments ≤ names.length then complain (← peek) .tooManyParameters
    return .inl (names ++ [← expect .identifier .expectParameterName])

theorem parameters_eq :
    parameters = (do
      if ← check .rightParen then return []
      let first ← expect .identifier .expectParameterName
      loop parameterTurn [first]) := rfl

def methodTurn (depth : Nat) (methods : List Node) : Parser (List Node ⊕ List Node) := do
  let token ← peek
  if token.kind = .eof ∨ token.kind = .rightBrace then return .inr methods
  return .inl (methods ++ [← function .method depth])

def blockTurn (depth : Nat) (statements : List Node) : Parser (List Node ⊕ List Node) := do
  let token ← peek
  if token.kind = .rightBrace ∨ token.kind = .eof then return .inr statements
  return .inl (statements ++ (← declaration depth).toList)

def statementFrom (depth : Nat) (token : Token) : Parser Node :=
  match token.kind with
  | .forWord => forStatement depth
  | .ifWord => ifStatement depth
  | .printWord => printStatement depth
  | .returnWord => returnStatement token depth
  | .whileWord => whileStatement depth
  | _ => .block <$> block depth

def declarationFrom (depth : Nat) (token : Token) : Parser Node :=
  match token.kind with
  | .classWord => classDeclaration depth
  | .funWord => function .function depth
  | _ => varDeclaration depth

def programTurn (depth : Nat) (statements : List Node) : Parser (List Node ⊕ List Node) := do
  if ← check .eof then return .inr statements
  return .inl (statements ++ (← declaration depth).toList)

/-- What a statement could go on with if it is dangling. -/
def elseIf (dangling : Bool) : List TokenKind := if dangling then [.elseWord] else []

/-- The tier accepts the tokens, and may still go on. -/
def AcceptsTier (depth : Nat) (t : Tier) (n : Node) (ts : List Token) : Prop :=
  Loops (binary depth t) (binaryTurn (depth - 1) t) n ts (Stops t.inner)

/-- The parser accepts the tokens of the phrase, at the depth. -/
def Accepts (depth : Nat) (ts : List Token) : Phrase → Prop
  | .expression n => Reads (expression depth) ts n (Stops expressionKinds)
  | .disjunction n => AcceptsTier depth .or n ts
  | .conjunction n => AcceptsTier depth .and n ts
  | .equality n => AcceptsTier depth .equality n ts
  | .comparison n => AcceptsTier depth .comparison n ts
  | .term n => AcceptsTier depth .term n ts
  | .factor n => AcceptsTier depth .factor n ts
  | .unary n => Reads (unary depth) ts n (Stops [.leftParen, .dot])
  | .access n => Loops (access depth) (accessTurn (depth - 1)) n ts (Stops [])
  | .primary n => Reads (primary depth) ts n (Stops [])
  | .arguments ns => ns.length ≤ maxArguments →
    (ns = [] → ts = []) ∧
      (ns ≠ [] → Loops (arguments depth) (argumentTurn (depth - 1)) ns ts (Stops expressionKinds))
  | .optional n => ∀ kind ∈ [.semicolon, .rightParen],
    Reads (expressionUnless kind depth) ts n (Opens [kind])
  | .binding n => Reads (varDeclaration depth) ts n (Stops [])
  | .initializer n => Reads (forInitializer depth) ts n (Stops [])
  | .parameters names => names.length ≤ maxArguments →
    (names = [] → ts = []) ∧ (names ≠ [] → Loops parameters parameterTurn names ts (Stops []))
  | .function n => ∀ kind, Reads (function kind depth) ts n (Stops [])
  | .methods ns => Loops (loop (methodTurn depth) []) (methodTurn depth) ns ts (Stops [])
  | .superclass parent => Reads superclass ts parent (Stops [.less])
  | .statement n dangling =>
    Reads (statement depth) ts n (Stops (elseIf dangling))
  | .declaration n => Reads (declaration depth) ts (some n) (Stops [.elseWord])
  | .declarations ns => ∀ turn ∈ [blockTurn depth, programTurn depth],
    Loops (loop turn []) turn ns ts (Stops [.elseWord])

variable {ts us : List Token} {n : Node}

theorem Stops.mono {kinds kinds' : List TokenKind} {rest : List Token} (h : Stops kinds rest)
    (hsub : kinds' ⊆ kinds) : Stops kinds' rest := by
  obtain ⟨t, us, rfl, ht⟩ := h
  exact ⟨t, us, rfl, fun hmem => ht (hsub hmem)⟩

theorem Stops.some {kinds : List TokenKind} {rest : List Token} (h : Stops kinds rest) :
    Stops [] rest := h.mono (List.nil_subset _)

/-- A token in front. -/
theorem stops_cons {kinds : List TokenKind} {t : Token} {kind : TokenKind} {rest : List Token}
    (ht : t.kind = kind) (h : kind ∉ kinds) : Stops kinds (t :: rest) := ⟨t, rest, rfl, ht ▸ h⟩

/-- What is left is never empty. -/
theorem Stops.before {kinds : List TokenKind} {rest : List Token} (h : Stops kinds rest)
    (us : List Token) : Stops [] (us ++ rest) := by
  cases us with
  | nil => exact h.some
  | cons t us => exact ⟨t, us ++ rest, rfl, by simp⟩

/-! ## Expressions -/

section Expressions

variable {depth : Nat}

/-- A chain of operators ends before what is no operator of the tier. -/
theorem AcceptsTier.reads {t : Tier} (h : AcceptsTier depth t n ts) :
    Reads (binary depth t) ts n (Stops (t.operators ++ t.inner)) := by
  refine Loops.finish h ?_ fun rest hrest => hrest.mono (List.subset_append_right _ _)
  exact (reads_refuse.bind reads_pure fun rest hrest => hrest.mono (List.subset_append_left _ _))

theorem operand_reads (t : Tier) (h : ∀ depth, Accepts depth ts (t.operand n)) (depth : Nat) :
    Reads (operand depth t) ts n (Stops t.inner) := by
  cases t with
  | factor => exact h depth
  | or => exact (h depth : AcceptsTier depth .and n ts).reads
  | and => exact (h depth : AcceptsTier depth .equality n ts).reads
  | equality => exact (h depth : AcceptsTier depth .comparison n ts).reads
  | comparison => exact (h depth : AcceptsTier depth .term n ts).reads
  | term => exact (h depth : AcceptsTier depth .factor n ts).reads

theorem accepts_ofOperand (t : Tier) (h : ∀ depth, Accepts depth ts (t.operand n)) (depth : Nat) :
    AcceptsTier depth t n ts := by
  cases depth with
  | zero => exact .inr fun _ _ => rfl
  | succ depth =>
    have hloop := (operand_reads t h depth).loops (f := loop (binaryTurn depth t)) loops_start
      fun _ h => h
    rwa [List.append_nil, ← binary_succ] at hloop

theorem accepts_operation (t : Tier) {left right : Node} {operator : Token}
    (hleft : ∀ depth, AcceptsTier depth t left ts) (hop : operator.kind ∈ t.operators)
    (hright : ∀ depth, Accepts depth us (t.operand right)) (depth : Nat) :
    AcceptsTier depth t (t.node left operator right) (ts ++ operator :: us) := by
  refine Loops.again (hleft depth) ?_ (List.cons_ne_nil _ _)
    fun rest _ => ⟨operator, us ++ rest, rfl, Tier.not_mem_inner hop⟩
  refine (reads_accept (P := Stops []) hop).bind ?_ fun rest hrest => hrest.before us
  have hmap := (operand_reads t hright (depth - 1)).map (g := fun right => Sum.inl (β := Node)
    (t.node left operator right))
  rwa [map_eq_pure_bind] at hmap

theorem accepts_plain (h : ∀ depth, Accepts depth ts (.access n)) (hts : Opens primaryKinds ts)
    (depth : Nat) : Accepts depth ts (.unary n) := by
  cases depth with
  | zero => exact reads_tooDeep
  | succ depth =>
    refine Reads.refuse ?_ fun rest _ => (hts.append rest).stops (by decide)
    refine Loops.finish (h depth) ?_ fun rest hrest => hrest.some
    exact .refuse reads_pure fun rest hrest => hrest

/-- An expression without operators stands in every tier. -/
theorem accepts_disjunction (h : ∀ depth, Accepts depth ts (.unary n)) :
    ∀ depth, Accepts depth ts (.disjunction n) := by
  have factor := accepts_ofOperand .factor h
  have term := accepts_ofOperand .term factor
  have comparison := accepts_ofOperand .comparison term
  have equality := accepts_ofOperand .equality comparison
  have conjunction := accepts_ofOperand .and equality
  exact accepts_ofOperand .or conjunction

theorem accepts_loose (h : ∀ depth, Accepts depth ts (.disjunction n)) (depth : Nat) :
    Accepts depth ts (.expression n) := by
  cases depth with
  | zero => exact reads_tooDeep
  | succ depth =>
    refine (AcceptsTier.reads (h depth)).last ?_
      fun rest hrest => hrest.mono (List.subset_cons_self _ _)
    exact .refuse reads_pure fun rest hrest => hrest.mono (by decide)

theorem accepts_assignment {target value result : Node} {equals : Token}
    (htarget : ∀ depth, Accepts depth ts (.access target)) (hts : Opens primaryKinds ts)
    (hequals : equals.kind = .equal) (hvalue : ∀ depth, Accepts depth us (.expression value))
    (hassign : assignTo target equals value = Pure.pure result) (depth : Nat) :
    Accepts depth (ts ++ equals :: us) (.expression result) := by
  cases depth with
  | zero => exact reads_tooDeep
  | succ depth =>
    have hdisjunction := accepts_disjunction (accepts_plain htarget hts)
    refine (AcceptsTier.reads (hdisjunction depth)).bind ?_
      fun rest _ => stops_cons hequals (by decide)
    refine .accept (by simp [hequals]) ((hvalue depth).last ?_ fun _ h => h)
    rw [hassign]
    exact reads_pure

theorem accepts_negation {operator : Token} (hop : operator.kind ∈ [TokenKind.bang, .minus])
    (h : ∀ depth, Accepts depth ts (.unary n)) (depth : Nat) :
    Accepts depth (operator :: ts) (.unary (.unary operator n)) := by
  cases depth with
  | zero => exact reads_tooDeep
  | succ depth => exact .accept hop ((h depth).last reads_pure fun _ h => h)

theorem accepts_single (h : ∀ depth, Accepts depth ts (.primary n)) (depth : Nat) :
    Accepts depth ts (.access n) := by
  cases depth with
  | zero => exact .inr fun _ _ => rfl
  | succ depth =>
    have hloop := (h depth).loops (f := loop (accessTurn depth)) loops_start fun _ h => h
    rwa [List.append_nil, ← access_succ] at hloop

/-- The arguments end before the closing parenthesis. -/
theorem Accepts.arguments {ns : List Node} (h : Accepts depth ts (.arguments ns))
    (hlength : ns.length ≤ maxArguments) :
    Reads (Parser.arguments depth) ts ns (Opens [.rightParen]) := by
  obtain ⟨hnone, hsome⟩ := h hlength
  by_cases hns : ns = []
  · obtain rfl := hnone hns
    subst hns
    cases depth with
    | zero => exact reads_tooDeep
    | succ depth => exact reads_check.bind reads_pure fun _ h => h
  · refine (hsome hns).finish ?_ fun rest hrest => hrest.stops (by decide)
    exact .refuse reads_pure fun rest hrest => hrest.stops (by decide)

theorem accepts_call {opening closing : Token} {ns : List Node}
    (h : ∀ depth, Accepts depth ts (.access n)) (hopening : opening.kind = .leftParen)
    (hns : ∀ depth, Accepts depth us (.arguments ns)) (hlength : ns.length ≤ maxArguments)
    (hclosing : closing.kind = .rightParen) (depth : Nat) :
    Accepts depth (ts ++ opening :: (us ++ [closing])) (.access (.call n closing ns)) := by
  refine Loops.again (h depth) ?_ (List.cons_ne_nil _ _)
    fun rest hrest => hrest.before _
  refine .accept (by simp [hopening]) ?_
  simp only [if_pos hopening]
  exact ((hns (depth - 1)).arguments hlength).bind (.expect hclosing reads_pure)
    fun rest _ => ⟨closing, rest, rfl, by simp [hclosing]⟩

theorem accepts_property {dot name : Token} (h : ∀ depth, Accepts depth ts (.access n))
    (hdot : dot.kind = .dot) (hname : name.kind = .identifier) (depth : Nat) :
    Accepts depth (ts ++ [dot, name]) (.access (.property n name)) := by
  refine Loops.again (h depth) ?_ (List.cons_ne_nil _ _)
    fun rest hrest => hrest.before _
  refine .accept (by simp [hdot]) ?_
  simp only [hdot, reduceCtorEq, if_false]
  exact .expect hname reads_pure

theorem accepts_argument (h : ∀ depth, Accepts depth ts (.expression n))
    (hts : Opens expressionStarts ts) (depth : Nat) : Accepts depth ts (.arguments [n]) := by
  refine fun _ => ⟨nofun, fun _ => ?_⟩
  cases depth with
  | zero => exact .inr fun _ _ => rfl
  | succ depth =>
    have hloop := (h depth).loops (f := fun first => loop (argumentTurn depth) [first]) loops_start
      fun _ h => h
    rw [List.append_nil] at hloop
    rw [arguments_succ]
    refine reads_check_not.loops hloop ?_
    exact fun rest _ => (hts.append rest).stops (by decide)

theorem accepts_arguments {ns : List Node} {comma : Token}
    (hns : ∀ depth, Accepts depth ts (.arguments ns)) (hne : ns ≠ []) (hcomma : comma.kind = .comma)
    (hn : ∀ depth, Accepts depth us (.expression n)) (depth : Nat) :
    Accepts depth (ts ++ comma :: us) (.arguments (ns ++ [n])) := by
  intro hlength
  rw [List.length_append, List.length_singleton] at hlength
  refine ⟨fun h => by simp at h, fun _ => ?_⟩
  refine Loops.again ((hns depth (by omega)).2 hne) ?_ (List.cons_ne_nil _ _)
    fun rest _ => stops_cons hcomma (by decide)
  refine .accept (by simp [hcomma]) ?_
  simp only [if_neg (show ¬ maxArguments ≤ ns.length by omega)]
  exact (hn (depth - 1)).last reads_pure fun _ h => h

/-- A primary is known by its first token. -/
theorem accepts_primary {token : Token} (hkind : token.kind ∈ primaryKinds)
    (h : ∀ depth, Reads (primaryFrom depth token) ts n (Stops [])) (depth : Nat) :
    Accepts depth (token :: ts) (.primary n) := by
  cases depth with
  | zero => exact reads_tooDeep
  | succ depth => exact Reads.accept hkind (h depth)

end Expressions

/-! ## Parts of statements -/

section Statements

variable {α : Type} {depth : Nat} {dangling : Bool} {a : α} {P : List Token → Prop}

theorem accepts_present (h : ∀ depth, Accepts depth ts (.expression n))
    (hts : Opens expressionStarts ts) (depth : Nat) : Accepts depth ts (.optional (some n)) := by
  intro kind hkind
  have hstarts : ∀ kind ∈ [TokenKind.semicolon, .rightParen], ∀ other ∈ expressionStarts,
      other ∉ [kind] := by decide
  have hends : ∀ kind ∈ [TokenKind.semicolon, .rightParen], ∀ other ∈ [kind],
      other ∉ expressionKinds := by decide
  exact .check_not ((h depth).last reads_pure fun rest hrest => hrest.stops (hends kind hkind))
    fun rest _ => (hts.append rest).stops (hstarts kind hkind)

/-- An expression and the token after it. -/
theorem Accepts.before {closing : Token} {kind : TokenKind} {f : Node → Parser α}
    (h : Accepts depth ts (.expression n)) (hclosing : closing.kind = kind)
    (hkind : kind ∉ expressionKinds) (hf : Reads (f n) (closing :: us) a P) :
    Reads (expression depth >>= f) (ts ++ closing :: us) a P :=
  Reads.bind h hf fun _ _ => stops_cons hclosing hkind

/-- An expression that may be absent and the token after it. -/
theorem Accepts.beforeOptional {n : Option Node} {closing : Token} {kind : TokenKind}
    {f : Option Node → Parser α} (h : Accepts depth ts (.optional n))
    (hclosing : closing.kind = kind) (hkind : kind ∈ [TokenKind.semicolon, .rightParen])
    (hf : Reads (f n) (closing :: us) a P) :
    Reads (expressionUnless kind depth >>= f) (ts ++ closing :: us) a P :=
  Reads.bind (h kind hkind) hf fun rest _ => ⟨closing, us ++ rest, rfl, by simp [hclosing]⟩

theorem accepts_binding {name semicolon : Token} (hname : name.kind = .identifier)
    (hend : semicolon.kind = .semicolon) (depth : Nat) :
    Accepts depth [name, semicolon] (.binding (.varDecl name none)) := by
  refine Reads.expect hname (Reads.refuse ?_ fun rest _ => stops_cons hend (by decide))
  exact .expect hend reads_pure

theorem accepts_initialized {name equals semicolon : Token} (hname : name.kind = .identifier)
    (hequals : equals.kind = .equal) (h : ∀ depth, Accepts depth ts (.expression n))
    (hend : semicolon.kind = .semicolon) (depth : Nat) :
    Accepts depth (name :: equals :: (ts ++ [semicolon])) (.binding (.varDecl name (some n))) := by
  refine Reads.expect hname (Reads.accept (by simp [hequals]) ?_)
  refine Reads.bind (h depth).map (.expect hend reads_pure) fun rest _ => ?_
  exact stops_cons hend (by decide)

theorem accepts_noInitializer {semicolon : Token} (h : semicolon.kind = .semicolon) (depth : Nat) :
    Accepts depth [semicolon] (.initializer none) := by
  refine Reads.accept (by simp [h]) ?_
  simp only [if_pos h]
  exact reads_pure

theorem accepts_varInitializer {keyword : Token} (hkeyword : keyword.kind = .varWord)
    (h : ∀ depth, Accepts depth ts (.binding n)) (depth : Nat) :
    Accepts depth (keyword :: ts) (.initializer (some n)) := by
  refine Reads.accept (by simp [hkeyword]) ?_
  simp only [hkeyword, reduceCtorEq, if_false]
  exact (h depth).map

theorem Accepts.expressionStatement {semicolon : Token} (h : Accepts depth ts (.expression n))
    (hend : semicolon.kind = .semicolon) :
    Reads (Parser.expressionStatement depth) (ts ++ [semicolon]) (.expression n) (Stops []) :=
  h.before hend (by decide) (.expect hend reads_pure)

theorem accepts_expressionInitializer {semicolon : Token}
    (h : ∀ depth, Accepts depth ts (.expression n)) (hts : Opens expressionStarts ts)
    (hend : semicolon.kind = .semicolon) (depth : Nat) :
    Accepts depth (ts ++ [semicolon]) (.initializer (some (.expression n))) := by
  refine Reads.refuse ((h depth).expressionStatement hend).map fun rest _ => ?_
  exact ((hts.append _).append rest).stops (by decide)

theorem accepts_parameter {name : Token} (h : name.kind = .identifier) (depth : Nat) :
    Accepts depth [name] (.parameters [name]) := by
  refine fun _ => ⟨nofun, fun _ => ?_⟩
  have hname : Reads (expect .identifier .expectParameterName) [name] name (Stops []) :=
    reads_expect h
  have hloop := hname.loops (f := fun first => loop parameterTurn [first]) loops_start fun _ h => h
  rw [parameters_eq]
  exact reads_check_not.loops hloop fun rest _ => stops_cons h (by decide)

theorem accepts_parameters {names : List Token} {comma name : Token}
    (h : ∀ depth, Accepts depth ts (.parameters names)) (hne : names ≠ [])
    (hcomma : comma.kind = .comma) (hname : name.kind = .identifier) (depth : Nat) :
    Accepts depth (ts ++ [comma, name]) (.parameters (names ++ [name])) := by
  intro hlength
  rw [List.length_append, List.length_singleton] at hlength
  refine ⟨fun h => by simp at h, fun _ => ?_⟩
  refine Loops.again ((h depth (by omega)).2 hne) ?_ (List.cons_ne_nil _ _)
    fun rest hrest => hrest.before _
  refine .accept (by simp [hcomma]) ?_
  simp only [if_neg (show ¬ maxArguments ≤ names.length by omega)]
  exact .expect hname reads_pure

/-- The parameters end before the closing parenthesis. -/
theorem Accepts.parameters {names : List Token} (h : Accepts depth ts (.parameters names))
    (hlength : names.length ≤ maxArguments) :
    Reads Parser.parameters ts names (Opens [.rightParen]) := by
  obtain ⟨hnone, hsome⟩ := h hlength
  by_cases hnames : names = []
  · obtain rfl := hnone hnames
    subst hnames
    exact reads_check.bind reads_pure fun _ h => h
  · refine (hsome hnames).finish ?_ fun rest hrest => hrest.stops (by decide)
    exact .refuse reads_pure fun rest hrest => hrest.stops (by decide)

/-- The turn looks at the next token and ends the loop. -/
theorem reads_peek {kinds : List TokenKind} {f : Token → Parser α}
    (h : ∀ t, t.kind ∈ kinds → f t = Pure.pure a) : Reads (peek >>= f) [] a (Opens kinds) := by
  refine .inl fun rest hrest => ?_
  obtain ⟨t, us, rfl, ht⟩ := hrest
  have heq : (peek >>= f) ([] ++ t :: us) = f t (t :: us) :=
    bind_of_gives (gives_peek_iff.2 ⟨rfl, rfl⟩)
  rw [Gives, heq, h t ht]
  rfl

/-- The declarations of a block and its closing brace. -/
theorem Accepts.block {ns : List Node} {closing : Token}
    (h : ∀ depth, Accepts depth ts (.declarations ns)) (hclosing : closing.kind = .rightBrace)
    (depth : Nat) : Reads (Parser.block depth) (ts ++ [closing]) ns (Stops []) := by
  cases depth with
  | zero => exact reads_tooDeep
  | succ depth =>
    have hends : Reads (loop (blockTurn depth) []) ts ns (Opens [.rightBrace]) := by
      refine Loops.finish (h depth _ (by simp)) (reads_peek fun t ht => ?_)
        fun rest hrest => hrest.stops (by decide)
      rw [List.mem_singleton] at ht
      simp only [ht, true_or, if_true]
    exact hends.bind (.expect hclosing reads_pure)
      fun rest _ => ⟨closing, rest, rfl, by simp [hclosing]⟩

theorem accepts_function {name opening closing brace ending : Token} {params : List Token}
    {body : List Node} (hname : name.kind = .identifier) (hopening : opening.kind = .leftParen)
    (hparams : ∀ depth, Accepts depth ts (.parameters params))
    (hlength : params.length ≤ maxArguments) (hclosing : closing.kind = .rightParen)
    (hbrace : brace.kind = .leftBrace) (hbody : ∀ depth, Accepts depth us (.declarations body))
    (hending : ending.kind = .rightBrace) (depth : Nat) :
    Accepts depth (name :: opening :: (ts ++ closing :: brace :: (us ++ [ending])))
      (.function (.function name params body)) := by
  intro kind
  cases depth with
  | zero => exact reads_tooDeep
  | succ depth =>
    refine Reads.expect hname (.expect hopening ?_)
    refine ((hparams depth).parameters hlength).bind (.expect hclosing (.expect hbrace ?_))
      fun rest _ => ⟨closing, _, rfl, by simp [hclosing]⟩
    exact (Accepts.block hbody hending depth).last reads_pure fun _ h => h

theorem accepts_methods {ns : List Node} (hns : ∀ depth, Accepts depth ts (.methods ns))
    (hn : ∀ depth, Accepts depth us (.function n)) (hus : Opens [.identifier] us) (depth : Nat) :
    Accepts depth (ts ++ us) (.methods (ns ++ [n])) := by
  obtain ⟨t, us, rfl, ht⟩ := hus
  rw [List.mem_singleton] at ht
  refine Loops.again (hns depth) (.peek ?_) (List.cons_ne_nil _ _) fun rest hrest => hrest.before _
  simp only [ht, reduceCtorEq, or_self, if_false]
  exact (hn depth .method).last reads_pure fun _ h => h

theorem accepts_superclass {less name : Token} (hless : less.kind = .less)
    (hname : name.kind = .identifier) (depth : Nat) :
    Accepts depth [less, name] (.superclass (some (.ident ⟨name, none⟩))) :=
  Reads.accept (by simp [hless]) (.expect hname reads_pure)

/-! ## Statements -/

theorem accepts_expressionStatement {semicolon : Token}
    (h : ∀ depth, Accepts depth ts (.expression n)) (hts : Opens expressionStarts ts)
    (hend : semicolon.kind = .semicolon) (depth : Nat) :
    Accepts depth (ts ++ [semicolon]) (.statement (.expression n) false) := by
  cases depth with
  | zero => exact reads_tooDeep
  | succ depth =>
    refine Reads.refuse ((h depth).expressionStatement hend) fun rest _ => ?_
    exact ((hts.append _).append rest).stops (by decide)

/-- A statement is known by its first token. -/
theorem accepts_statement {token : Token} (hkind : token.kind ∈
      [TokenKind.forWord, .ifWord, .printWord, .returnWord, .whileWord, .leftBrace])
    (h : ∀ depth, Reads (statementFrom depth token) ts n (Stops (elseIf dangling))) (depth : Nat) :
    Accepts depth (token :: ts) (.statement n dangling) := by
  cases depth with
  | zero => exact reads_tooDeep
  | succ depth => exact Reads.accept hkind (h depth)

theorem accepts_print {keyword semicolon : Token} (hkeyword : keyword.kind = .printWord)
    (h : ∀ depth, Accepts depth ts (.expression n)) (hend : semicolon.kind = .semicolon) :
    ∀ depth, Accepts depth (keyword :: (ts ++ [semicolon])) (.statement (.print n) false) := by
  refine accepts_statement (by simp [hkeyword]) fun depth => ?_
  simp only [statementFrom, hkeyword]
  exact (h depth).before hend (by decide) (.expect hend reads_pure)

theorem accepts_returning {keyword semicolon : Token} {n : Option Node}
    (hkeyword : keyword.kind = .returnWord) (h : ∀ depth, Accepts depth ts (.optional n))
    (hend : semicolon.kind = .semicolon) :
    ∀ depth, Accepts depth (keyword :: (ts ++ [semicolon]))
      (.statement (.returning keyword n) false) := by
  refine accepts_statement (by simp [hkeyword]) fun depth => ?_
  simp only [statementFrom, hkeyword]
  exact (h depth).beforeOptional hend (by decide) (.expect hend reads_pure)

theorem accepts_block {opening closing : Token} {ns : List Node}
    (hopening : opening.kind = .leftBrace) (h : ∀ depth, Accepts depth ts (.declarations ns))
    (hclosing : closing.kind = .rightBrace) :
    ∀ depth, Accepts depth (opening :: (ts ++ [closing])) (.statement (.block ns) false) := by
  refine accepts_statement (by simp [hopening]) fun depth => ?_
  simp only [statementFrom, hopening]
  exact (Accepts.block h hclosing depth).map

theorem accepts_whileLoop {keyword opening closing : Token} {condition body : Node}
    (hkeyword : keyword.kind = .whileWord) (hopening : opening.kind = .leftParen)
    (hcondition : ∀ depth, Accepts depth ts (.expression condition))
    (hclosing : closing.kind = .rightParen)
    (hbody : ∀ depth, Accepts depth us (.statement body dangling)) :
    ∀ depth, Accepts depth (keyword :: opening :: (ts ++ closing :: us))
      (.statement (.loop condition body) dangling) := by
  refine accepts_statement (by simp [hkeyword]) fun depth => ?_
  simp only [statementFrom, hkeyword]
  cases depth with
  | zero => exact reads_tooDeep
  | succ depth =>
    refine .expect hopening ((hcondition depth).before hclosing (by decide) (.expect hclosing ?_))
    exact (hbody depth).last reads_pure fun _ h => h

theorem accepts_forLoop {keyword opening semicolon closing : Token}
    {initializer condition increment : Option Node} {body : Node} {vs ws : List Token}
    (hkeyword : keyword.kind = .forWord) (hopening : opening.kind = .leftParen)
    (hinitializer : ∀ depth, Accepts depth ts (.initializer initializer))
    (hcondition : ∀ depth, Accepts depth us (.optional condition))
    (hsemicolon : semicolon.kind = .semicolon)
    (hincrement : ∀ depth, Accepts depth vs (.optional increment))
    (hclosing : closing.kind = .rightParen)
    (hbody : ∀ depth, Accepts depth ws (.statement body dangling)) :
    ∀ depth, Accepts depth
      (keyword :: opening :: (ts ++ (us ++ semicolon :: (vs ++ closing :: ws))))
      (.statement (forTree initializer condition increment body) dangling) := by
  rw [← Node.forLoop_eq_forTree]
  refine accepts_statement (by simp [hkeyword]) fun depth => ?_
  simp only [statementFrom, hkeyword]
  cases depth with
  | zero => exact reads_tooDeep
  | succ depth =>
    refine .expect hopening ((hinitializer depth).bind ?_ fun rest hrest => hrest.before _)
    refine (hcondition depth).beforeOptional hsemicolon (by decide) (.expect hsemicolon ?_)
    refine (hincrement depth).beforeOptional hclosing (by decide) (.expect hclosing ?_)
    exact (hbody depth).last reads_pure fun _ h => h

theorem accepts_ifThen {keyword opening closing : Token} {condition thenBranch : Node}
    (hkeyword : keyword.kind = .ifWord) (hopening : opening.kind = .leftParen)
    (hcondition : ∀ depth, Accepts depth ts (.expression condition))
    (hclosing : closing.kind = .rightParen)
    (hthen : ∀ depth, Accepts depth us (.statement thenBranch dangling)) :
    ∀ depth, Accepts depth (keyword :: opening :: (ts ++ closing :: us))
      (.statement (.conditional condition thenBranch none) true) := by
  refine accepts_statement (by simp [hkeyword]) fun depth => ?_
  simp only [statementFrom, hkeyword]
  cases depth with
  | zero => exact reads_tooDeep
  | succ depth =>
    refine .expect hopening ((hcondition depth).before hclosing (by decide) (.expect hclosing ?_))
    refine (hthen depth).last (.refuse reads_pure fun _ h => h) fun rest hrest => hrest.mono ?_
    cases dangling <;> decide

theorem accepts_ifElse {keyword opening closing otherwise : Token}
    {condition thenBranch elseBranch : Node} {vs : List Token} (hkeyword : keyword.kind = .ifWord)
    (hopening : opening.kind = .leftParen)
    (hcondition : ∀ depth, Accepts depth ts (.expression condition))
    (hclosing : closing.kind = .rightParen)
    (hthen : ∀ depth, Accepts depth us (.statement thenBranch false))
    (hotherwise : otherwise.kind = .elseWord)
    (helse : ∀ depth, Accepts depth vs (.statement elseBranch dangling)) :
    ∀ depth, Accepts depth (keyword :: opening :: (ts ++ closing :: (us ++ otherwise :: vs)))
      (.statement (.conditional condition thenBranch (some elseBranch)) dangling) := by
  refine accepts_statement (by simp [hkeyword]) fun depth => ?_
  simp only [statementFrom, hkeyword]
  cases depth with
  | zero => exact reads_tooDeep
  | succ depth =>
    refine .expect hopening ((hcondition depth).before hclosing (by decide) (.expect hclosing ?_))
    refine (hthen depth).bind (.accept (by simp [hotherwise]) ?_) fun rest hrest => hrest.before _
    exact (helse depth).last reads_pure fun _ h => h

/-! ## Declarations -/

/-- A declaration that is no statement is known by its first token. -/
theorem accepts_declaration {token : Token}
    (hkind : token.kind ∈ [TokenKind.classWord, .funWord, .varWord])
    (h : ∀ depth, Reads (declarationFrom depth token) ts n (Stops [])) (depth : Nat) :
    Accepts depth (token :: ts) (.declaration n) := by
  cases depth with
  | zero => exact reads_tooDeep
  | succ depth => exact ((Reads.accept hkind (h depth)).mono fun rest hrest => hrest.some).recover

theorem accepts_classDeclaration {keyword name opening closing : Token} {parent : Option Node}
    {methods : List Node} (hkeyword : keyword.kind = .classWord) (hname : name.kind = .identifier)
    (hparent : ∀ depth, Accepts depth ts (.superclass parent))
    (hopening : opening.kind = .leftBrace)
    (hmethods : ∀ depth, Accepts depth us (.methods methods))
    (hclosing : closing.kind = .rightBrace) :
    ∀ depth, Accepts depth (keyword :: name :: (ts ++ opening :: (us ++ [closing])))
      (.declaration (.classDecl name parent methods)) := by
  refine accepts_declaration (by simp [hkeyword]) fun depth => ?_
  simp only [declarationFrom, hkeyword]
  cases depth with
  | zero => exact reads_tooDeep
  | succ depth =>
    have hends : Reads (loop (methodTurn depth) []) us methods (Opens [.rightBrace]) := by
      refine Loops.finish (hmethods depth) (reads_peek fun t ht => ?_)
        fun rest hrest => hrest.stops (by decide)
      rw [List.mem_singleton] at ht
      simp only [ht, or_true, if_true]
    refine .expect hname ((hparent depth).bind (.expect hopening ?_)
      fun rest _ => stops_cons hopening (by decide))
    exact hends.bind (.expect hclosing reads_pure)
      fun rest _ => ⟨closing, rest, rfl, by simp [hclosing]⟩

theorem accepts_functionDeclaration {keyword : Token} (hkeyword : keyword.kind = .funWord)
    (h : ∀ depth, Accepts depth ts (.function n)) :
    ∀ depth, Accepts depth (keyword :: ts) (.declaration n) := by
  refine accepts_declaration (by simp [hkeyword]) fun depth => ?_
  simp only [declarationFrom, hkeyword]
  exact h depth .function

theorem accepts_varDeclaration {keyword : Token} (hkeyword : keyword.kind = .varWord)
    (h : ∀ depth, Accepts depth ts (.binding n)) :
    ∀ depth, Accepts depth (keyword :: ts) (.declaration n) := by
  refine accepts_declaration (by simp [hkeyword]) fun depth => ?_
  simp only [declarationFrom, hkeyword]
  exact h depth

theorem accepts_statementDeclaration (h : ∀ depth, Accepts depth ts (.statement n dangling))
    (hts : Opens statementStarts ts) (depth : Nat) : Accepts depth ts (.declaration n) := by
  cases depth with
  | zero => exact reads_tooDeep
  | succ depth =>
    refine (Reads.refuse ((h depth).mono fun rest hrest => ?_) fun rest _ => ?_).recover
    · refine hrest.mono ?_
      cases dangling <;> decide
    · exact (hts.append rest).stops (by decide)

theorem accepts_declarations {ns : List Node} (hns : ∀ depth, Accepts depth ts (.declarations ns))
    (hn : ∀ depth, Accepts depth us (.declaration n)) (hus : Opens declarationStarts us)
    (depth : Nat) : Accepts depth (ts ++ us) (.declarations (ns ++ [n])) := by
  intro turn hturn
  obtain ⟨t, us, rfl, ht⟩ := hus
  have hbraces : t.kind ≠ .eof ∧ t.kind ≠ .rightBrace := by
    have : ∀ kind ∈ declarationStarts, kind ≠ .eof ∧ kind ≠ .rightBrace := by decide
    exact this _ ht
  have helse : ∀ kind ∈ declarationStarts, kind ∉ [TokenKind.elseWord] := by decide
  refine Loops.again (hns depth turn hturn) ?_ (List.cons_ne_nil _ _)
    fun rest _ => ⟨t, us ++ rest, rfl, helse _ ht⟩
  rcases List.mem_pair.1 hturn with rfl | rfl
  · refine .peek ?_
    simp only [hbraces.1, hbraces.2, or_self, if_false]
    exact (hn depth).last reads_pure fun _ h => h
  · refine .check_not ((hn depth).last reads_pure fun _ h => h)
      fun rest _ => ⟨t, us ++ rest, rfl, ?_⟩
    simpa using hbraces.1

end Statements

end Parser

open Lox.Parser

/-- The parser accepts what the grammar derives with each `else` at the nearest `if`. -/
theorem Derives.accepts {g : Phrase} {ts : List Token} (h : Derives true g ts) :
    ∀ depth, Accepts depth ts g := by
  induction h with
  | loose _ ih => exact accepts_loose ih
  | assign h heq _ ihTarget ihValue => exact accepts_assignment ihTarget h.starts heq ihValue rfl
  | setProperty h heq _ ihTarget ihValue =>
    exact accepts_assignment ihTarget h.starts heq ihValue rfl
  | ofConjunction _ ih => exact accepts_ofOperand .or ih
  | or _ hop _ ihLeft ihRight =>
    exact accepts_operation .or ihLeft (List.mem_singleton.2 hop) ihRight
  | ofEquality _ ih => exact accepts_ofOperand .and ih
  | and _ hop _ ihLeft ihRight =>
    exact accepts_operation .and ihLeft (List.mem_singleton.2 hop) ihRight
  | ofComparison _ ih => exact accepts_ofOperand .equality ih
  | equality _ hop _ ihLeft ihRight => exact accepts_operation .equality ihLeft hop ihRight
  | ofTerm _ ih => exact accepts_ofOperand .comparison ih
  | comparison _ hop _ ihLeft ihRight => exact accepts_operation .comparison ihLeft hop ihRight
  | ofFactor _ ih => exact accepts_ofOperand .term ih
  | term _ hop _ ihLeft ihRight => exact accepts_operation .term ihLeft hop ihRight
  | ofUnary _ ih => exact accepts_ofOperand .factor ih
  | factor _ hop _ ihLeft ihRight => exact accepts_operation .factor ihLeft hop ihRight
  | plain h ih => exact accepts_plain ih h.starts
  | negation hop _ ih => exact accepts_negation hop ih
  | single _ ih => exact accepts_single ih
  | call _ hopen _ hlength hclose ihCallee ihArguments =>
    exact accepts_call ihCallee hopen ihArguments hlength hclose
  | property _ hdot hname ih => exact accepts_property ih hdot hname
  | noArguments => exact fun depth _ => ⟨fun _ => rfl, fun h => absurd rfl h⟩
  | argument h ih => exact accepts_argument ih h.starts
  | arguments _ hne hcomma _ ihs ih => exact accepts_arguments ihs hne hcomma ih
  | no h | yes h | nil h | receiver h | ident h =>
    refine accepts_primary (by simp [h, primaryKinds]) fun depth => ?_
    simp only [primaryFrom, h]
    exact reads_pure
  | literal h =>
    refine accepts_primary ((by decide : [TokenKind.number, .string] ⊆ primaryKinds) h)
      fun depth => ?_
    rcases List.mem_pair.1 h with h | h <;>
    · simp only [primaryFrom, h]
      exact reads_pure
  | superMethod hkeyword hdot hmethod =>
    refine accepts_primary (by simp [hkeyword, primaryKinds]) fun depth => ?_
    simp only [primaryFrom, hkeyword]
    exact .expect hdot (.expect hmethod reads_pure)
  | group hopen _ hclose ih =>
    refine accepts_primary (by simp [hopen, primaryKinds]) fun depth => ?_
    simp only [primaryFrom, hopen]
    exact (ih depth).before hclose (by decide) (.expect hclose reads_pure)
  | absent => exact fun depth kind _ => reads_check.bind reads_pure fun _ h => h
  | present h ih => exact accepts_present ih h.starts
  | binding hname hend => exact accepts_binding hname hend
  | initialized hname heq _ hend ih => exact accepts_initialized hname heq ih hend
  | noInitializer h => exact accepts_noInitializer h
  | varInitializer hkeyword _ ih => exact accepts_varInitializer hkeyword ih
  | expressionInitializer h hend ih => exact accepts_expressionInitializer ih h.starts hend
  | noParameters => exact fun depth _ => ⟨fun _ => rfl, fun h => absurd rfl h⟩
  | parameter h => exact accepts_parameter h
  | parameters _ hne hcomma hname ih => exact accepts_parameters ih hne hcomma hname
  | function hname hopen _ hlength hclose hbrace _ hend ihParams ihBody =>
    exact accepts_function hname hopen ihParams hlength hclose hbrace ihBody hend
  | noMethods => exact fun depth => loops_start
  | methods _ h ihs ih => exact accepts_methods ihs ih h.starts
  | noSuperclass => exact fun depth => .refuse reads_pure fun _ h => h
  | superclass hless hname => exact accepts_superclass hless hname
  | expressionStatement h hend ih => exact accepts_expressionStatement ih h.starts hend
  | print hkeyword _ hend ih => exact accepts_print hkeyword ih hend
  | returning hkeyword _ hend ih => exact accepts_returning hkeyword ih hend
  | block hopen _ hclose ih => exact accepts_block hopen ih hclose
  | whileLoop hkeyword hopen _ hclose _ ihCondition ihBody =>
    exact accepts_whileLoop hkeyword hopen ihCondition hclose ihBody
  | forLoop hkeyword hopen _ _ hsemicolon _ hclose _ ihInitializer ihCondition ihIncrement ihBody =>
    exact accepts_forLoop hkeyword hopen ihInitializer ihCondition hsemicolon ihIncrement hclose
      ihBody
  | ifThen hkeyword hopen _ hclose _ ihCondition ihThen =>
    exact accepts_ifThen hkeyword hopen ihCondition hclose ihThen
  | ifElse hkeyword hopen _ hclose _ hfree hword _ ihCondition ihThen ihElse =>
    obtain rfl := hfree rfl
    exact accepts_ifElse hkeyword hopen ihCondition hclose ihThen hword ihElse
  | classDeclaration hkeyword hname _ hopen _ hclose ihParent ihMethods =>
    exact accepts_classDeclaration hkeyword hname ihParent hopen ihMethods hclose
  | functionDeclaration hkeyword _ ih => exact accepts_functionDeclaration hkeyword ih
  | varDeclaration hkeyword _ ih => exact accepts_varDeclaration hkeyword ih
  | statement h ih => exact accepts_statementDeclaration ih h.starts
  | noDeclarations => exact fun depth turn _ => loops_start
  | declarations _ h ihs ih => exact accepts_declarations ihs ih h.starts

namespace Parser

variable {tokens body : List Token} {last : Token} {depth : Nat}

/-- The body of the tokens is what stands before the first end of source. -/
theorem body_eq {ts us : List Token} {other : Token} (hbody : ∀ t ∈ body, t.kind ≠ .eof)
    (hother : other.kind = .eof) (hts : ∀ t ∈ ts, t.kind ≠ .eof)
    (h : body ++ [last] = ts ++ other :: us) : ts = body ∧ us = [] := by
  rcases List.append_eq_append_iff.1 h with ⟨vs, rfl, hvs⟩ | ⟨vs, rfl, hvs⟩
  · cases vs with
    | nil =>
      obtain ⟨-, rfl⟩ := List.cons.inj hvs
      exact ⟨List.append_nil _, rfl⟩
    | cons v vs =>
      obtain ⟨-, hnil⟩ := List.cons.inj hvs
      simp at hnil
  · cases vs with
    | nil =>
      obtain ⟨-, rfl⟩ := List.cons.inj hvs
      exact ⟨(List.append_nil _).symm, rfl⟩
    | cons v vs =>
      obtain ⟨rfl, -⟩ := List.cons.inj hvs
      exact absurd hother (hbody _ (by simp))

/-- What is read without complaint up to the end of source is derived. -/
theorem derives_of_gives (nearest : Bool) {ns : List Node} {rest : List Token}
    (hlast : last.kind = .eof) (hbody : ∀ t ∈ body, t.kind ≠ .eof)
    (h : (program depth).Gives (body ++ [last]) ns rest) :
    Derives nearest (.declarations ns) body ∧ rest = [last] := by
  obtain ⟨ts, other, us, htokens, rfl, hderives, hother⟩ :=
    program_derived nearest ⟨last, by simp, hlast⟩ h
  obtain ⟨rfl, rfl⟩ := body_eq hbody hother hderives.not_eof htokens
  obtain ⟨rfl⟩ : last = other := by simpa using htokens
  exact ⟨hderives, rfl⟩

/-- What is derived is read up to the end of source, if the depth is enough. -/
theorem program_of_derives {ns : List Node} (hlast : last.kind = .eof)
    (h : Derives true (.declarations ns) body) :
    (program depth).Gives (body ++ [last]) ns [last] ∨
      program depth (body ++ [last]) = ⟨[], .tooDeep⟩ := by
  have hloops := h.accepts depth (programTurn depth) (by simp)
  have hturn : Reads (programTurn depth ns) [] (.inr ns) (Opens [.eof]) :=
    reads_check.bind reads_pure fun _ h => h
  have hreads : Reads (program depth) body ns (Opens [.eof]) :=
    hloops.finish hturn fun rest hrest => hrest.stops (by decide)
  have hopens : Opens [.eof] [last] := ⟨last, [], rfl, by simp [hlast]⟩
  exact hreads.imp (fun h => h _ hopens) fun h => h _ hopens

/-- Without complaint the program was read, or it is nested too deep. -/
theorem gives_of_complaints (h : Ended tokens)
    (hcomplaints : (program depth tokens).complaints = [])
    (hdeep : (program depth tokens).result ≠ .tooDeep) :
    ∃ ns rest, (program depth).Gives tokens ns rest := by
  have hgoes := program_goes depth h
  unfold Goes at hgoes
  unfold Gives
  rcases hreply : program depth tokens with ⟨complaints, ⟨ns, rest⟩ | rest | _ | _⟩ <;>
    rw [hreply] at hgoes hcomplaints hdeep
  · obtain rfl : complaints = [] := hcomplaints
    exact ⟨ns, rest, rfl⟩
  · exact absurd hcomplaints hgoes.2
  · exact hgoes.elim
  · exact absurd rfl hdeep

/-- The program is read without complaint just when it is derived. The tree is then that of the one
derivation with each `else` at the nearest `if`. A depth of ten times the number of tokens and
twelve more is always enough. -/
theorem program_accepts_iff (depth : Nat) (body : List Token) (last : Token)
    (hlast : last.kind = .eof) (hbody : ∀ t ∈ body, t.kind ≠ .eof) :
    (10 * (body ++ [last]).length + 12 ≤ depth →
      (program depth (body ++ [last])).result ≠ .tooDeep) ∧
    ((program depth (body ++ [last])).result ≠ .tooDeep →
      ((program depth (body ++ [last])).complaints = [] ↔
        ∃ ns, Derives false (.declarations ns) body) ∧
      (∀ ns, program depth (body ++ [last]) = ⟨[], .ok ns [last]⟩ ↔
        Derives true (.declarations ns) body) ∧
      ((∃ ns, Derives false (.declarations ns) body) →
        ∃! ns, Derives true (.declarations ns) body)) := by
  have hended : Ended (body ++ [last]) := ⟨last, by simp, hlast⟩
  refine ⟨fun hdepth htooDeep => ?_, fun hdeep => ?_⟩
  · have hgoes := program_goes depth hended
    unfold Goes at hgoes
    rcases hreply : program depth (body ++ [last]) with ⟨complaints, result⟩
    rw [hreply] at hgoes htooDeep
    obtain rfl : result = .tooDeep := htooDeep
    exact absurd hdepth (Nat.not_le.2 hgoes)
  have hread : ∀ ns, Derives true (.declarations ns) body →
      program depth (body ++ [last]) = ⟨[], .ok ns [last]⟩ := fun ns h =>
    (program_of_derives hlast h).resolve_right fun htooDeep => hdeep (by rw [htooDeep])
  have htree : (∃ ns, Derives false (.declarations ns) body) →
      ∃ ns, Derives true (.declarations ns) body := fun ⟨ns, h⟩ => h.toNearest
  refine ⟨⟨fun hnone => ?_, fun h => ?_⟩, fun ns => ⟨fun h => ?_, hread ns⟩, fun h => ?_⟩
  · obtain ⟨ns, rest, hgives⟩ := gives_of_complaints hended hnone hdeep
    exact ⟨ns, (derives_of_gives false hlast hbody hgives).1⟩
  · obtain ⟨ns, hns⟩ := htree h
    rw [hread ns hns]
  · exact (derives_of_gives true hlast hbody h).1
  · obtain ⟨ns, hns⟩ := htree h
    refine ⟨ns, hns, fun other hother => ?_⟩
    have heq := (hread other hother).symm.trans (hread ns hns)
    simpa using heq

theorem program_accepts_dangling_else :
    let body := (scan "if (a) if (b) c; else d;").tokens.dropLast
    (∃ ns, Derives false (.declarations ns) body) ∧
      ∃! ns, Derives true (.declarations ns) body := by
  intro body
  obtain ⟨hdeep, h⟩ := program_accepts_iff 160 body ⟨.eof, "", .nil, 1⟩ rfl (by decide +kernel)
  obtain ⟨hiff, -, hunique⟩ := h (hdeep (by decide +kernel))
  have hderives := hiff.1 (by decide +kernel)
  exact ⟨hderives, hunique hderives⟩

end Parser

end Lox
