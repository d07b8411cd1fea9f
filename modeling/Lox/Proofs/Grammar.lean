import Mathlib.Tactic
import Lox.Tree

/-!
# The grammar

A `Phrase` is a category of the grammar together with the tree of a phrase of it, and `Derives` has
one rule for each way to make up a phrase of its parts. Nothing here says how a phrase is found, and
no table of the parser is used: each level of binary operators has rules of its own that name its
kinds of token, the level of its operands and its tree.

The grammar leaves open to which of several `if`s an `else` belongs. A statement that ends in an
`if` without an `else` is dangling, and when each `else` is to belong to the nearest `if` no
dangling statement may stand before it. What has a derivation has one of this sort
(`Derives.toNearest`): the `else` is moved in to the last `if` that is open (`Derives.attach`).
-/

namespace Lox

/-- A category of the grammar and the tree of a phrase of it. -/
inductive Phrase where
  | expression (tree : Node)
  /-- A chain of `or`. -/
  | disjunction (tree : Node)
  /-- A chain of `and`. -/
  | conjunction (tree : Node)
  /-- A chain of `!=` and `==`. -/
  | equality (tree : Node)
  /-- A chain of `>`, `>=`, `<` and `<=`. -/
  | comparison (tree : Node)
  /-- A chain of `-` and `+`. -/
  | term (tree : Node)
  /-- A chain of `/` and `*`. -/
  | factor (tree : Node)
  | unary (tree : Node)
  /-- Calls and properties, one after the other. -/
  | access (tree : Node)
  | primary (tree : Node)
  | arguments (trees : List Node)
  /-- An expression that may be absent. -/
  | optional (tree : Option Node)
  /-- What comes after `var`. -/
  | binding (tree : Node)
  /-- What a `for` loop starts with. -/
  | initializer (tree : Option Node)
  | parameters (names : List Token)
  /-- A method, or what comes after `fun`. -/
  | function (tree : Node)
  | methods (trees : List Node)
  | superclass (parent : Option Node)
  | statement (tree : Node) (dangling : Bool)
  | declaration (tree : Node)
  | declarations (trees : List Node)

/-- The tree of a `for` loop with the clauses that it has. Where no condition is, `true` stands. -/
def forTree : (initializer condition increment : Option Node) → (body : Node) → Node
  | none, none, none, body => .loop (.literal (.bool true)) body
  | none, none, some increment, body =>
    .loop (.literal (.bool true)) (.block [body, .expression increment])
  | none, some condition, none, body => .loop condition body
  | none, some condition, some increment, body =>
    .loop condition (.block [body, .expression increment])
  | some initializer, none, none, body =>
    .block [initializer, .loop (.literal (.bool true)) body]
  | some initializer, none, some increment, body =>
    .block [initializer,
      .loop (.literal (.bool true)) (.block [body, .expression increment])]
  | some initializer, some condition, none, body =>
    .block [initializer, .loop condition body]
  | some initializer, some condition, some increment, body =>
    .block [initializer, .loop condition (.block [body, .expression increment])]

/-- The tokens make up the phrase, and if `nearest` each `else` belongs to the nearest `if`. -/
inductive Derives (nearest : Bool) : Phrase → List Token → Prop
  -- Assignment binds weakest, and to the right.
  | loose {n : Node} {ts : List Token} :
    Derives nearest (.disjunction n) ts → Derives nearest (.expression n) ts
  | assign {target : Reference} {equals : Token} {value : Node} {ts us : List Token} :
    Derives nearest (.access (.ident target)) ts → equals.kind = .equal →
    Derives nearest (.expression value) us →
    Derives nearest (.expression (.assign target value)) (ts ++ equals :: us)
  | setProperty {object : Node} {name equals : Token} {value : Node} {ts us : List Token} :
    Derives nearest (.access (.property object name)) ts → equals.kind = .equal →
    Derives nearest (.expression value) us →
    Derives nearest (.expression (.setProperty object name value)) (ts ++ equals :: us)
  -- Binary operators bind to the left, those of a level tighter than those of the levels before.
  | ofConjunction {n : Node} {ts : List Token} :
    Derives nearest (.conjunction n) ts → Derives nearest (.disjunction n) ts
  | or {left right : Node} {operator : Token} {ts us : List Token} :
    Derives nearest (.disjunction left) ts → operator.kind = .orWord →
    Derives nearest (.conjunction right) us →
    Derives nearest (.disjunction (.logical left operator right)) (ts ++ operator :: us)
  | ofEquality {n : Node} {ts : List Token} :
    Derives nearest (.equality n) ts → Derives nearest (.conjunction n) ts
  | and {left right : Node} {operator : Token} {ts us : List Token} :
    Derives nearest (.conjunction left) ts → operator.kind = .andWord →
    Derives nearest (.equality right) us →
    Derives nearest (.conjunction (.logical left operator right)) (ts ++ operator :: us)
  | ofComparison {n : Node} {ts : List Token} :
    Derives nearest (.comparison n) ts → Derives nearest (.equality n) ts
  | equality {left right : Node} {operator : Token} {ts us : List Token} :
    Derives nearest (.equality left) ts → operator.kind ∈ [.bangEqual, .equalEqual] →
    Derives nearest (.comparison right) us →
    Derives nearest (.equality (.binary left operator right)) (ts ++ operator :: us)
  | ofTerm {n : Node} {ts : List Token} :
    Derives nearest (.term n) ts → Derives nearest (.comparison n) ts
  | comparison {left right : Node} {operator : Token} {ts us : List Token} :
    Derives nearest (.comparison left) ts →
    operator.kind ∈ [.greater, .greaterEqual, .less, .lessEqual] →
    Derives nearest (.term right) us →
    Derives nearest (.comparison (.binary left operator right)) (ts ++ operator :: us)
  | ofFactor {n : Node} {ts : List Token} :
    Derives nearest (.factor n) ts → Derives nearest (.term n) ts
  | term {left right : Node} {operator : Token} {ts us : List Token} :
    Derives nearest (.term left) ts → operator.kind ∈ [.minus, .plus] →
    Derives nearest (.factor right) us →
    Derives nearest (.term (.binary left operator right)) (ts ++ operator :: us)
  | ofUnary {n : Node} {ts : List Token} :
    Derives nearest (.unary n) ts → Derives nearest (.factor n) ts
  | factor {left right : Node} {operator : Token} {ts us : List Token} :
    Derives nearest (.factor left) ts → operator.kind ∈ [.slash, .star] →
    Derives nearest (.unary right) us →
    Derives nearest (.factor (.binary left operator right)) (ts ++ operator :: us)
  | plain {n : Node} {ts : List Token} :
    Derives nearest (.access n) ts → Derives nearest (.unary n) ts
  | negation {operator : Token} {right : Node} {ts : List Token} :
    operator.kind ∈ [.bang, .minus] → Derives nearest (.unary right) ts →
    Derives nearest (.unary (.unary operator right)) (operator :: ts)
  | single {n : Node} {ts : List Token} :
    Derives nearest (.primary n) ts → Derives nearest (.access n) ts
  | call {callee : Node} {opening closing : Token} {arguments : List Node} {ts us : List Token} :
    Derives nearest (.access callee) ts → opening.kind = .leftParen →
    Derives nearest (.arguments arguments) us → arguments.length ≤ 255 →
    closing.kind = .rightParen →
    Derives nearest (.access (.call callee closing arguments)) (ts ++ opening :: (us ++ [closing]))
  | property {object : Node} {dot name : Token} {ts : List Token} :
    Derives nearest (.access object) ts → dot.kind = .dot → name.kind = .identifier →
    Derives nearest (.access (.property object name)) (ts ++ [dot, name])
  | noArguments : Derives nearest (.arguments []) []
  | argument {n : Node} {ts : List Token} :
    Derives nearest (.expression n) ts → Derives nearest (.arguments [n]) ts
  | arguments {ns : List Node} {comma : Token} {n : Node} {ts us : List Token} :
    Derives nearest (.arguments ns) ts → ns ≠ [] → comma.kind = .comma →
    Derives nearest (.expression n) us →
    Derives nearest (.arguments (ns ++ [n])) (ts ++ comma :: us)
  -- Primaries.
  | no {t : Token} : t.kind = .falseWord → Derives nearest (.primary (.literal (.bool false))) [t]
  | yes {t : Token} : t.kind = .trueWord → Derives nearest (.primary (.literal (.bool true))) [t]
  | nil {t : Token} : t.kind = .nilWord → Derives nearest (.primary (.literal .nil)) [t]
  | literal {t : Token} :
    t.kind ∈ [.number, .string] → Derives nearest (.primary (.literal t.literal)) [t]
  | superMethod {keyword dot method : Token} : keyword.kind = .superWord → dot.kind = .dot →
    method.kind = .identifier →
    Derives nearest (.primary (.superMethod ⟨keyword, none⟩ method)) [keyword, dot, method]
  | receiver {keyword : Token} :
    keyword.kind = .thisWord → Derives nearest (.primary (.receiver ⟨keyword, none⟩)) [keyword]
  | ident {name : Token} :
    name.kind = .identifier → Derives nearest (.primary (.ident ⟨name, none⟩)) [name]
  | group {opening closing : Token} {inner : Node} {ts : List Token} : opening.kind = .leftParen →
    Derives nearest (.expression inner) ts → closing.kind = .rightParen →
    Derives nearest (.primary (.group inner)) (opening :: (ts ++ [closing]))
  -- Parts of statements.
  | absent : Derives nearest (.optional none) []
  | present {n : Node} {ts : List Token} :
    Derives nearest (.expression n) ts → Derives nearest (.optional (some n)) ts
  | binding {name semicolon : Token} : name.kind = .identifier → semicolon.kind = .semicolon →
    Derives nearest (.binding (.varDecl name none)) [name, semicolon]
  | initialized {name equals semicolon : Token} {n : Node} {ts : List Token} :
    name.kind = .identifier → equals.kind = .equal → Derives nearest (.expression n) ts →
    semicolon.kind = .semicolon →
    Derives nearest (.binding (.varDecl name (some n))) (name :: equals :: (ts ++ [semicolon]))
  | noInitializer {semicolon : Token} :
    semicolon.kind = .semicolon → Derives nearest (.initializer none) [semicolon]
  | varInitializer {keyword : Token} {n : Node} {ts : List Token} : keyword.kind = .varWord →
    Derives nearest (.binding n) ts → Derives nearest (.initializer (some n)) (keyword :: ts)
  | expressionInitializer {n : Node} {semicolon : Token} {ts : List Token} :
    Derives nearest (.expression n) ts → semicolon.kind = .semicolon →
    Derives nearest (.initializer (some (.expression n))) (ts ++ [semicolon])
  | noParameters : Derives nearest (.parameters []) []
  | parameter {name : Token} : name.kind = .identifier → Derives nearest (.parameters [name]) [name]
  | parameters {names : List Token} {comma name : Token} {ts : List Token} :
    Derives nearest (.parameters names) ts → names ≠ [] → comma.kind = .comma →
    name.kind = .identifier → Derives nearest (.parameters (names ++ [name])) (ts ++ [comma, name])
  | function {name opening closing brace ending : Token} {params : List Token} {body : List Node}
    {ts us : List Token} : name.kind = .identifier → opening.kind = .leftParen →
    Derives nearest (.parameters params) ts → params.length ≤ 255 →
    closing.kind = .rightParen → brace.kind = .leftBrace → Derives nearest (.declarations body) us →
    ending.kind = .rightBrace → Derives nearest (.function (.function name params body))
      (name :: opening :: (ts ++ closing :: brace :: (us ++ [ending])))
  | noMethods : Derives nearest (.methods []) []
  | methods {ns : List Node} {n : Node} {ts us : List Token} :
    Derives nearest (.methods ns) ts → Derives nearest (.function n) us →
    Derives nearest (.methods (ns ++ [n])) (ts ++ us)
  | noSuperclass : Derives nearest (.superclass none) []
  | superclass {less name : Token} : less.kind = .less → name.kind = .identifier →
    Derives nearest (.superclass (some (.ident ⟨name, none⟩))) [less, name]
  -- Statements.
  | expressionStatement {n : Node} {semicolon : Token} {ts : List Token} :
    Derives nearest (.expression n) ts → semicolon.kind = .semicolon →
    Derives nearest (.statement (.expression n) false) (ts ++ [semicolon])
  | print {keyword semicolon : Token} {n : Node} {ts : List Token} : keyword.kind = .printWord →
    Derives nearest (.expression n) ts → semicolon.kind = .semicolon →
    Derives nearest (.statement (.print n) false) (keyword :: (ts ++ [semicolon]))
  | returning {keyword semicolon : Token} {n : Option Node} {ts : List Token} :
    keyword.kind = .returnWord → Derives nearest (.optional n) ts → semicolon.kind = .semicolon →
    Derives nearest (.statement (.returning keyword n) false) (keyword :: (ts ++ [semicolon]))
  | block {opening closing : Token} {ns : List Node} {ts : List Token} :
    opening.kind = .leftBrace → Derives nearest (.declarations ns) ts → closing.kind = .rightBrace →
    Derives nearest (.statement (.block ns) false) (opening :: (ts ++ [closing]))
  | whileLoop {keyword opening closing : Token} {condition body : Node} {dangling : Bool}
    {ts us : List Token} : keyword.kind = .whileWord → opening.kind = .leftParen →
    Derives nearest (.expression condition) ts → closing.kind = .rightParen →
    Derives nearest (.statement body dangling) us →
    Derives nearest (.statement (.loop condition body) dangling)
      (keyword :: opening :: (ts ++ closing :: us))
  | forLoop {keyword opening semicolon closing : Token}
    {initializer condition increment : Option Node} {body : Node} {dangling : Bool}
    {ts us vs ws : List Token} : keyword.kind = .forWord → opening.kind = .leftParen →
    Derives nearest (.initializer initializer) ts → Derives nearest (.optional condition) us →
    semicolon.kind = .semicolon → Derives nearest (.optional increment) vs →
    closing.kind = .rightParen → Derives nearest (.statement body dangling) ws →
    Derives nearest (.statement (forTree initializer condition increment body) dangling)
      (keyword :: opening :: (ts ++ (us ++ semicolon :: (vs ++ closing :: ws))))
  | ifThen {keyword opening closing : Token} {condition thenBranch : Node} {dangling : Bool}
    {ts us : List Token} : keyword.kind = .ifWord → opening.kind = .leftParen →
    Derives nearest (.expression condition) ts → closing.kind = .rightParen →
    Derives nearest (.statement thenBranch dangling) us →
    Derives nearest (.statement (.conditional condition thenBranch none) true)
      (keyword :: opening :: (ts ++ closing :: us))
  | ifElse {keyword opening closing otherwise : Token} {condition thenBranch elseBranch : Node}
    {dangling dangling' : Bool} {ts us vs : List Token} : keyword.kind = .ifWord →
    opening.kind = .leftParen → Derives nearest (.expression condition) ts →
    closing.kind = .rightParen → Derives nearest (.statement thenBranch dangling) us →
    (nearest = true → dangling = false) → otherwise.kind = .elseWord →
    Derives nearest (.statement elseBranch dangling') vs →
    Derives nearest (.statement (.conditional condition thenBranch (some elseBranch)) dangling')
      (keyword :: opening :: (ts ++ closing :: (us ++ otherwise :: vs)))
  -- Declarations.
  | classDeclaration {keyword name opening closing : Token} {parent : Option Node}
    {methods : List Node} {ts us : List Token} : keyword.kind = .classWord →
    name.kind = .identifier → Derives nearest (.superclass parent) ts →
    opening.kind = .leftBrace → Derives nearest (.methods methods) us →
    closing.kind = .rightBrace → Derives nearest (.declaration (.classDecl name parent methods))
      (keyword :: name :: (ts ++ opening :: (us ++ [closing])))
  | functionDeclaration {keyword : Token} {n : Node} {ts : List Token} :
    keyword.kind = .funWord → Derives nearest (.function n) ts →
    Derives nearest (.declaration n) (keyword :: ts)
  | varDeclaration {keyword : Token} {n : Node} {ts : List Token} :
    keyword.kind = .varWord → Derives nearest (.binding n) ts →
    Derives nearest (.declaration n) (keyword :: ts)
  | statement {n : Node} {dangling : Bool} {ts : List Token} :
    Derives nearest (.statement n dangling) ts → Derives nearest (.declaration n) ts
  | noDeclarations : Derives nearest (.declarations []) []
  | declarations {ns : List Node} {n : Node} {ts us : List Token} :
    Derives nearest (.declarations ns) ts → Derives nearest (.declaration n) us →
    Derives nearest (.declarations (ns ++ [n])) (ts ++ us)

namespace Derives

/-- The end of source is in no phrase. -/
theorem not_eof {nearest : Bool} {g : Phrase} {ts : List Token} (h : Derives nearest g ts) :
    ∀ t ∈ ts, t.kind ≠ .eof := by
  induction h <;> grind

/-! ## An else at the nearest if -/

theorem of_eq {nearest : Bool} {g : Phrase} {ts us : List Token} (h : Derives nearest g ts)
    (heq : ts = us) : Derives nearest g us := heq ▸ h

/-- An `else` after a dangling statement can belong to an `if` in it. -/
theorem attach {n elseBranch : Node} {dangling : Bool} {otherwise : Token} {ts us : List Token}
    (h : Derives true (.statement n true) ts) (hword : otherwise.kind = .elseWord)
    (helse : Derives true (.statement elseBranch dangling) us) :
    ∃ n' dangling', Derives true (.statement n' dangling') (ts ++ otherwise :: us) := by
  generalize hphrase : Phrase.statement n true = phrase at h
  induction h generalizing n with
  | whileLoop hkeyword hopening hcondition hclosing _ _ ih =>
    cases hphrase
    obtain ⟨body', dangling', hbody⟩ := ih rfl
    exact ⟨_, _, (whileLoop hkeyword hopening hcondition hclosing hbody).of_eq (by simp)⟩
  | forLoop hkeyword hopening hinitializer hcondition hsemicolon hincrement hclosing _ _ _ _ ih =>
    cases hphrase
    obtain ⟨body', dangling', hbody⟩ := ih rfl
    exact ⟨_, _, (forLoop hkeyword hopening hinitializer hcondition hsemicolon hincrement hclosing
      hbody).of_eq (by simp)⟩
  | @ifThen _ _ _ _ _ danglingThen _ _ hkeyword hopening hcondition hclosing hthen _ ih =>
    cases danglingThen with
    | false =>
      exact ⟨_, _, (ifElse hkeyword hopening hcondition hclosing hthen (fun _ => rfl) hword
        helse).of_eq (by simp)⟩
    | true =>
      obtain ⟨then', dangling', hthen'⟩ := ih rfl
      exact ⟨_, _, (ifThen hkeyword hopening hcondition hclosing hthen').of_eq (by simp)⟩
  | ifElse hkeyword hopening hcondition hclosing hthen hfree hword' _ _ _ ih =>
    cases hphrase
    obtain ⟨else', dangling', helse'⟩ := ih rfl
    exact ⟨_, _, (ifElse hkeyword hopening hcondition hclosing hthen hfree hword'
      helse').of_eq (by simp)⟩
  | _ => cases hphrase

end Derives

/-- The tokens make up a phrase of the category with each `else` at the nearest `if`. Only what has
statements in it can have another tree then. -/
def Phrase.Nearest (ts : List Token) : Phrase → Prop
  | .statement _ _ => ∃ n dangling, Derives true (.statement n dangling) ts
  | .declaration _ => ∃ n, Derives true (.declaration n) ts
  | .declarations _ => ∃ ns, Derives true (.declarations ns) ts
  | .function _ => ∃ n, Derives true (.function n) ts
  | .methods _ => ∃ ns, Derives true (.methods ns) ts
  | g => Derives true g ts

namespace Derives

/-- What the grammar derives it derives with each `else` at the nearest `if`. -/
theorem toNearest {nearest : Bool} {g : Phrase} {ts : List Token} (h : Derives nearest g ts) :
    g.Nearest ts := by
  induction h with
  | loose _ ih => exact .loose ih
  | assign _ heq _ ihTarget ihValue => exact .assign ihTarget heq ihValue
  | setProperty _ heq _ ihTarget ihValue => exact .setProperty ihTarget heq ihValue
  | ofConjunction _ ih => exact .ofConjunction ih
  | or _ hop _ ihLeft ihRight => exact .or ihLeft hop ihRight
  | ofEquality _ ih => exact .ofEquality ih
  | and _ hop _ ihLeft ihRight => exact .and ihLeft hop ihRight
  | ofComparison _ ih => exact .ofComparison ih
  | equality _ hop _ ihLeft ihRight => exact .equality ihLeft hop ihRight
  | ofTerm _ ih => exact .ofTerm ih
  | comparison _ hop _ ihLeft ihRight => exact .comparison ihLeft hop ihRight
  | ofFactor _ ih => exact .ofFactor ih
  | term _ hop _ ihLeft ihRight => exact .term ihLeft hop ihRight
  | ofUnary _ ih => exact .ofUnary ih
  | factor _ hop _ ihLeft ihRight => exact .factor ihLeft hop ihRight
  | plain _ ih => exact .plain ih
  | negation hop _ ih => exact .negation hop ih
  | single _ ih => exact .single ih
  | call _ hopen _ hlength hclose ihCallee ihArguments =>
    exact .call ihCallee hopen ihArguments hlength hclose
  | property _ hdot hname ih => exact .property ih hdot hname
  | noArguments => exact .noArguments
  | argument _ ih => exact .argument ih
  | arguments _ hne hcomma _ ihs ih => exact .arguments ihs hne hcomma ih
  | no h => exact .no h
  | yes h => exact .yes h
  | nil h => exact .nil h
  | literal h => exact .literal h
  | superMethod hkeyword hdot hmethod => exact .superMethod hkeyword hdot hmethod
  | receiver h => exact .receiver h
  | ident h => exact .ident h
  | group hopen _ hclose ih => exact .group hopen ih hclose
  | absent => exact .absent
  | present _ ih => exact .present ih
  | binding hname hend => exact .binding hname hend
  | initialized hname heq _ hend ih => exact .initialized hname heq ih hend
  | noInitializer h => exact .noInitializer h
  | varInitializer hkeyword _ ih => exact .varInitializer hkeyword ih
  | expressionInitializer _ hend ih => exact .expressionInitializer ih hend
  | noParameters => exact .noParameters
  | parameter h => exact .parameter h
  | parameters _ hne hcomma hname ih => exact .parameters ih hne hcomma hname
  | function hname hopen _ hlength hclose hbrace _ hend ihParams ihBody =>
    obtain ⟨body', hbody⟩ := ihBody
    exact ⟨_, .function hname hopen ihParams hlength hclose hbrace hbody hend⟩
  | noMethods => exact ⟨_, .noMethods⟩
  | methods _ _ ihs ih =>
    obtain ⟨ns', hns⟩ := ihs
    obtain ⟨n', hn⟩ := ih
    exact ⟨_, .methods hns hn⟩
  | noSuperclass => exact .noSuperclass
  | superclass hless hname => exact .superclass hless hname
  | expressionStatement _ hend ih => exact ⟨_, _, .expressionStatement ih hend⟩
  | print hkeyword _ hend ih => exact ⟨_, _, .print hkeyword ih hend⟩
  | returning hkeyword _ hend ih => exact ⟨_, _, .returning hkeyword ih hend⟩
  | block hopen _ hclose ih =>
    obtain ⟨ns', hns⟩ := ih
    exact ⟨_, _, .block hopen hns hclose⟩
  | whileLoop hkeyword hopen _ hclose _ ihCondition ihBody =>
    obtain ⟨body', dangling', hbody⟩ := ihBody
    exact ⟨_, _, .whileLoop hkeyword hopen ihCondition hclose hbody⟩
  | forLoop hkeyword hopen _ _ hsemicolon _ hclose _ ihInitializer ihCondition ihIncrement ihBody =>
    obtain ⟨body', dangling', hbody⟩ := ihBody
    exact ⟨_, _, .forLoop hkeyword hopen ihInitializer ihCondition hsemicolon ihIncrement hclose
      hbody⟩
  | ifThen hkeyword hopen _ hclose _ ihCondition ihThen =>
    obtain ⟨then', dangling', hthen⟩ := ihThen
    exact ⟨_, _, .ifThen hkeyword hopen ihCondition hclose hthen⟩
  | ifElse hkeyword hopen _ hclose _ _ hword _ ihCondition ihThen ihElse =>
    obtain ⟨then', dangling, hthen⟩ := ihThen
    obtain ⟨else', dangling', helse⟩ := ihElse
    cases dangling with
    | false =>
      exact ⟨_, _, .ifElse hkeyword hopen ihCondition hclose hthen (fun _ => rfl) hword helse⟩
    | true =>
      obtain ⟨whole, dangling'', hwhole⟩ := hthen.attach hword helse
      exact ⟨_, _, .ifThen hkeyword hopen ihCondition hclose hwhole⟩
  | classDeclaration hkeyword hname _ hopen _ hclose ihParent ihMethods =>
    obtain ⟨methods', hmethods⟩ := ihMethods
    exact ⟨_, .classDeclaration hkeyword hname ihParent hopen hmethods hclose⟩
  | functionDeclaration hkeyword _ ih =>
    obtain ⟨n', hn⟩ := ih
    exact ⟨_, .functionDeclaration hkeyword hn⟩
  | varDeclaration hkeyword _ ih => exact ⟨_, .varDeclaration hkeyword ih⟩
  | statement _ ih =>
    obtain ⟨n', dangling', hn⟩ := ih
    exact ⟨_, .statement hn⟩
  | noDeclarations => exact ⟨_, .noDeclarations⟩
  | declarations _ _ ihs ih =>
    obtain ⟨ns', hns⟩ := ihs
    obtain ⟨n', hn⟩ := ih
    exact ⟨_, .declarations hns hn⟩

end Derives

end Lox
