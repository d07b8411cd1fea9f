import Mathlib.Tactic
import Lox.Proofs.Mapped

/-!
# Renaming a local variable

A local variable is bound in a scope, which is that of a block or of a function, and is known by the
way from the top down to it. To rename the variable is to change its declaration and the variables
and assignments that have the distance of its scope (`Node.rename`). Nothing else in the tree
changes, and no distance does (`map_rename`).

The renamed tree is alike to the one that was resolved (`ScopedAll.like_rename`): no function or
class in the scope can have the name of the variable, for a name is declared once.
-/

namespace Lox

/-- The way from a node to a scope in it, as the numbers of the parts that it goes through. The
empty way ends at the scope of the node itself; `none` goes nowhere. -/
abbrev Way := Option (List Nat)

/-- The way on from the first part. -/
def Way.first : Way → Way
  | some (0 :: rest) => some rest
  | _ => none

/-- The way on from one of the later parts, counted from the second. -/
def Way.later : Way → Way
  | some ((i + 1) :: rest) => some (i :: rest)
  | _ => none

/-- The parameters and the statements of a scope. -/
structure LocalScope where
  params : List Token
  body : List Node

/-- The scope binds the variable: as a parameter or with `var`. -/
def LocalScope.BindsVariable (scope : LocalScope) (x : String) : Prop :=
  (∃ param ∈ scope.params, param.lexeme = x) ∨
    ∃ name initializer, .varDecl name initializer ∈ scope.body ∧ name.lexeme = x

/-- The node declares the variable with `var`. -/
def Node.isVariable (x : String) : Node → Bool
  | .varDecl name _ => name.lexeme == x
  | _ => false

theorem Node.isVariable_iff {x : String} {n : Node} :
    n.isVariable x = true ↔
      ∃ name initializer, n = .varDecl name initializer ∧ name.lexeme = x := by
  cases n <;> simp [isVariable]

instance (scope : LocalScope) (x : String) : Decidable (scope.BindsVariable x) :=
  decidable_of_iff (scope.params.any (·.lexeme == x) || scope.body.any (·.isVariable x)) <| by
    simp only [Bool.or_eq_true, List.any_eq_true, beq_iff_eq, Node.isVariable_iff,
      LocalScope.BindsVariable]
    refine or_congr .rfl ⟨?_, ?_⟩
    · rintro ⟨_, hmem, name, initializer, rfl, hname⟩
      exact ⟨name, initializer, hmem, hname⟩
    · rintro ⟨name, initializer, hmem, hname⟩
      exact ⟨_, hmem, name, initializer, rfl, hname⟩

mutual

/-- The scope at the end of a way. -/
def Node.scopeAt : Way → Node → Option LocalScope
  | way, .block statements =>
    if way = some [] then some ⟨[], statements⟩ else Node.scopeAtAll way statements
  | way, .function _ params body =>
    if way = some [] then some ⟨params, body⟩ else Node.scopeAtAll way body
  | way, .classDecl _ _ methods => Node.scopeAtAll way methods
  | way, .conditional _ thenBranch elseBranch =>
    (thenBranch.scopeAt way.first).or (Node.scopeAtOption way.later.first elseBranch)
  | way, .loop _ body => body.scopeAt way.first
  | _, _ => none

def Node.scopeAtAll : Way → List Node → Option LocalScope
  | _, [] => none
  | way, n :: rest => (n.scopeAt way.first).or (Node.scopeAtAll way.later rest)

def Node.scopeAtOption : Way → Option Node → Option LocalScope
  | _, none => none
  | way, some n => n.scopeAt way

end

/-- The token with `y` for the name `x`, if its scope is the one of the variable. -/
def Token.rename (x y : String) (marked : Bool) (t : Token) : Token :=
  if marked = true ∧ t.lexeme = x then { t with lexeme := y } else t

/-- The reference with the name renamed, if it has the distance of the scope of the variable. -/
def Reference.rename (x y : String) (L : List Bool) (r : Reference) : Reference :=
  { r with name := r.name.rename x y (Change.mark L r.hops) }

mutual

/-- The tree with the variable `x` renamed to `y`. The scope of the variable is the one that is
marked among the open ones, the innermost first, or is at the end of the way. -/
def Node.rename (x y : String) : List Bool → Way → Node → Node
  | L, _, .assign target value => .assign (target.rename x y L) (value.rename x y L none)
  | L, _, .binary left operator right =>
    .binary (left.rename x y L none) operator (right.rename x y L none)
  | L, _, .call callee paren arguments =>
    .call (callee.rename x y L none) paren (Node.renameAll x y L none arguments)
  | L, _, .property object name => .property (object.rename x y L none) name
  | L, _, .group inner => .group (inner.rename x y L none)
  | _, _, .literal value => .literal value
  | L, _, .logical left operator right =>
    .logical (left.rename x y L none) operator (right.rename x y L none)
  | L, _, .setProperty object name value =>
    .setProperty (object.rename x y L none) name (value.rename x y L none)
  | _, _, .superMethod keyword method => .superMethod keyword method
  | _, _, .receiver keyword => .receiver keyword
  | L, _, .unary operator right => .unary operator (right.rename x y L none)
  | L, _, .ident name => .ident (name.rename x y L)
  | L, way, .block statements =>
    .block (Node.renameAll x y (decide (way = some []) :: L) way statements)
  | L, way, .classDecl name none methods =>
    .classDecl name none (Node.renameAll x y (false :: L) way methods)
  | L, way, .classDecl name (some parent) methods =>
    .classDecl name (some (parent.rename x y L none))
      (Node.renameAll x y (false :: false :: L) way methods)
  | L, _, .expression value => .expression (value.rename x y L none)
  | L, way, .function name params body =>
    .function name (params.map (·.rename x y (decide (way = some []))))
      (Node.renameAll x y (decide (way = some []) :: L) way body)
  | L, way, .conditional condition thenBranch elseBranch =>
    .conditional (condition.rename x y L none) (thenBranch.rename x y L way.first)
      (Node.renameOption x y L way.later.first elseBranch)
  | L, _, .print value => .print (value.rename x y L none)
  | L, _, .returning keyword value => .returning keyword (Node.renameOption x y L none value)
  | L, _, .varDecl name initializer =>
    .varDecl (name.rename x y (L.headD false)) (Node.renameOption x y L none initializer)
  | L, way, .loop condition body =>
    .loop (condition.rename x y L none) (body.rename x y L way.first)
  | _, _, .misfit m => .misfit m

def Node.renameAll (x y : String) : List Bool → Way → List Node → List Node
  | _, _, [] => []
  | L, way, n :: rest => n.rename x y L way.first :: Node.renameAll x y L way.later rest

def Node.renameOption (x y : String) : List Bool → Way → Option Node → Option Node
  | _, _, none => none
  | L, way, some n => some (n.rename x y L way)

end

/-! ## What stays as it was -/

/-- The token without its text. -/
def Token.nameless (t : Token) : Token := { t with lexeme := "" }

theorem Token.nameless_rename (x y : String) (marked : Bool) (t : Token) :
    (t.rename x y marked).nameless = t.nameless := by
  unfold rename
  split <;> rfl

section Unchanged

variable {x y : String} {f : Token → Token}

theorem Reference.map_rename (hf : ∀ marked t, f (Token.rename x y marked t) = f t)
    (L : List Bool) (r : Reference) :
    (r.rename x y L).map f id = r.map f id := by
  simp [Reference.map, Reference.rename, hf]

mutual

theorem Node.map_rename (hf : ∀ marked t, f (Token.rename x y marked t) = f t) :
    ∀ (L : List Bool) (way : Way) (n : Node), (n.rename x y L way).map f id = n.map f id
  | L, _, .assign _ value | L, _, .property value _ | L, _, .group value | L, _, .unary _ value
  | L, _, .expression value | L, _, .print value => by
    simp only [Node.rename, Node.map, Reference.map_rename hf, Node.map_rename hf L none value]
  | L, _, .binary left _ right | L, _, .logical left _ right | L, _, .setProperty left _ right => by
    simp only [Node.rename, Node.map, Node.map_rename hf L none left,
      Node.map_rename hf L none right]
  | L, _, .call callee _ arguments => by
    simp only [Node.rename, Node.map, Node.map_rename hf L none callee,
      Node.mapAll_rename hf L none arguments]
  | _, _, .literal _ | _, _, .superMethod _ _ | _, _, .receiver _ | _, _, .misfit _ => rfl
  | L, _, .ident _ => by simp only [Node.rename, Node.map, Reference.map_rename hf]
  | L, way, .block statements => by
    simp only [Node.rename, Node.map, Node.mapAll_rename hf _ way statements]
  | L, way, .classDecl _ none methods => by
    simp only [Node.rename, Node.map, Node.mapOption, Node.mapAll_rename hf _ way methods]
  | L, way, .classDecl _ (some parent) methods => by
    simp only [Node.rename, Node.map, Node.mapOption, Node.map_rename hf L none parent,
      Node.mapAll_rename hf _ way methods]
  | L, way, .function _ _ body => by
    simp only [Node.rename, Node.map, List.map_map, Node.mapAll_rename hf _ way body]
    congr 1
    exact List.map_congr_left fun t _ => hf _ t
  | L, way, .conditional condition thenBranch elseBranch => by
    simp only [Node.rename, Node.map, Node.map_rename hf L none condition,
      Node.map_rename hf L way.first thenBranch, Node.mapOption_rename hf L _ elseBranch]
  | L, _, .returning _ value | L, _, .varDecl _ value => by
    simp only [Node.rename, Node.map, hf, Node.mapOption_rename hf L none value]
  | L, way, .loop condition body => by
    simp only [Node.rename, Node.map, Node.map_rename hf L none condition,
      Node.map_rename hf L way.first body]

/-- Renaming changes names only: the trees are the same, node for node, for whoever does not tell
the two names apart. -/
theorem Node.mapAll_rename (hf : ∀ marked t, f (Token.rename x y marked t) = f t) :
    ∀ (L : List Bool) (way : Way) (ns : List Node),
    Node.mapAll f id (Node.renameAll x y L way ns) = Node.mapAll f id ns
  | _, _, [] => rfl
  | L, way, n :: rest => congrArg₂ List.cons (Node.map_rename hf L way.first n)
      (Node.mapAll_rename hf L way.later rest)

theorem Node.mapOption_rename (hf : ∀ marked t, f (Token.rename x y marked t) = f t) :
    ∀ (L : List Bool) (way : Way) (n : Option Node),
    Node.mapOption f id (Node.renameOption x y L way n) = Node.mapOption f id n
  | _, _, none => rfl
  | L, way, some n => congrArg some (Node.map_rename hf L way n)

end

end Unchanged

/-! ## The scope of the variable -/

/-- The name of a function or class. -/
def Node.defined? : Node → Option String
  | .function name _ _ => some name.lexeme
  | .classDecl name _ _ => some name.lexeme
  | _ => none

theorem Node.declared?_of_defined? {n : Node} {x : String} (h : n.defined? = some x) :
    n.declared? = some x := by
  cases n with
  | function name params body => exact h
  | classDecl name parent methods => exact h
  | _ => cases h

mutual

/-- No scope is nowhere. -/
theorem Node.scopeAt_none (n : Node) : n.scopeAt none = none := by
  match n with
  | .block statements => exact Node.scopeAtAll_none statements
  | .function name params body => exact Node.scopeAtAll_none body
  | .classDecl name parent methods => exact Node.scopeAtAll_none methods
  | .conditional condition thenBranch elseBranch =>
    exact congrArg₂ Option.or (Node.scopeAt_none thenBranch) (Node.scopeAtOption_none elseBranch)
  | .loop condition body => exact Node.scopeAt_none body
  | .assign .. | .binary .. | .call .. | .property .. | .group .. | .literal .. | .logical ..
  | .setProperty .. | .superMethod .. | .receiver .. | .unary .. | .ident .. | .expression ..
  | .print .. | .returning .. | .varDecl .. | .misfit .. => rfl
termination_by structural n

theorem Node.scopeAtAll_none (ns : List Node) : Node.scopeAtAll none ns = none := by
  match ns with
  | [] => rfl
  | n :: rest => exact congrArg₂ Option.or (Node.scopeAt_none n) (Node.scopeAtAll_none rest)
termination_by structural ns

theorem Node.scopeAtOption_none (n : Option Node) : Node.scopeAtOption none n = none := by
  match n with
  | none => rfl
  | some n => exact Node.scopeAt_none n
termination_by structural n

end

/-- What a scoped statement declares was free. -/
theorem Node.Scoped.declares {n : Node} {site : Site} {x : String} (hn : n.Scoped site)
    (h : n.declared? = some x) : ∃ name : Token, name.lexeme = x ∧ site.Declares name := by
  cases n with
  | varDecl name initializer => exact ⟨name, Option.some.inj h, hn.1⟩
  | function name params body => exact ⟨name, Option.some.inj h, hn.1⟩
  | classDecl name parent methods =>
    cases parent with
    | none => exact ⟨name, Option.some.inj h, hn.1⟩
    | some parent => exact ⟨name, Option.some.inj h, hn.1⟩
  | _ => cases h

/-- The names of a scope stay bound, and what is declared comes to be. -/
theorem Site.head?_after {site : Site} {names : List String} (h : site.scopes.head? = some names)
    (n : Node) : ∃ names', (site.after n).scopes.head? = some names' ∧
      ∀ x, x ∈ names ∨ n.declared? = some x → x ∈ names' := by
  obtain ⟨scopes, hscopes⟩ : ∃ scopes, site.scopes = names :: scopes := by
    cases hsite : site.scopes with
    | nil => simp [hsite] at h
    | cons first rest =>
      rw [hsite] at h
      cases h
      exact ⟨rest, rfl⟩
  unfold Site.after
  rcases hdeclared : n.declared? with _ | name
  · exact ⟨names, h, by simp⟩
  · refine ⟨name :: names, by simp [Site.declare, hscopes, Site.bind], ?_⟩
    rintro x (hx | hx)
    · exact List.mem_cons_of_mem _ hx
    · cases hx
      exact List.mem_cons_self

/-- A statement of the scope declares no name that is bound in it already. -/
theorem Node.ScopedAll.not_declared {x : String} : ∀ {ns : List Node} {site : Site}
    {names : List String}, Node.ScopedAll site ns → site.scopes.head? = some names → x ∈ names →
    ∀ n ∈ ns, n.declared? ≠ some x
  | [], _, _, _, _, _ => by simp
  | m :: rest, site, names, hns, hnames, hx => by
    intro n hn hdeclared
    rcases List.mem_cons.1 hn with rfl | hn
    · obtain ⟨name, rfl, hdeclares⟩ := hns.1.declares hdeclared
      exact hdeclares.free names hnames hx
    · obtain ⟨names', hnames', hmem⟩ := Site.head?_after hnames m
      exact hns.2.not_declared hnames' (hmem x (.inl hx)) n hn hdeclared

/-- A name that is declared with `var` is no function or class in the scope. -/
theorem Node.ScopedAll.not_defined_of_varDecl {name : Token} {initializer : Option Node} :
    ∀ {ns : List Node} {site : Site} {names : List String}, Node.ScopedAll site ns →
    site.scopes.head? = some names → .varDecl name initializer ∈ ns →
    ∀ n ∈ ns, n.defined? ≠ some name.lexeme
  | m :: rest, site, names, hns, hnames, hvar => by
    intro n hn hdefined
    obtain ⟨names', hnames', hmem⟩ := Site.head?_after hnames m
    rcases List.mem_cons.1 hvar with rfl | hlater
    · rcases List.mem_cons.1 hn with rfl | hn
      · cases hdefined
      · exact hns.2.not_declared hnames' (hmem name.lexeme (.inr rfl)) n hn
          (Node.declared?_of_defined? hdefined)
    · rcases List.mem_cons.1 hn with rfl | hn
      · have hbound := hmem name.lexeme (.inr (Node.declared?_of_defined? hdefined))
        exact hns.2.not_declared hnames' hbound (.varDecl name initializer) hlater rfl
      · exact hns.2.not_defined_of_varDecl hnames' hlater n hn hdefined

/-- The parameters are names and the statements are scoped where they are bound. -/
def LocalScope.Scoped (scope : LocalScope) : Prop :=
  (∀ param ∈ scope.params, param.IsName) ∧ ∃ inner : Site,
    inner.scopes.head? = some (scope.params.map (·.lexeme)) ∧ Node.ScopedAll inner scope.body

/-- A variable of the scope is no function or class in it. -/
theorem LocalScope.Scoped.not_defined {x : String} {scope : LocalScope} (hscope : scope.Scoped)
    (hx : scope.BindsVariable x) : ∀ n ∈ scope.body, n.defined? ≠ some x := by
  obtain ⟨-, inner, hnames, hbody⟩ := hscope
  rcases hx with ⟨param, hparam, rfl⟩ | ⟨name, initializer, hvar, rfl⟩
  · intro n hn hdefined
    exact hbody.not_declared hnames (List.mem_map.2 ⟨param, hparam, rfl⟩) n hn
      (Node.declared?_of_defined? hdefined)
  · exact hbody.not_defined_of_varDecl hnames hvar

/-- What a scoped statement declares is a name. -/
theorem Node.ScopedAll.isName_of_varDecl {name : Token} {initializer : Option Node} :
    ∀ {ns : List Node} {site : Site}, Node.ScopedAll site ns → .varDecl name initializer ∈ ns →
      name.IsName
  | m :: rest, site, hns, hvar => by
    rcases List.mem_cons.1 hvar with rfl | hlater
    · exact hns.1.1.toIsName
    · exact hns.2.isName_of_varDecl hlater

/-- The tokens of a scope. -/
def LocalScope.tokens (scope : LocalScope) : List Token :=
  scope.params ++ Node.tokensAll scope.body

theorem Node.mem_tokensAll {n : Node} {t : Token} (ht : t ∈ n.tokens) : ∀ {ns : List Node},
    n ∈ ns → t ∈ Node.tokensAll ns
  | m :: rest, hn => by
    rw [Node.tokensAll, List.mem_append]
    rcases List.mem_cons.1 hn with rfl | hn
    · exact .inl ht
    · exact .inr (Node.mem_tokensAll ht hn)

theorem LocalScope.Scoped.isName {x : String} {scope : LocalScope} (hscope : scope.Scoped)
    (hx : scope.BindsVariable x) : ∃ name ∈ scope.tokens, name.IsName ∧ name.lexeme = x := by
  obtain ⟨hparams, inner, -, hbody⟩ := hscope
  rcases hx with ⟨param, hparam, hx⟩ | ⟨name, initializer, hvar, hx⟩
  · exact ⟨param, List.mem_append_left _ hparam, hparams param hparam, hx⟩
  · exact ⟨name, List.mem_append_right _ (Node.mem_tokensAll (by simp [Node.tokens]) hvar),
      hbody.isName_of_varDecl hvar, hx⟩

mutual

/-- The tokens of a scope are tokens of the tree it is in. -/
theorem Node.tokens_scopeAt (n : Node) {way : Way} {scope : LocalScope}
    (h : n.scopeAt way = some scope) : scope.tokens ⊆ n.tokens := by
  match n, h with
  | .block statements, h =>
    rw [Node.scopeAt] at h
    split at h
    · cases h
      exact fun _ ht => ht
    · exact Node.tokens_scopeAtAll statements h
  | .function name params body, h =>
    rw [Node.scopeAt] at h
    split at h
    · cases h
      exact List.subset_cons_self _ _
    · have hbody := Node.tokens_scopeAtAll body h
      exact fun t ht => List.mem_append_right _ (hbody ht)
  | .classDecl name parent methods, h =>
    have hmethods := Node.tokens_scopeAtAll methods h
    exact fun t ht => List.mem_append_right _ (hmethods ht)
  | .conditional condition thenBranch elseBranch, h =>
    rw [Node.scopeAt, Option.or_eq_some_iff] at h
    rcases h with h | ⟨-, h⟩
    · have hthen := Node.tokens_scopeAt thenBranch h
      exact fun t ht => List.mem_append_left _ (List.mem_append_right _ (hthen ht))
    · have helse := Node.tokens_scopeAtOption elseBranch h
      exact fun t ht => List.mem_append_right _ (helse ht)
  | .loop condition body, h =>
    have hbody := Node.tokens_scopeAt body h
    exact fun t ht => List.mem_append_right _ (hbody ht)
  | .assign .., h | .binary .., h | .call .., h | .property .., h | .group .., h | .literal .., h
  | .logical .., h | .setProperty .., h | .superMethod .., h | .receiver .., h | .unary .., h
  | .ident .., h | .expression .., h | .print .., h | .returning .., h | .varDecl .., h
  | .misfit .., h => cases h
termination_by structural n

theorem Node.tokens_scopeAtAll (ns : List Node) {way : Way} {scope : LocalScope}
    (h : Node.scopeAtAll way ns = some scope) : scope.tokens ⊆ Node.tokensAll ns := by
  match ns, h with
  | [], h => cases h
  | n :: rest, h =>
    rw [Node.scopeAtAll, Option.or_eq_some_iff] at h
    rcases h with h | ⟨-, h⟩
    · have hn := Node.tokens_scopeAt n h
      exact fun t ht => List.mem_append_left _ (hn ht)
    · have hrest := Node.tokens_scopeAtAll rest h
      exact fun t ht => List.mem_append_right _ (hrest ht)
termination_by structural ns

theorem Node.tokens_scopeAtOption (n : Option Node) {way : Way} {scope : LocalScope}
    (h : Node.scopeAtOption way n = some scope) : scope.tokens ⊆ Node.tokensOption n := by
  match n, h with
  | none, h => cases h
  | some n, h => exact Node.tokens_scopeAt n h
termination_by structural n

end

mutual

/-- A scope inside a scoped tree is scoped. -/
theorem Node.Scoped.scopeAt (n : Node) {site : Site} {way : Way} {scope : LocalScope}
    (hn : n.Scoped site) (h : n.scopeAt way = some scope) : scope.Scoped := by
  match n, hn, h with
  | .block statements, hn, h =>
    rw [Node.scopeAt] at h
    split at h
    · cases h
      exact ⟨by simp, site.inside [], rfl, hn⟩
    · exact Node.ScopedAll.scopeAt statements hn h
  | .function name params body, hn, h =>
    rw [Node.scopeAt] at h
    split at h
    · cases h
      exact ⟨hn.2.1, _, rfl, hn.2.2⟩
    · exact Node.ScopedAll.scopeAt body hn.2.2 h
  | .classDecl name none methods, hn, h => exact Node.ScopedMethods.scopeAt methods hn.2 h
  | .classDecl name (some parent) methods, hn, h =>
    exact Node.ScopedMethods.scopeAt methods hn.2.2 h
  | .conditional condition thenBranch elseBranch, hn, h =>
    rw [Node.scopeAt, Option.or_eq_some_iff] at h
    rcases h with h | ⟨-, h⟩
    · exact Node.Scoped.scopeAt thenBranch hn.2.1.2 h
    · exact Node.ScopedOption.scopeAt elseBranch hn.2.2 h
  | .loop condition body, hn, h => exact Node.Scoped.scopeAt body hn.2.2 h
  | .assign .., _, h | .binary .., _, h | .call .., _, h | .property .., _, h | .group .., _, h
  | .literal .., _, h | .logical .., _, h | .setProperty .., _, h | .superMethod .., _, h
  | .receiver .., _, h | .unary .., _, h | .ident .., _, h | .expression .., _, h
  | .print .., _, h | .returning .., _, h | .varDecl .., _, h | .misfit .., _, h => cases h
termination_by structural n

theorem Node.ScopedAll.scopeAt (ns : List Node) {site : Site} {way : Way} {scope : LocalScope}
    (hns : Node.ScopedAll site ns) (h : Node.scopeAtAll way ns = some scope) : scope.Scoped := by
  match ns, hns, h with
  | [], _, h => cases h
  | n :: rest, hns, h =>
    rw [Node.scopeAtAll, Option.or_eq_some_iff] at h
    rcases h with h | ⟨-, h⟩
    · exact Node.Scoped.scopeAt n hns.1 h
    · exact Node.ScopedAll.scopeAt rest hns.2 h
termination_by structural ns

theorem Node.ScopedMethods.scopeAt (ns : List Node) {site : Site} {way : Way} {scope : LocalScope}
    (hns : Node.ScopedMethods site ns) (h : Node.scopeAtAll way ns = some scope) :
    scope.Scoped := by
  match ns, hns, h with
  | [], _, h => cases h
  | n :: rest, hns, h =>
    cases n with
    | function name params body =>
      rw [Node.scopeAtAll, Option.or_eq_some_iff, Node.scopeAt] at h
      rcases h with h | ⟨-, h⟩
      · split at h
        · cases h
          exact ⟨hns.1.2.1, _, rfl, hns.1.2.2⟩
        · exact Node.ScopedAll.scopeAt body hns.1.2.2 h
      · exact Node.ScopedMethods.scopeAt rest hns.2 h
    | _ => exact hns.elim
termination_by structural ns

theorem Node.ScopedOption.scopeAt (n : Option Node) {site : Site} {way : Way} {scope : LocalScope}
    (hn : Node.ScopedOption site n) (h : Node.scopeAtOption way n = some scope) :
    scope.Scoped := by
  match n, hn, h with
  | none, _, h => cases h
  | some n, hn, h => exact Node.Scoped.scopeAt n hn.2 h
termination_by structural n

end

/-! ## The renamed tree is alike -/

/-- The change of one name to another. -/
def Change.ofNames (x y : String) (hx : x ≠ "this" ∧ x ≠ "super") (hy : y ≠ "this" ∧ y ≠ "super") :
    Change where
  old := x
  new := y
  Alike := Eq
  kind_eq := by rintro t _ rfl; rfl
  lexeme_eq := by rintro t _ rfl; rfl
  old_ne_this := hx.1
  old_ne_super := hx.2
  new_ne_this := hy.1
  new_ne_super := hy.2

/-- A way that goes on from a later part does not go on from the first. -/
theorem Way.first_or_later (way : Way) : way.first = none ∨ way.later = none := by
  rcases way with _ | _ | ⟨_ | i, rest⟩
  · exact .inl rfl
  · exact .inl rfl
  · exact .inr rfl
  · exact .inl rfl

/-- What holds of the scope at the end of a way holds of the one it ends at, or of the one further
on. -/
theorem Node.scope_parts {P : LocalScope → Prop} {way : Way} {params : List Token}
    {body : List Node} (h : ∀ scope, (if way = some [] then some ⟨params, body⟩
      else Node.scopeAtAll way body) = some scope → P scope) :
    (decide (way = some []) = true → P ⟨params, body⟩) ∧
      ∀ scope, Node.scopeAtAll way body = some scope → P scope := by
  refine ⟨fun hway => h _ (if_pos (of_decide_eq_true hway)), fun scope hscope => ?_⟩
  by_cases hway : way = some []
  · rw [hway] at hscope
    cases body with
    | nil => cases hscope
    | cons n rest =>
      have hnone : Node.scopeAtAll (some []) (n :: rest) = none :=
        congrArg₂ Option.or (Node.scopeAt_none n) (Node.scopeAtAll_none rest)
      rw [hnone] at hscope
      cases hscope
  · exact h scope (by rwa [if_neg hway])

theorem Node.scope_list {P : LocalScope → Prop} {way : Way} {n : Node} {rest : List Node}
    (h : ∀ scope, Node.scopeAtAll way (n :: rest) = some scope → P scope) :
    (∀ scope, n.scopeAt way.first = some scope → P scope) ∧
      ∀ scope, Node.scopeAtAll way.later rest = some scope → P scope := by
  refine ⟨fun scope hscope => h scope ?_, fun scope hscope => h scope ?_⟩
  · rw [Node.scopeAtAll, hscope]
    rfl
  · rcases way.first_or_later with hnone | hnone
    · rw [Node.scopeAtAll, hnone, Node.scopeAt_none, hscope]
      rfl
    · rw [hnone, Node.scopeAtAll_none] at hscope
      cases hscope

theorem Node.scope_branches {P : LocalScope → Prop} {way : Way} {condition thenBranch : Node}
    {elseBranch : Option Node}
    (h : ∀ scope, (Node.conditional condition thenBranch elseBranch).scopeAt way = some scope →
      P scope) :
    (∀ scope, thenBranch.scopeAt way.first = some scope → P scope) ∧
      ∀ scope, Node.scopeAtOption way.later.first elseBranch = some scope → P scope := by
  refine ⟨fun scope hscope => h scope ?_, fun scope hscope => h scope ?_⟩
  · rw [Node.scopeAt, hscope]
    rfl
  · rcases way.first_or_later with hnone | hnone
    · rw [Node.scopeAt, hnone, Node.scopeAt_none, hscope]
      rfl
    · have hnowhere : Node.scopeAtOption (Way.first none) elseBranch = none :=
        Node.scopeAtOption_none elseBranch
      rw [hnone, hnowhere] at hscope
      cases hscope

section Like

variable {x y : String} {hx : x ≠ "this" ∧ x ≠ "super"} {hy : y ≠ "this" ∧ y ≠ "super"}

theorem Change.named_rename {t : Token} (ht : t.lexeme ≠ y) (marked : Bool) :
    (Change.ofNames x y hx hy).Named marked t (t.rename x y marked) := by
  refine ⟨?_, ?_, fun _ => ht⟩
  · show t = _
    unfold Token.rename
    split <;> rfl
  · show _ = if marked = true ∧ t.lexeme = x then y else t.lexeme
    unfold Token.rename
    split <;> rfl

theorem Change.refers_rename {r : Reference} (hr : r.name.lexeme ≠ y) (L : List Bool) :
    (Change.ofNames x y hx hy).Refers L r (r.rename x y L) :=
  ⟨rfl, named_rename hr _⟩

/-- A reference to something else keeps its name. -/
theorem Change.refers_other {r : Reference} (hr : r.name.lexeme ≠ y) (hother : r.name.lexeme ≠ x)
    (L : List Bool) : (Change.ofNames x y hx hy).Refers L r r :=
  ⟨rfl, .of_alike rfl (fun _ => hother) fun _ => hr⟩

theorem Change.kept_rename {t : Token} (ht : t.lexeme ≠ y) {marked : Bool}
    (hother : marked = true → t.lexeme ≠ x) : (Change.ofNames x y hx hy).Kept marked t t :=
  ⟨rfl, hother, fun _ => ht⟩

theorem Change.params_rename {params : List Token} (h : ∀ t ∈ params, t.lexeme ≠ y)
    (marked : Bool) : params.Forall₂ ((Change.ofNames x y hx hy).Named marked)
      (params.map (·.rename x y marked)) := by
  induction params with
  | nil => exact .nil
  | cons t rest ih =>
    exact .cons (named_rename (h t List.mem_cons_self) marked)
      (ih fun t ht => h t (List.mem_cons_of_mem _ ht))

/-- What declares nothing is no function or class. -/
theorem Node.ne_defined {n : Node} (h : n.declared? = none) {p : Prop} :
    p → n.defined? ≠ some x := by
  intro _ hdefined
  have hdeclared := Node.declared?_of_defined? hdefined
  rw [h] at hdeclared
  cases hdeclared

theorem Node.nowhere (n : Node) :
    ∀ scope, n.scopeAt none = some scope → ∀ m ∈ scope.body, m.defined? ≠ some x := by
  intro scope hscope
  rw [Node.scopeAt_none] at hscope
  cases hscope

theorem Node.nowhereOption (n : Option Node) :
    ∀ scope, Node.scopeAtOption none n = some scope → ∀ m ∈ scope.body, m.defined? ≠ some x := by
  intro scope hscope
  rw [Node.scopeAtOption_none] at hscope
  cases hscope

mutual

/-- A scoped tree is alike to the one with the variable renamed. -/
theorem Node.Scoped.like_rename (n : Node) {site : Site} {L : List Bool} {way : Way}
    (hn : n.Scoped site) (hfresh : ∀ t ∈ n.tokens, t.lexeme ≠ y)
    (hname : L.headD false = true → n.defined? ≠ some x)
    (hscope : ∀ scope, n.scopeAt way = some scope → ∀ m ∈ scope.body, m.defined? ≠ some x) :
    n.Like (Change.ofNames x y hx hy) L (n.rename x y L way) := by
  match n, hn, hfresh, hname, hscope with
  | .assign target value, hn, hfresh, hname, hscope =>
    exact ⟨_, _, rfl, Change.refers_rename (hfresh _ (by simp [Node.tokens])) L,
      Node.Scoped.like_rename value hn.2.2.2 (Token.forall_part hfresh (by simp [Node.tokens]))
        (Node.ne_defined hn.2.2.1) (Node.nowhere value)⟩
  | .binary left operator right, hn, hfresh, hname, hscope =>
    exact ⟨_, _, _, rfl, rfl,
      Node.Scoped.like_rename left hn.2.1.2 (Token.forall_part hfresh (by simp [Node.tokens]))
        (Node.ne_defined hn.2.1.1) (Node.nowhere left),
      Node.Scoped.like_rename right hn.2.2.2 (Token.forall_part hfresh (by simp [Node.tokens]))
        (Node.ne_defined hn.2.2.1) (Node.nowhere right)⟩
  | .logical left operator right, hn, hfresh, hname, hscope =>
    exact ⟨_, _, _, rfl, rfl,
      Node.Scoped.like_rename left hn.2.1.2 (Token.forall_part hfresh (by simp [Node.tokens]))
        (Node.ne_defined hn.2.1.1) (Node.nowhere left),
      Node.Scoped.like_rename right hn.2.2.2 (Token.forall_part hfresh (by simp [Node.tokens]))
        (Node.ne_defined hn.2.2.1) (Node.nowhere right)⟩
  | .call callee paren arguments, hn, hfresh, hname, hscope =>
    exact ⟨_, _, _, rfl, rfl,
      Node.Scoped.like_rename callee hn.2.1.2 (Token.forall_part hfresh (by simp [Node.tokens]))
        (Node.ne_defined hn.2.1.1) (Node.nowhere callee),
      Node.ScopedEach.like_rename arguments hn.2.2
        (Token.forall_part hfresh (by simp [Node.tokens]))⟩
  | .property object name, hn, hfresh, hname, hscope =>
    exact ⟨_, _, rfl, rfl,
      Node.Scoped.like_rename object hn.2.2 (Token.forall_part hfresh (by simp [Node.tokens]))
        (Node.ne_defined hn.2.1) (Node.nowhere object)⟩
  | .group inner, hn, hfresh, hname, hscope =>
    exact ⟨_, rfl,
      Node.Scoped.like_rename inner hn.2 (Token.forall_part hfresh (by simp [Node.tokens]))
        (Node.ne_defined hn.1) (Node.nowhere inner)⟩
  | .literal value, _, _, _, _ => exact rfl
  | .setProperty object name value, hn, hfresh, hname, hscope =>
    exact ⟨_, _, _, rfl, rfl,
      Node.Scoped.like_rename object hn.2.1.2 (Token.forall_part hfresh (by simp [Node.tokens]))
        (Node.ne_defined hn.2.1.1) (Node.nowhere object),
      Node.Scoped.like_rename value hn.2.2.2 (Token.forall_part hfresh (by simp [Node.tokens]))
        (Node.ne_defined hn.2.2.1) (Node.nowhere value)⟩
  | .superMethod keyword method, hn, hfresh, _, _ =>
    have hkeyword : keyword.name.lexeme ≠ x := fun heq => hx.2 (heq.symm.trans hn.2.1)
    exact ⟨_, _, rfl, Change.refers_other (hfresh _ (by simp [Node.tokens])) hkeyword L, rfl⟩
  | .receiver keyword, hn, hfresh, _, _ =>
    have hkeyword : keyword.name.lexeme ≠ x := fun heq => hx.1 (heq.symm.trans hn.2.1)
    exact ⟨_, rfl, Change.refers_other (hfresh _ (by simp [Node.tokens])) hkeyword L⟩
  | .unary operator right, hn, hfresh, hname, hscope =>
    exact ⟨_, _, rfl, rfl,
      Node.Scoped.like_rename right hn.2.2 (Token.forall_part hfresh (by simp [Node.tokens]))
        (Node.ne_defined hn.2.1) (Node.nowhere right)⟩
  | .ident name, _, hfresh, _, _ =>
    exact ⟨_, rfl, Change.refers_rename (hfresh _ (by simp [Node.tokens])) L⟩
  | .block statements, hn, hfresh, _, hscope =>
    obtain ⟨hhere, hinside⟩ := Node.scope_parts hscope
    exact ⟨_, _, rfl, Node.ScopedAll.like_rename statements hn hfresh hhere hinside⟩
  | .classDecl name none methods, hn, hfresh, hname, hscope =>
    exact ⟨_, _, rfl, Change.kept_rename (hfresh _ (by simp [Node.tokens]))
        fun hmarked heq => hname hmarked (congrArg some heq),
      Node.ScopedMethods.like_rename methods hn.2 (Token.forall_part hfresh (by simp [Node.tokens]))
        hscope⟩
  | .classDecl name (some parent) methods, hn, hfresh, hname, hscope =>
    obtain ⟨-, ⟨-, ⟨r, rfl⟩, -⟩, hmethods⟩ := hn
    exact ⟨_, r, _, _, rfl, rfl, Change.kept_rename (hfresh _ (by simp [Node.tokens]))
        fun hmarked heq => hname hmarked (congrArg some heq),
      Change.refers_rename (hfresh _ (by simp [Node.tokens, Node.tokensOption])) L,
      Node.ScopedMethods.like_rename methods hmethods
        (Token.forall_part hfresh (by simp [Node.tokens])) hscope⟩
  | .expression value, hn, hfresh, hname, hscope =>
    exact ⟨_, rfl,
      Node.Scoped.like_rename value hn.2 (Token.forall_part hfresh (by simp [Node.tokens]))
        (Node.ne_defined hn.1) (Node.nowhere value)⟩
  | .function name params body, hn, hfresh, hname, hscope =>
    obtain ⟨hhere, hinside⟩ := Node.scope_parts hscope
    exact ⟨_, _, _, _, rfl, Change.kept_rename (hfresh _ (by simp [Node.tokens]))
        fun hmarked heq => hname hmarked (congrArg some heq),
      Change.params_rename (Token.forall_part hfresh (by simp [Node.tokens])) _,
      Node.ScopedAll.like_rename body hn.2.2 (Token.forall_part hfresh (by simp [Node.tokens]))
        hhere hinside⟩
  | .conditional condition thenBranch elseBranch, hn, hfresh, _, hscope =>
    obtain ⟨hthen, helse⟩ := Node.scope_branches hscope
    exact ⟨_, _, _, rfl,
      Node.Scoped.like_rename condition hn.1.2 (Token.forall_part hfresh (by simp [Node.tokens]))
        (Node.ne_defined hn.1.1) (Node.nowhere condition),
      Node.Scoped.like_rename thenBranch hn.2.1.2
        (Token.forall_part hfresh (by simp [Node.tokens])) (Node.ne_defined hn.2.1.1) hthen,
      Node.ScopedOption.like_rename elseBranch hn.2.2
        (Token.forall_part hfresh (by simp [Node.tokens])) helse⟩
  | .print value, hn, hfresh, hname, hscope =>
    exact ⟨_, rfl,
      Node.Scoped.like_rename value hn.2 (Token.forall_part hfresh (by simp [Node.tokens]))
        (Node.ne_defined hn.1) (Node.nowhere value)⟩
  | .returning keyword value, hn, hfresh, _, _ =>
    exact ⟨_, _, rfl, rfl, Node.ScopedOption.like_rename value hn.2.2
      (Token.forall_part hfresh (by simp [Node.tokens])) (Node.nowhereOption value)⟩
  | .varDecl name initializer, hn, hfresh, _, _ =>
    exact ⟨_, _, rfl, Change.named_rename (hfresh _ (by simp [Node.tokens])) _,
      Node.ScopedOption.like_rename initializer hn.2
        (Token.forall_part hfresh (by simp [Node.tokens])) (Node.nowhereOption initializer)⟩
  | .loop condition body, hn, hfresh, _, hscope =>
    exact ⟨_, _, rfl,
      Node.Scoped.like_rename condition hn.1.2 (Token.forall_part hfresh (by simp [Node.tokens]))
        (Node.ne_defined hn.1.1) (Node.nowhere condition),
      Node.Scoped.like_rename body hn.2.2 (Token.forall_part hfresh (by simp [Node.tokens]))
        (Node.ne_defined hn.2.1) hscope⟩
  | .misfit _, hn, _, _, _ => exact hn.elim
termination_by structural n

theorem Node.ScopedEach.like_rename (ns : List Node) {site : Site} {L : List Bool}
    (hns : Node.ScopedEach site ns) (hfresh : ∀ t ∈ Node.tokensAll ns, t.lexeme ≠ y) :
    Node.LikeAll (Change.ofNames x y hx hy) L ns (Node.renameAll x y L none ns) := by
  match ns, hns, hfresh with
  | [], _, _ => exact rfl
  | n :: rest, hns, hfresh =>
    exact ⟨_, _, rfl,
      Node.Scoped.like_rename n hns.1.2 (Token.forall_part hfresh (by simp [Node.tokensAll]))
        (Node.ne_defined hns.1.1) (Node.nowhere n),
      Node.ScopedEach.like_rename rest hns.2 (Token.forall_part hfresh (by simp [Node.tokensAll]))⟩
termination_by structural ns

theorem Node.ScopedAll.like_rename (ns : List Node) {site : Site} {L : List Bool} {way : Way}
    (hns : Node.ScopedAll site ns) (hfresh : ∀ t ∈ Node.tokensAll ns, t.lexeme ≠ y)
    (hnames : L.headD false = true → ∀ n ∈ ns, n.defined? ≠ some x)
    (hscope : ∀ scope, Node.scopeAtAll way ns = some scope →
      ∀ m ∈ scope.body, m.defined? ≠ some x) :
    Node.LikeAll (Change.ofNames x y hx hy) L ns (Node.renameAll x y L way ns) := by
  match ns, hns, hfresh, hnames, hscope with
  | [], _, _, _, _ => exact rfl
  | n :: rest, hns, hfresh, hnames, hscope =>
    obtain ⟨hfirst, hlater⟩ := Node.scope_list hscope
    exact ⟨_, _, rfl,
      Node.Scoped.like_rename n hns.1 (Token.forall_part hfresh (by simp [Node.tokensAll]))
        (fun hmarked => hnames hmarked n List.mem_cons_self) hfirst,
      Node.ScopedAll.like_rename rest hns.2 (Token.forall_part hfresh (by simp [Node.tokensAll]))
        (fun hmarked m hm => hnames hmarked m (List.mem_cons_of_mem _ hm)) hlater⟩
termination_by structural ns

theorem Node.ScopedMethods.like_rename (ns : List Node) {site : Site} {L : List Bool} {way : Way}
    (hns : Node.ScopedMethods site ns) (hfresh : ∀ t ∈ Node.tokensAll ns, t.lexeme ≠ y)
    (hscope : ∀ scope, Node.scopeAtAll way ns = some scope →
      ∀ m ∈ scope.body, m.defined? ≠ some x) :
    Node.LikeMethods (Change.ofNames x y hx hy) L ns (Node.renameAll x y L way ns) := by
  match ns, hns, hfresh, hscope with
  | [], _, _, _ => exact rfl
  | n :: rest, hns, hfresh, hscope =>
    obtain ⟨hfirst, hlater⟩ := Node.scope_list hscope
    cases n with
    | function name params body =>
      obtain ⟨hhere, hinside⟩ := Node.scope_parts hfirst
      have hmethod : ∀ t ∈ (Node.function name params body).tokens, t.lexeme ≠ y :=
        Token.forall_part hfresh (by simp [Node.tokensAll])
      exact ⟨_, _, _, _, _, rfl, rfl,
        Change.params_rename (Token.forall_part hmethod (by simp [Node.tokens])) _,
        Node.ScopedAll.like_rename body hns.1.2.2
          (Token.forall_part hmethod (by simp [Node.tokens])) hhere hinside,
        Node.ScopedMethods.like_rename rest hns.2
          (Token.forall_part hfresh (by simp [Node.tokensAll])) hlater⟩
    | _ => exact hns.elim
termination_by structural ns

theorem Node.ScopedOption.like_rename (n : Option Node) {site : Site} {L : List Bool} {way : Way}
    (hn : Node.ScopedOption site n) (hfresh : ∀ t ∈ Node.tokensOption n, t.lexeme ≠ y)
    (hscope : ∀ scope, Node.scopeAtOption way n = some scope →
      ∀ m ∈ scope.body, m.defined? ≠ some x) :
    Node.LikeOption (Change.ofNames x y hx hy) L n (Node.renameOption x y L way n) := by
  match n, hn, hfresh, hscope with
  | none, _, _, _ => exact rfl
  | some n, hn, hfresh, hscope =>
    exact ⟨_, rfl, Node.Scoped.like_rename n hn.2 hfresh (Node.ne_defined hn.1) hscope⟩
termination_by structural n

end

end Like

end Lox
