import Mathlib.Tactic
import Lox.Proofs.Shape
import Lox.Scope.Resolve

/-!
# Trees whose distances are right

A `Site` is where a node stands: the names bound so far in each of the open scopes, the local
variable whose initializer the node is part of, and the function and class around it. In a
tree that is `Scoped` every reference has the distance to the first scope that binds its name. The
one exception is an assignment to the variable being initialized, which is not bound yet: it has
the distance of the scope that will bind it.

Nothing but a list of statements declares names, so that a node in any other place has none to
declare.
-/

namespace Lox

/-- The name that a statement declares in the scope it stands in. -/
def Node.declared? : Node → Option String
  | .varDecl name _ => some name.lexeme
  | .function name _ _ => some name.lexeme
  | .classDecl name _ _ => some name.lexeme
  | _ => none

/-- A name that can be declared. -/
structure Token.IsName (t : Token) : Prop where
  kind : t.kind = .identifier
  ne_this : t.lexeme ≠ "this"
  ne_super : t.lexeme ≠ "super"

theorem Token.IsName.present {t : Token} (h : t.IsName) : t.isMissing = false := by
  simp [Token.isMissing, h.kind]

structure Site where
  /-- The names bound in the open scopes, the innermost first. -/
  scopes : List (List String) := []
  /-- The local variable in whose initializer the site lies. -/
  initializing : Option String := none
  inFunction : FunctionContext := .none
  inClass : ClassContext := .none

namespace Site

/-- The number of scopes between the innermost and the first that binds the name. -/
def hopsTo? (name : String) (scopes : List (List String)) : Option Nat :=
  scopes.findIdx? fun names => decide (name ∈ names)

/-- The scope that many scopes out binds the name. -/
def Binds (scopes : List (List String)) (hops : Nat) (name : String) : Prop :=
  ∃ names, scopes[hops]? = some names ∧ name ∈ names

/-- The scopes with a name bound in the innermost. -/
def bind (name : String) : List (List String) → List (List String)
  | [] => []
  | names :: rest => (name :: names) :: rest

/-- The site after the declaration of a name. -/
def declare (site : Site) (name : String) : Site :=
  { site with scopes := bind name site.scopes }

/-- The site after a statement. -/
def after (site : Site) (n : Node) : Site :=
  match n.declared? with
  | none => site
  | some name => site.declare name

/-- The site after some statements. -/
def afterAll : Site → List Node → Site
  | site, [] => site
  | site, n :: rest => (site.after n).afterAll rest

/-- The site in a new scope. -/
def inside (site : Site) (names : List String) : Site :=
  { site with scopes := names :: site.scopes, initializing := none }

/-- The site in the body of a function. -/
def body (site : Site) (kind : FunctionContext) (params : List Token) : Site :=
  { site.inside (params.map (·.lexeme)) with inFunction := kind }

/-- The site in the initializer of a variable. -/
def initializer (site : Site) (name : String) : Site :=
  match site.scopes with
  | [] => site
  | _ :: _ => { site with initializing := some name }

/-- The site around the methods of a class, which is in the scope it is declared in. -/
def methods (site : Site) : (superclass : Option Node) → Site
  | none => { site.inside ["this"] with inClass := .plain }
  | some _ => { (site.inside ["super"]).inside ["this"] with inClass := .subclass }

/-- A reference that is read has the distance to its binding. -/
def Reads (site : Site) (r : Reference) : Prop :=
  site.initializing ≠ some r.name.lexeme ∧ r.hops = hopsTo? r.name.lexeme site.scopes

/-- The distance to a binding of the name that there is, or that is about to be. -/
def hops (site : Site) (name : String) : Option Nat :=
  if site.initializing = some name then some 0 else hopsTo? name site.scopes

/-- A reference that is assigned to has the distance to its binding. -/
def Assigns (site : Site) (r : Reference) : Prop := r.hops = site.hops r.name.lexeme

/-- The name can be declared, and is not bound in the innermost scope yet. -/
structure Declares (site : Site) (name : Token) : Prop extends Token.IsName name where
  free : ∀ names, site.scopes.head? = some names → name.lexeme ∉ names

/-! ## Small facts about sites -/

theorem hopsTo?_cons (name : String) (names : List String) (scopes : List (List String)) :
    hopsTo? name (names :: scopes) =
      if name ∈ names then some 0 else (hopsTo? name scopes).map (· + 1) := by
  simp [hopsTo?, List.findIdx?_cons]

theorem hopsTo?_bind {name other : String} (h : other ≠ name) (scopes : List (List String)) :
    hopsTo? other (bind name scopes) = hopsTo? other scopes := by
  cases scopes with
  | nil => rfl
  | cons names scopes => simp [bind, hopsTo?_cons, h]

theorem binds_of_hopsTo? {name : String} {scopes : List (List String)} {hops : Nat}
    (h : hopsTo? name scopes = some hops) : Binds scopes hops name := by
  induction scopes generalizing hops with
  | nil => simp [hopsTo?] at h
  | cons names scopes ih =>
    rw [hopsTo?_cons] at h
    split at h
    · cases h
      exact ⟨names, rfl, ‹_›⟩
    · obtain ⟨inner, hinner, rfl⟩ := Option.map_eq_some_iff.1 h
      exact ih hinner

theorem declare_nil {site : Site} (h : site.scopes = []) (name : String) :
    site.declare name = site := by
  obtain ⟨scopes, initializing, inFunction, inClass⟩ := site
  cases h
  rfl

theorem initializer_nil {site : Site} (h : site.scopes = []) (name : String) :
    site.initializer name = site := by
  simp [initializer, h]

theorem initializer_cons {site : Site} {names : List String} {scopes : List (List String)}
    (h : site.scopes = names :: scopes) (name : String) :
    site.initializer name = { site with initializing := some name } := by
  simp [initializer, h]

theorem after_eq_self {site : Site} {n : Node} (h : n.declared? = none) : site.after n = site := by
  simp [after, h]

theorem after_congr {site : Site} {n n' : Node} (h : n'.declared? = n.declared?) :
    site.after n' = site.after n := by
  simp [after, h]

theorem tail_bind (name : String) (scopes : List (List String)) :
    (bind name scopes).tail = scopes.tail := by
  cases scopes <;> rfl

theorem after_context (site : Site) (n : Node) :
    (site.after n).scopes.tail = site.scopes.tail ∧
      (site.after n).scopes.length = site.scopes.length ∧
      (site.after n).initializing = site.initializing ∧
      (site.after n).inFunction = site.inFunction ∧ (site.after n).inClass = site.inClass := by
  unfold after
  split
  · simp
  · refine ⟨tail_bind _ _, ?_, rfl, rfl, rfl⟩
    unfold declare
    cases site.scopes <;> rfl

/-- Statements bind names in the innermost scope and nowhere else. -/
theorem afterAll_context (site : Site) (ns : List Node) :
    (site.afterAll ns).scopes.tail = site.scopes.tail ∧
      (site.afterAll ns).scopes.length = site.scopes.length ∧
      (site.afterAll ns).initializing = site.initializing ∧
      (site.afterAll ns).inFunction = site.inFunction ∧
      (site.afterAll ns).inClass = site.inClass := by
  induction ns generalizing site with
  | nil => simp [afterAll]
  | cons n ns ih =>
    have h := after_context site n
    have hrest := ih (site.after n)
    simp only [afterAll]
    grind

end Site

mutual

/-- The node and all in it have the right distances and stand where they can. -/
def Node.Scoped : Site → Node → Prop
  | site, .assign target value =>
    target.name.IsName ∧ site.Assigns target ∧ value.declared? = none ∧ value.Scoped site
  | site, .binary left operator right =>
    operator.kind ∈ Operator.binaryKinds ∧ (left.declared? = none ∧ left.Scoped site) ∧
      right.declared? = none ∧ right.Scoped site
  | site, .call callee paren arguments =>
    paren.isMissing = false ∧ (callee.declared? = none ∧ callee.Scoped site) ∧
      Node.ScopedEach site arguments
  | site, .property object name =>
    name.isMissing = false ∧ object.declared? = none ∧ object.Scoped site
  | site, .group inner => inner.declared? = none ∧ inner.Scoped site
  | _, .literal _ => True
  | site, .logical left operator right =>
    operator.isMissing = false ∧ (left.declared? = none ∧ left.Scoped site) ∧
      right.declared? = none ∧ right.Scoped site
  | site, .setProperty object name value =>
    name.isMissing = false ∧ (object.declared? = none ∧ object.Scoped site) ∧
      value.declared? = none ∧ value.Scoped site
  | site, .superMethod keyword method =>
    method.isMissing = false ∧ keyword.name.lexeme = "super" ∧
      ∃ hops, keyword.hops = some (hops + 1) ∧ Site.Binds site.scopes (hops + 1) "super" ∧
        Site.hopsTo? "this" site.scopes = some hops
  | site, .receiver keyword =>
    keyword.name.isMissing = false ∧ keyword.name.lexeme = "this" ∧
      ∃ hops, keyword.hops = some hops ∧ Site.hopsTo? "this" site.scopes = some hops
  | site, .unary operator right =>
    operator.kind ∈ Operator.unaryKinds ∧ right.declared? = none ∧ right.Scoped site
  | site, .ident name => name.name.isMissing = false ∧ site.Reads name
  | site, .block statements => Node.ScopedAll (site.inside []) statements
  | site, .classDecl name none methods =>
    site.Declares name ∧ Node.ScopedMethods ((site.declare name.lexeme).methods none) methods
  | site, .classDecl name (some parent) methods =>
    site.Declares name ∧ (parent.declared? = none ∧ (∃ r, parent = .ident r) ∧ parent.Scoped site) ∧
      Node.ScopedMethods ((site.declare name.lexeme).methods (some parent)) methods
  | site, .expression value => value.declared? = none ∧ value.Scoped site
  | site, .function name params body =>
    site.Declares name ∧ (∀ param ∈ params, param.IsName) ∧
      Node.ScopedAll ((site.declare name.lexeme).body .function params) body
  | site, .conditional condition thenBranch elseBranch =>
    (condition.declared? = none ∧ condition.Scoped site) ∧
      (thenBranch.declared? = none ∧ thenBranch.Scoped site) ∧
      Node.ScopedOption site elseBranch
  | site, .print value => value.declared? = none ∧ value.Scoped site
  | site, .returning _ value =>
    site.inFunction ≠ .none ∧ (site.inFunction = .initializer → value = none) ∧
      Node.ScopedOption site value
  | site, .varDecl name initializer =>
    site.Declares name ∧ Node.ScopedOption (site.initializer name.lexeme) initializer
  | site, .loop condition body =>
    (condition.declared? = none ∧ condition.Scoped site) ∧ body.declared? = none ∧
      body.Scoped site
  | _, .misfit _ => False

/-- Nodes that stand side by side. -/
def Node.ScopedEach : Site → List Node → Prop
  | _, [] => True
  | site, n :: rest => (n.declared? = none ∧ n.Scoped site) ∧ Node.ScopedEach site rest

/-- Statements one after the other, each in the scope of what those before it declare. -/
def Node.ScopedAll : Site → List Node → Prop
  | _, [] => True
  | site, n :: rest => n.Scoped site ∧ Node.ScopedAll (site.after n) rest

/-- The methods of a class. -/
def Node.ScopedMethods : Site → List Node → Prop
  | _, [] => True
  | site, .function name params body :: rest =>
    (name.IsName ∧ (∀ param ∈ params, param.IsName) ∧
      Node.ScopedAll (site.body (Resolver.methodContext name) params) body) ∧
      Node.ScopedMethods site rest
  | _, _ :: _ => False

def Node.ScopedOption : Site → Option Node → Prop
  | _, none => True
  | site, some n => n.declared? = none ∧ n.Scoped site

end

end Lox
