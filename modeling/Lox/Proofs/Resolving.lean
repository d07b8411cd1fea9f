import Mathlib.Tactic
import Lox.Proofs.Scanning
import Lox.Proofs.Scoped
import Lox.Scope.Resolve

/-!
# Resolution without complaints makes scoped trees

The stack of open scopes that resolution works on says of each name what the site says: bound,
being initialized, or unknown (`Agrees`). Every node of a parsed tree is resolved at the site it
stands at, and leaves the stack as the site after it (`node_resolves`). What would make a distance
wrong is complained of, so a tree resolved without complaints is `Scoped`.
-/

namespace Lox

open Site (hopsTo? Binds declare_nil initializer_nil initializer_cons)

/-! ## The stack of scopes and the site -/

/-- What a scope of the stack says of each name, when one of them may be in initialization. -/
def Scope.Agrees (pending : Option String) (scope : Scope) (names : List String) : Prop :=
  ∀ x, scope.names.get? x =
    if pending = some x then some false else if x ∈ names then some true else none

/-- Only a name of the innermost scope can be in initialization. -/
def ScopesAgree : Option String → List Scope → List (List String) → Prop
  | pending, [], [] => pending = none
  | pending, scope :: stack, names :: scopes =>
    scope.Agrees pending names ∧ ScopesAgree none stack scopes
  | _, _, _ => False

/-- Inside a class `this` is bound, and inside a subclass `super` is bound one scope further out. -/
def ClassAgrees : ClassContext → List (List String) → Prop
  | .none, _ => True
  | .plain, scopes => ∃ hops, hopsTo? "this" scopes = some hops
  | .subclass, scopes =>
    ∃ hops, hopsTo? "this" scopes = some hops ∧ hopsTo? "super" scopes = some (hops + 1)

/-- Resolution stands at the site. -/
structure Surroundings.Agrees (s : Surroundings) (site : Site) : Prop where
  fault : s.fault = none
  scopes : ScopesAgree site.initializing s.scopes site.scopes
  inFunction : s.inFunction = site.inFunction
  inClass : s.inClass = site.inClass
  nested : ClassAgrees site.inClass site.scopes
  ne_this : site.initializing ≠ some "this"
  ne_super : site.initializing ≠ some "super"

theorem hopsTo?_of_scopesAgree {pending : Option String} {x : String} :
    ∀ {stack : List Scope} {scopes : List (List String)}, ScopesAgree pending stack scopes →
      Resolver.hopsTo? x stack = if pending = some x then some 0 else hopsTo? x scopes
  | [], [], h => by
    cases h
    rfl
  | scope :: stack, names :: scopes, h => by
    have hrest := hopsTo?_of_scopesAgree (x := x) h.2
    simp only [Resolver.hopsTo?, reduceCtorEq, if_false] at hrest
    have hfirst : scope.names.contains x = decide (pending = some x ∨ x ∈ names) := by
      rw [Table.contains, h.1 x]
      split_ifs <;> simp_all
    simp only [Resolver.hopsTo?, List.findIdx?_cons, hfirst, hrest, Site.hopsTo?_cons]
    split_ifs <;> simp_all
  | [], _ :: _, h => h.elim
  | _ :: _, [], h => h.elim

theorem isUnfinished_of_scopesAgree {pending : Option String} {x : String} :
    ∀ {stack : List Scope} {scopes : List (List String)}, ScopesAgree pending stack scopes →
      Resolver.isUnfinished x stack = decide (pending = some x)
  | [], [], h => by
    cases h
    rfl
  | scope :: stack, names :: scopes, h => by
    simp only [Resolver.isUnfinished, h.1 x]
    split_ifs <;> simp_all
  | [], _ :: _, h => h.elim
  | _ :: _, [], h => h.elim

theorem ScopesAgree.tail {pending : Option String} {names : List String}
    {scopes : List (List String)} : ∀ {stack : List Scope},
      ScopesAgree pending stack (names :: scopes) → ScopesAgree none stack.tail scopes
  | [], h => h.elim
  | _ :: _, h => h.2

theorem classAgrees_bind {c : ClassContext} {scopes : List (List String)} {name : Token}
    (hname : name.IsName) (h : ClassAgrees c scopes) :
    ClassAgrees c (Site.bind name.lexeme scopes) := by
  cases c with
  | none => trivial
  | plain =>
    obtain ⟨hops, h⟩ := h
    exact ⟨hops, by rw [Site.hopsTo?_bind hname.ne_this.symm, h]⟩
  | subclass =>
    obtain ⟨hops, h, h'⟩ := h
    exact ⟨hops, by rw [Site.hopsTo?_bind hname.ne_this.symm, h], by
      rw [Site.hopsTo?_bind hname.ne_super.symm, h']⟩

theorem classAgrees_cons {c : ClassContext} {names : List String} {scopes : List (List String)}
    (hthis : "this" ∉ names) (hsuper : "super" ∉ names) (h : ClassAgrees c scopes) :
    ClassAgrees c (names :: scopes) := by
  cases c with
  | none => trivial
  | plain =>
    obtain ⟨hops, h⟩ := h
    exact ⟨hops + 1, by simp [Site.hopsTo?_cons, hthis, h]⟩
  | subclass =>
    obtain ⟨hops, h, h'⟩ := h
    exact ⟨hops + 1, by simp [Site.hopsTo?_cons, hthis, h], by
      simp [Site.hopsTo?_cons, hsuper, h']⟩

namespace Resolver

variable {α β : Type}

/-! ## Resolvers that do not complain -/

/-- If the resolver does not complain, its value and what it leaves are as described. -/
def Clean (r : Resolver α) (s : Surroundings) (Q : α → Surroundings → Prop) : Prop :=
  (r s).complaints = [] → Q (r s).value (r s).surroundings

theorem clean_pure {a : α} {s : Surroundings} {Q : α → Surroundings → Prop} (h : Q a s) :
    Clean (Pure.pure a) s Q := fun _ => h

theorem Clean.bind {r : Resolver α} {f : α → Resolver β} {s : Surroundings}
    {P : α → Surroundings → Prop} {Q : β → Surroundings → Prop} (hr : Clean r s P)
    (hf : ∀ a s', P a s' → Clean (f a) s' Q) : Clean (r >>= f) s Q := by
  intro h
  obtain ⟨hfirst, hsecond⟩ := List.append_eq_nil_iff.1
    (show (r s).complaints ++ (f (r s).value (r s).surroundings).complaints = [] from h)
  exact hf _ _ (hr hfirst) hsecond

theorem Clean.mono {r : Resolver α} {s : Surroundings} {P Q : α → Surroundings → Prop}
    (hr : Clean r s P) (h : ∀ a s', P a s' → Q a s') : Clean r s Q := fun hc => h _ _ (hr hc)

theorem clean_get {s : Surroundings} : Clean Resolver.get s fun found s' => found = s ∧ s' = s :=
  fun _ => ⟨rfl, rfl⟩

/-- A token that is there is complained of. -/
theorem not_clean_complain {s : Surroundings} (hs : s.fault = none) {token : Token}
    (ht : token.isMissing = false) {problem : Problem} {Q : Unit → Surroundings → Prop} :
    Clean (complain token problem) s Q := by
  intro h
  simp [complain, hs, ht] at h

/-! ## Names -/

theorem checkName_eq {name : Token} (h : name.isMissing = false) :
    checkName name = Pure.pure () := by
  funext s
  simp [checkName, h, Bind.bind, Resolver.bind, Resolver.get, Pure.pure, Resolver.pure]

/-- After its declaration a name is in initialization, and it was not bound in its scope before. -/
theorem clean_declare {s : Surroundings} {site : Site} (h : s.Agrees site)
    (hsite : site.initializing = none) {name : Token} (hname : name.IsName) :
    Clean (declare name) s fun _ s' => s'.Agrees (site.initializer name.lexeme) ∧
      site.Declares name := by
  have hscopes := h.scopes
  rw [hsite] at hscopes
  rw [declare, checkName_eq hname.present, pure_bind]
  refine clean_get.bind fun found s'' hs' => ?_
  obtain ⟨rfl, rfl⟩ := hs'
  rcases hstack : s''.scopes with _ | ⟨scope, stack⟩ <;> rcases hsites : site.scopes with
    _ | ⟨names, scopes⟩ <;> rw [hstack, hsites] at hscopes
  · rw [initializer_nil hsites]
    exact clean_pure ⟨h, hname, by simp [hsites]⟩
  · exact hscopes.elim
  · exact hscopes.elim
  · simp only
    split
    · exact (not_clean_complain h.fault hname.present).bind (P := fun _ _ => False)
        fun _ _ hf => hf.elim
    · rename_i hfree
      have hget := hscopes.1 name.lexeme
      have hnames : name.lexeme ∉ names := by
        intro hmem
        simp [Table.contains, hget, hmem] at hfree
      intro _
      refine ⟨?_, hname, by simpa [hsites] using hnames⟩
      rw [initializer_cons hsites]
      refine ⟨h.fault, ?_, h.inFunction, h.inClass, h.nested, ?_, ?_⟩
      · simp only [modifyInnermost, modify, hstack, List.modify_zero_cons, hsites]
        refine ⟨fun x => ?_, hscopes.2⟩
        rw [Table.get?_insert, hscopes.1 x]
        by_cases hx : x = name.lexeme <;> simp [hx, eq_comm]
      · simpa using hname.ne_this
      · simpa using hname.ne_super

/-- A definition ends the initialization. -/
theorem clean_define {s : Surroundings} {site : Site} {name : Token}
    (h : s.Agrees (site.initializer name.lexeme)) (hsite : site.initializing = none)
    (hname : name.IsName) :
    Clean (define name) s fun _ s' =>
      s'.Agrees (site.declare name.lexeme) := by
  intro _
  have hscopes := h.scopes
  rcases hsites : site.scopes with _ | ⟨names, scopes⟩
  · rw [initializer_nil hsites] at h hscopes
    rw [hsites] at hscopes
    rcases hstack : s.scopes with _ | ⟨scope, stack⟩ <;> rw [hstack] at hscopes
    · rw [declare_nil hsites]
      refine ⟨h.fault, ?_, h.inFunction, h.inClass, h.nested, h.ne_this, h.ne_super⟩
      simp only [define, modifyInnermost, modify, hstack, hsites]
      exact hsite
    · exact hscopes.elim
  · rw [initializer_cons hsites] at h hscopes
    rw [hsites] at hscopes
    rcases hstack : s.scopes with _ | ⟨scope, stack⟩ <;> rw [hstack] at hscopes
    · exact hscopes.elim
    · refine ⟨h.fault, ?_, h.inFunction, h.inClass, classAgrees_bind hname h.nested, ?_, ?_⟩
      · simp only [define, modifyInnermost, modify, hstack, List.modify_zero_cons, hsite, hsites,
          Site.declare, Site.bind]
        refine ⟨fun x => ?_, hscopes.2⟩
        rw [Table.get?_insert, hscopes.1 x]
        by_cases hx : x = name.lexeme <;> simp [hx, eq_comm]
      · simp [Site.declare, hsite]
      · simp [Site.declare, hsite]

/-- A name that is defined as soon as it is declared. -/
theorem clean_introduce {s : Surroundings} {site : Site} (h : s.Agrees site)
    (hsite : site.initializing = none) {name : Token} (hname : name.IsName) {r : Resolver α}
    {Q : α → Surroundings → Prop}
    (hr : ∀ s', s'.Agrees (site.declare name.lexeme) → site.Declares name → Clean r s' Q) :
    Clean (do declare name; define name; r) s Q :=
  (clean_declare h hsite hname).bind fun _ _ hd => (clean_define hd.1 hsite hname).bind
    fun _ s' hs' => hr s' hs' hd.2

theorem clean_watch {s : Surroundings} {site : Site} (h : s.Agrees site) {name : Token} :
    Clean (watch name) s fun _ s' => s'.Agrees site := by
  intro _
  refine ⟨h.fault, ?_, h.inFunction, h.inClass, h.nested, h.ne_this, h.ne_super⟩
  have hscopes := h.scopes
  rcases hstack : s.scopes with _ | ⟨scope, stack⟩ <;>
    simp only [watch, modifyInnermost, modify, hstack, List.modify_zero_cons]
  · rw [hstack] at hscopes
    exact hscopes
  · rw [hstack] at hscopes
    rcases hsites : site.scopes with _ | ⟨names, scopes⟩ <;> rw [hsites] at hscopes
    · exact hscopes.elim
    · exact hscopes

theorem clean_locate {s : Surroundings} {site : Site} (hs : s.fault = none)
    (h : ScopesAgree site.initializing s.scopes site.scopes) {r : Reference}
    (hname : r.name.isMissing = false) :
    Clean (locate r) s fun found s' =>
      s' = s ∧ found = { r with hops := site.hops r.name.lexeme } := by
  rw [locate, checkName_eq hname, pure_bind]
  refine clean_get.bind fun found s' hs' => ?_
  obtain ⟨rfl, rfl⟩ := hs'
  simp only [hs, Option.isSome_none, Bool.false_eq_true, if_false]
  exact clean_pure ⟨rfl, by rw [hopsTo?_of_scopesAgree h, Site.hops]⟩

/-- Forgetting that a variable is unused changes no name. -/
theorem scopesAgree_modify_unused {f : Table Token → Table Token} :
    ∀ {stack : List Scope} {scopes : List (List String)} {pending : Option String} (hops : Nat),
      ScopesAgree pending stack scopes →
      ScopesAgree pending
        (stack.modify hops fun scope => { scope with unused := f scope.unused }) scopes
  | [], [], _, hops, h => by
    cases hops <;> exact h
  | _ :: _, _ :: _, _, 0, h => h
  | _ :: _, _ :: _, _, hops + 1, h => ⟨h.1, scopesAgree_modify_unused hops h.2⟩
  | [], _ :: _, _, _, h => h.elim
  | _ :: _, [], _, _, h => h.elim

theorem clean_read {s : Surroundings} {site : Site} (hs : s.fault = none)
    (h : ScopesAgree site.initializing s.scopes site.scopes) {r : Reference}
    (hname : r.name.isMissing = false) :
    Clean (read r) s fun found s' => (∃ stack, s' = { s with scopes := stack } ∧
      ScopesAgree site.initializing stack site.scopes) ∧ found.name = r.name ∧
      site.Reads found := by
  rw [read]
  refine clean_get.bind fun found s' hs' => ?_
  obtain ⟨rfl, rfl⟩ := hs'
  rw [isUnfinished_of_scopesAgree h]
  split
  · exact (not_clean_complain hs hname).bind (P := fun _ _ => False) fun _ _ hf => hf.elim
  · rename_i hready
    refine (clean_locate hs h hname).bind fun found s'' hs' => ?_
    obtain ⟨rfl, hfound⟩ := hs'
    have hpending : site.initializing ≠ some r.name.lexeme := by simpa using hready
    rw [Site.hops, if_neg hpending] at hfound
    have hreads : site.Reads found := by
      rw [hfound]
      exact ⟨hpending, rfl⟩
    rcases hhops : found.hops with _ | hops <;> simp only
    · exact clean_pure ⟨⟨_, rfl, h⟩, by rw [hfound], hreads⟩
    · intro _
      exact ⟨⟨_, rfl, scopesAgree_modify_unused (f := (·.erase r.name.lexeme)) hops h⟩, by
        rw [hfound]; rfl, hreads⟩

/-! ## Scopes, functions and classes -/

theorem clean_withScope {s : Surroundings} {scope : Scope} {body : Resolver α}
    {Q : α → Surroundings → Prop}
    (hbody : Clean body { s with scopes := scope :: s.scopes } fun a s' =>
      Q a { s' with scopes := s'.scopes.tail }) : Clean (withScope scope body) s Q := by
  intro h
  exact hbody (List.append_eq_nil_iff.1 h).1

theorem clean_withFunction {s : Surroundings} {kind : FunctionContext} {body : Resolver α}
    {Q : α → Surroundings → Prop}
    (hbody : Clean body { s with inFunction := kind } fun a s' =>
      Q a { s' with inFunction := s.inFunction }) : Clean (withFunction kind body) s Q :=
  fun h => hbody h

theorem clean_withClass {s : Surroundings} {kind : ClassContext} {body : Resolver α}
    {Q : α → Surroundings → Prop}
    (hbody : Clean body { s with inClass := kind } fun a s' =>
      Q a { s' with inClass := s.inClass }) : Clean (withClass kind body) s Q :=
  fun h => hbody h

/-- Going into a scope whose names are all bound. -/
theorem agrees_inside {s : Surroundings} {site : Site} (h : s.Agrees site)
    (hsite : site.initializing = none) {scope : Scope} {names : List String}
    (hscope : scope.Agrees none names) (hthis : "this" ∉ names) (hsuper : "super" ∉ names) :
    Surroundings.Agrees { s with scopes := scope :: s.scopes } (site.inside names) := by
  have hscopes := h.scopes
  rw [hsite] at hscopes
  exact ⟨h.fault, ⟨hscope, hscopes⟩, h.inFunction, h.inClass,
    classAgrees_cons hthis hsuper h.nested, nofun, nofun⟩

/-- What is left of the stack when a scope closes is as it was around it. -/
theorem scopesAgree_tail {s : Surroundings} {inner : Site} {scopes : List (List String)}
    (h : s.Agrees inner) (htail : inner.scopes.tail = scopes) (hne : inner.scopes ≠ []) :
    ScopesAgree none s.scopes.tail scopes := by
  have hscopes := h.scopes
  subst htail
  rcases hsites : inner.scopes with _ | ⟨names, rest⟩
  · exact absurd hsites hne
  · rw [hsites] at hscopes
    exact hscopes.tail

theorem afterAll_ne_nil {site : Site} {names : List String} {scopes : List (List String)}
    (h : site.scopes = names :: scopes) (ns : List Node) : (site.afterAll ns).scopes ≠ [] := by
  intro hnil
  have hlength := (Site.afterAll_context site ns).2.1
  simp [hnil, h] at hlength

theorem scope_agrees_empty : Scope.Agrees none {} [] := fun _ => by simp

theorem scope_agrees_singleton (name : String) :
    Scope.Agrees none { names := Table.empty.insert name true } [name] := by
  intro x
  by_cases h : x = name <;> simp [h]

/-- The same names in another order. -/
theorem agrees_congr {s : Surroundings} {site : Site} {names names' : List String}
    {scopes : List (List String)} (hnames : ∀ x, x ∈ names ↔ x ∈ names')
    (h : s.Agrees { site with scopes := names :: scopes }) :
    s.Agrees { site with scopes := names' :: scopes } := by
  have hhops : ∀ x, Site.hopsTo? x (names :: scopes) = Site.hopsTo? x (names' :: scopes) := by
    simp [Site.hopsTo?_cons, hnames]
  refine ⟨h.fault, ?_, h.inFunction, h.inClass, ?_, h.ne_this, h.ne_super⟩
  · have hscopes := h.scopes
    rcases hstack : s.scopes with _ | ⟨scope, stack⟩ <;> rw [hstack] at hscopes
    · exact hscopes.elim
    · exact ⟨fun x => by rw [hscopes.1 x]; simp [hnames], hscopes.2⟩
  · have hnested := h.nested
    rcases hclass : site.inClass with _ | _ | _ <;>
      simp only [hclass, ClassAgrees, hhops] at hnested ⊢
    · exact hnested
    · exact hnested

theorem clean_checkSuper {s : Surroundings} {site : Site} (h : s.Agrees site) {keyword : Token}
    (hkeyword : keyword.isMissing = false) :
    Clean (checkSuper keyword) s fun _ s' => s' = s ∧ ∃ hops,
      Site.hopsTo? "this" site.scopes = some hops ∧
      Site.hopsTo? "super" site.scopes = some (hops + 1) := by
  rw [checkSuper]
  refine clean_get.bind fun found s' hs' => ?_
  obtain ⟨rfl, rfl⟩ := hs'
  have hnested := h.nested
  rw [← h.inClass] at hnested
  split
  · exact not_clean_complain h.fault hkeyword
  · exact not_clean_complain h.fault hkeyword
  · rename_i hclass
    rw [hclass] at hnested
    exact clean_pure ⟨rfl, hnested⟩

theorem hopsTo?_this {c : ClassContext} {scopes : List (List String)} (h : ClassAgrees c scopes)
    (hc : c ≠ .none) : ∃ hops, Site.hopsTo? "this" scopes = some hops := by
  cases c with
  | none => exact absurd rfl hc
  | plain => exact h
  | subclass => exact ⟨h.choose, h.choose_spec.1⟩

/-- Leaving a scope. -/
theorem agrees_leave {s s' : Surroundings} {site : Site} (h : s.Agrees site)
    (hsite : site.initializing = none) {names : List String} {ns : List Node}
    (h' : s'.Agrees ((site.inside names).afterAll ns)) :
    Surroundings.Agrees { s' with scopes := s'.scopes.tail } site := by
  obtain ⟨htail, -, -, hfunction, hclass⟩ := Site.afterAll_context (site.inside names) ns
  have hscopes := scopesAgree_tail h' htail (afterAll_ne_nil rfl ns)
  refine ⟨h'.fault, ?_, h'.inFunction.trans hfunction, h'.inClass.trans hclass, h.nested, h.ne_this,
    h.ne_super⟩
  rw [hsite]
  exact hscopes

/-! ## Trees -/

/-- Resolving the node makes it scoped and leaves the site after it. -/
def Resolves (site : Site) (n : Node) : Prop := ∀ s, s.Agrees site →
  Clean (node n) s fun n' s' => (n'.declared? = n.declared? ∧ n'.Scoped site) ∧
    s'.Agrees (site.after n)

/-- Resolving the node makes it scoped, and it declares nothing. -/
def ResolvesPart (site : Site) (n : Node) : Prop := ∀ s, s.Agrees site →
  Clean (node n) s fun n' s' => (n'.declared? = none ∧ n'.Scoped site) ∧ s'.Agrees site

def ResolvesOption (site : Site) (found : Option Node) : Prop := ∀ s, s.Agrees site →
  Clean (nodeOption found) s fun found' s' =>
    ((found = none → found' = none) ∧ Node.ScopedOption site found') ∧ s'.Agrees site

def ResolvesEach (site : Site) (ns : List Node) : Prop := ∀ s, s.Agrees site →
  Clean (arguments ns) s fun ns' s' => Node.ScopedEach site ns' ∧ s'.Agrees site

def ResolvesAll (site : Site) (ns : List Node) : Prop := ∀ s, s.Agrees site →
  Clean (nodes ns) s fun ns' s' => Node.ScopedAll site ns' ∧ s'.Agrees (site.afterAll ns)

def ResolvesMethods (site : Site) (ns : List Node) : Prop := ∀ s, s.Agrees site →
  Clean (methods ns) s fun ns' s' => Node.ScopedMethods site ns' ∧ s'.Agrees site

section Cases

variable {site : Site}

theorem Resolves.part {n : Node} (h : Resolves site n) (hn : n.declared? = none) :
    ResolvesPart site n := by
  intro s hs
  have hafter : site.after n = site := Site.after_eq_self hn
  refine (h s hs).mono fun n' s' hr => ⟨⟨hr.1.1.trans hn, hr.1.2⟩, ?_⟩
  rw [← hafter]
  exact hr.2

theorem resolves_assign {target : Reference} {value : Node} (htarget : target.name.IsName)
    (hvalue : ResolvesPart site value) : Resolves site (.assign target value) := by
  intro s hs
  refine (hvalue s hs).bind fun value' s₁ hv => ?_
  refine (clean_locate hv.2.fault hv.2.scopes htarget.present).bind fun target' s₂ ht => ?_
  obtain ⟨rfl, rfl⟩ := ht
  exact clean_pure ⟨⟨rfl, htarget, rfl, hv.1⟩, hv.2⟩

theorem resolves_binary {left right : Node} {operator : Token}
    (hoperator : operator.kind ∈ Operator.binaryKinds) (hleft : ResolvesPart site left)
    (hright : ResolvesPart site right) : Resolves site (.binary left operator right) := by
  intro s hs
  refine (hleft s hs).bind fun left' s₁ hl => ?_
  refine (hright s₁ hl.2).bind fun right' s₂ hr => ?_
  exact clean_pure ⟨⟨rfl, hoperator, hl.1, hr.1⟩, hr.2⟩

theorem resolves_call {callee : Node} {paren : Token} {values : List Node}
    (hparen : paren.isMissing = false) (hcallee : ResolvesPart site callee)
    (hvalues : ResolvesEach site values) : Resolves site (.call callee paren values) := by
  intro s hs
  refine (hcallee s hs).bind fun callee' s₁ hc => ?_
  refine (hvalues s₁ hc.2).bind fun values' s₂ hv => ?_
  exact clean_pure ⟨⟨rfl, hparen, hc.1, hv.1⟩, hv.2⟩

theorem resolves_property {object : Node} {name : Token} (hname : name.isMissing = false)
    (hobject : ResolvesPart site object) : Resolves site (.property object name) := by
  intro s hs
  exact (hobject s hs).bind fun object' s₁ ho => clean_pure ⟨⟨rfl, hname, ho.1⟩, ho.2⟩

theorem resolves_group {inner : Node} (hinner : ResolvesPart site inner) :
    Resolves site (.group inner) := by
  intro s hs
  exact (hinner s hs).bind fun inner' s₁ hi => clean_pure ⟨⟨rfl, hi.1⟩, hi.2⟩

theorem resolves_literal {value : Literal} : Resolves site (.literal value) := by
  intro s hs
  exact clean_pure ⟨⟨rfl, trivial⟩, hs⟩

theorem resolves_logical {left right : Node} {operator : Token}
    (hoperator : operator.isMissing = false) (hleft : ResolvesPart site left)
    (hright : ResolvesPart site right) : Resolves site (.logical left operator right) := by
  intro s hs
  refine (hleft s hs).bind fun left' s₁ hl => ?_
  refine (hright s₁ hl.2).bind fun right' s₂ hr => ?_
  exact clean_pure ⟨⟨rfl, hoperator, hl.1, hr.1⟩, hr.2⟩

theorem resolves_setProperty {object value : Node} {name : Token} (hname : name.isMissing = false)
    (hobject : ResolvesPart site object) (hvalue : ResolvesPart site value) :
    Resolves site (.setProperty object name value) := by
  intro s hs
  refine (hvalue s hs).bind fun value' s₁ hv => ?_
  refine (hobject s₁ hv.2).bind fun object' s₂ ho => ?_
  exact clean_pure ⟨⟨rfl, hname, ho.1, hv.1⟩, ho.2⟩

theorem resolves_superMethod {keyword : Reference} {method : Token}
    (hkeyword : keyword.name.isMissing = false) (hlexeme : keyword.name.lexeme = "super")
    (hmethod : method.isMissing = false) : Resolves site (.superMethod keyword method) := by
  intro s hs
  refine (clean_checkSuper hs hkeyword).bind fun _ s₁ hs₁ => ?_
  obtain ⟨rfl, hops, hthis, hsuper⟩ := hs₁
  refine (clean_locate hs.fault hs.scopes hkeyword).bind fun keyword' s₂ hk => ?_
  obtain ⟨rfl, rfl⟩ := hk
  refine clean_pure ⟨⟨rfl, hmethod, hlexeme, hops, ?_, Site.binds_of_hopsTo? hsuper, hthis⟩, hs⟩
  simp only [Site.hops, hlexeme, if_neg hs.ne_super, hsuper]

theorem resolves_receiver {keyword : Reference} (hkeyword : keyword.name.isMissing = false)
    (hlexeme : keyword.name.lexeme = "this") : Resolves site (.receiver keyword) := by
  intro s hs
  refine clean_get.bind fun found s₁ hs₁ => ?_
  obtain ⟨rfl, rfl⟩ := hs₁
  split
  · exact (not_clean_complain hs.fault hkeyword).bind (P := fun _ _ => False)
      fun _ _ hf => hf.elim
  · rename_i hclass
    rw [hs.inClass] at hclass
    refine (clean_locate hs.fault hs.scopes hkeyword).bind fun keyword' s₂ hk => ?_
    obtain ⟨rfl, rfl⟩ := hk
    obtain ⟨hops, hthis⟩ := hopsTo?_this hs.nested hclass
    refine clean_pure ⟨⟨rfl, hkeyword, hlexeme, hops, ?_, hthis⟩, hs⟩
    simp only [Site.hops, hlexeme, if_neg hs.ne_this, hthis]

theorem resolves_unary {operator : Token} {right : Node}
    (hoperator : operator.kind ∈ Operator.unaryKinds) (hright : ResolvesPart site right) :
    Resolves site (.unary operator right) := by
  intro s hs
  exact (hright s hs).bind fun right' s₁ hr => clean_pure ⟨⟨rfl, hoperator, hr.1⟩, hr.2⟩

theorem resolves_ident {name : Reference} (hname : name.name.isMissing = false) :
    Resolves site (.ident name) := by
  intro s hs
  refine (clean_read hs.fault hs.scopes hname).bind fun name' s₁ hr => ?_
  obtain ⟨⟨stack, rfl, hstack⟩, hsame, hreads⟩ := hr
  refine clean_pure ⟨⟨rfl, by rwa [hsame], hreads⟩, ?_⟩
  exact ⟨hs.fault, hstack, hs.inFunction, hs.inClass, hs.nested, hs.ne_this, hs.ne_super⟩

theorem resolves_block {statements : List Node} (hsite : site.initializing = none)
    (hstatements : ResolvesAll (site.inside []) statements) :
    Resolves site (.block statements) := by
  intro s hs
  have hinside := agrees_inside hs hsite scope_agrees_empty (by simp) (by simp)
  refine (clean_withScope (Q := fun ns' s' => Node.ScopedAll (site.inside []) ns' ∧
    s'.Agrees site) ((hstatements _ hinside).mono fun ns' s₁ hs₁ => ?_)).bind
      fun ns' s' hs' => clean_pure ⟨⟨rfl, hs'.1⟩, hs'.2⟩
  exact ⟨hs₁.1, agrees_leave hs hsite hs₁.2⟩

theorem resolves_expression {value : Node} (hvalue : ResolvesPart site value) :
    Resolves site (.expression value) := by
  intro s hs
  exact (hvalue s hs).bind fun value' s₁ hv => clean_pure ⟨⟨rfl, hv.1⟩, hv.2⟩

theorem resolves_conditional {condition thenBranch : Node} {elseBranch : Option Node}
    (hcondition : ResolvesPart site condition) (hthen : ResolvesPart site thenBranch)
    (helse : ResolvesOption site elseBranch) :
    Resolves site (.conditional condition thenBranch elseBranch) := by
  intro s hs
  refine (hcondition s hs).bind fun condition' s₁ hc => ?_
  refine (hthen s₁ hc.2).bind fun thenBranch' s₂ ht => ?_
  refine (helse s₂ ht.2).bind fun elseBranch' s₃ he => ?_
  exact clean_pure ⟨⟨rfl, hc.1, ht.1, he.1.2⟩, he.2⟩

theorem resolves_print {value : Node} (hvalue : ResolvesPart site value) :
    Resolves site (.print value) := by
  intro s hs
  exact (hvalue s hs).bind fun value' s₁ hv => clean_pure ⟨⟨rfl, hv.1⟩, hv.2⟩

theorem resolves_returning {keyword : Token} {value : Option Node}
    (hkeyword : keyword.isMissing = false) (hvalue : ResolvesOption site value) :
    Resolves site (.returning keyword value) := by
  intro s hs
  refine clean_get.bind fun found s₁ hs₁ => ?_
  obtain ⟨rfl, rfl⟩ := hs₁
  simp only [hs.inFunction]
  split
  · exact (not_clean_complain hs.fault hkeyword).bind (P := fun _ _ => False)
      fun _ _ hf => hf.elim
  · rename_i hfunction
    split
    · exact (not_clean_complain hs.fault hkeyword).bind (P := fun _ _ => False)
        fun _ _ hf => hf.elim
    · rename_i hvalueless
      refine (hvalue _ hs).bind fun value' s₂ hv => ?_
      refine clean_pure ⟨⟨rfl, hfunction, fun hinit => hv.1.1 ?_, hv.1.2⟩, hv.2⟩
      simpa [hinit] using hvalueless

theorem resolves_varDecl {name : Token} {initializer : Option Node} (hname : name.IsName)
    (hsite : site.initializing = none)
    (hinitializer : ResolvesOption (site.initializer name.lexeme) initializer) :
    Resolves site (.varDecl name initializer) := by
  intro s hs
  refine (clean_declare hs hsite hname).bind fun _ s₁ hs₁ => ?_
  refine (hinitializer s₁ hs₁.1).bind fun initializer' s₂ hs₂ => ?_
  refine (clean_define hs₂.2 hsite hname).bind fun _ s₃ hs₃ => ?_
  refine (clean_watch hs₃).bind fun _ s₄ hs₄ => ?_
  exact clean_pure ⟨⟨rfl, hs₁.2, hs₂.1.2⟩, hs₄⟩

theorem resolves_loop {condition body : Node} (hcondition : ResolvesPart site condition)
    (hbody : ResolvesPart site body) : Resolves site (.loop condition body) := by
  intro s hs
  refine (hcondition s hs).bind fun condition' s₁ hc => ?_
  refine (hbody s₁ hc.2).bind fun body' s₂ hb => ?_
  exact clean_pure ⟨⟨rfl, hc.1, hb.1⟩, hb.2⟩

/-- The parameters of a function are bound in its scope. -/
theorem clean_parameters : ∀ {params : List Token} (_ : ∀ p ∈ params, p.IsName)
    {s : Surroundings} {site : Site} {names : List String} {scopes : List (List String)}
    (_ : s.Agrees site) (_ : site.initializing = none) (_ : site.scopes = names :: scopes),
    Clean (parameters params) s fun _ s' => ∃ bound,
      (∀ x, x ∈ bound ↔ x ∈ params.map (·.lexeme) ∨ x ∈ names) ∧
      s'.Agrees { site with scopes := bound :: scopes }
  | [], _, s, site, names, scopes, h, hsite, hscopes => by
    refine clean_pure ⟨names, by simp, ?_⟩
    rw [← hscopes]
    exact h
  | param :: params, hparams, s, site, names, scopes, h, hsite, hscopes => by
    obtain ⟨hparam, hrest⟩ := List.forall_mem_cons.1 hparams
    rw [parameters]
    refine clean_introduce h hsite hparam fun s' hs' _ => ?_
    have hbind : (site.declare param.lexeme).scopes = (param.lexeme :: names) :: scopes := by
      simp [Site.declare, hscopes, Site.bind]
    refine (clean_parameters hrest hs' hsite hbind).mono fun _ s'' hs'' => ?_
    obtain ⟨bound, hbound, hagrees⟩ := hs''
    exact ⟨bound, fun x => by rw [hbound]; simp [or_left_comm, or_assoc], hagrees⟩

/-- The body of a function, in a scope that binds its parameters. -/
theorem clean_functionBody {s : Surroundings} (h : s.Agrees site)
    (hsite : site.initializing = none) (kind : FunctionContext) {params : List Token}
    (hparams : ∀ p ∈ params, p.IsName) {body : List Node}
    (hbody : ResolvesAll (site.body kind params) body) :
    Clean (withFunction kind (withScope {} do parameters params; nodes body)) s fun ns' s' =>
      Node.ScopedAll (site.body kind params) ns' ∧ s'.Agrees site := by
  have hkind : Surroundings.Agrees { s with inFunction := kind }
      { site with inFunction := kind } :=
    ⟨h.fault, h.scopes, rfl, h.inClass, h.nested, h.ne_this, h.ne_super⟩
  have hinside := agrees_inside hkind hsite scope_agrees_empty (by simp) (by simp)
  refine clean_withFunction (clean_withScope ?_)
  refine (clean_parameters hparams hinside rfl rfl).bind fun _ s₁ hs₁ => ?_
  obtain ⟨bound, hbound, hs₁⟩ := hs₁
  have hparameters : s₁.Agrees (site.body kind params) :=
    agrees_congr (by simpa using hbound) hs₁
  refine (hbody s₁ hparameters).mono fun ns' s₂ hs₂ => ⟨hs₂.1, ?_⟩
  have hleave : Surroundings.Agrees { s₂ with scopes := s₂.scopes.tail }
      { site with inFunction := kind } := agrees_leave hkind hsite hs₂.2
  exact ⟨hleave.fault, hleave.scopes, h.inFunction, hleave.inClass, h.nested, h.ne_this, h.ne_super⟩

theorem resolves_function {name : Token} {params : List Token} {body : List Node}
    (hname : name.IsName) (hparams : ∀ p ∈ params, p.IsName) (hsite : site.initializing = none)
    (hbody : ResolvesAll ((site.declare name.lexeme).body .function params) body) :
    Resolves site (.function name params body) := by
  intro s hs
  refine clean_introduce hs hsite hname fun s₁ hs₁ hdeclares => ?_
  refine (clean_functionBody hs₁ hsite .function hparams hbody).bind fun body' s₃ hs₃ => ?_
  exact clean_pure ⟨⟨rfl, hdeclares, hparams, hs₃.1⟩, hs₃.2⟩

theorem clean_checkSuperclass {s : Surroundings} (hs : s.fault = none) {name : Token}
    {parent : Reference} (hname : name.isMissing = false)
    (hparent : parent.name.isMissing = false) :
    Clean (checkSuperclass name (.ident parent)) s fun _ s' =>
      s' = s ∧ parent.name.lexeme ≠ name.lexeme := by
  simp only [checkSuperclass, Node.name?, hname, hparent, Bool.or_false, Bool.false_eq_true,
    if_false]
  split
  · exact not_clean_complain hs hparent
  · rename_i hne
    exact clean_pure ⟨rfl, Ne.symm hne⟩

theorem resolves_classDecl {name : Token} {declarations : List Node} (hname : name.IsName)
    (hsite : site.initializing = none)
    (hmethods : ResolvesMethods ((site.declare name.lexeme).methods none) declarations) :
    Resolves site (.classDecl name none declarations) := by
  intro s hs
  refine clean_introduce hs hsite hname fun s₁ hs₁ hdeclares => ?_
  have hpending : (site.declare name.lexeme).initializing = none := hsite
  have hscopes := hs₁.scopes
  rw [hpending] at hscopes
  have hinside : Surroundings.Agrees { s₁ with scopes := thisScope :: s₁.scopes, inClass := .plain }
      ((site.declare name.lexeme).methods none) :=
    ⟨hs₁.fault, ⟨scope_agrees_singleton _, hscopes⟩, hs₁.inFunction, rfl,
      ⟨0, by simp [Site.methods, Site.inside, Site.hopsTo?_cons]⟩, nofun, nofun⟩
  refine Clean.bind (P := fun ns' s' =>
    Node.ScopedMethods ((site.declare name.lexeme).methods none) ns' ∧
      s'.Agrees (site.declare name.lexeme)) (clean_withClass (clean_withScope
    ((hmethods _ hinside).mono fun ns' s₂ hs₂ => ⟨hs₂.1, ?_⟩)))
    fun declarations' s₂ hs₂ => clean_pure ⟨⟨rfl, hdeclares, hs₂.1⟩, hs₂.2⟩
  refine ⟨hs₂.2.fault, ?_, hs₂.2.inFunction, hs₁.inClass, hs₁.nested, hs₁.ne_this, hs₁.ne_super⟩
  rw [hpending]
  exact scopesAgree_tail hs₂.2 rfl nofun

theorem resolves_subclass {name : Token} {parent : Reference} {declarations : List Node}
    (hname : name.IsName) (hparent : parent.name.isMissing = false)
    (hsite : site.initializing = none)
    (hmethods : ResolvesMethods ((site.declare name.lexeme).methods (some (.ident parent)))
      declarations) :
    Resolves site (.classDecl name (some (.ident parent)) declarations) := by
  intro s hs
  refine clean_introduce hs hsite hname fun s₁ hs₁ hdeclares => ?_
  refine (clean_checkSuperclass hs₁.fault hname.present hparent).bind fun _ s₂ hs₂ => ?_
  obtain ⟨rfl, hne⟩ := hs₂
  have hpending : (site.declare name.lexeme).initializing = none := hsite
  refine clean_withClass (Clean.bind (P := fun parent' s' => (parent'.declared? = none ∧
    (∃ r, parent' = .ident r) ∧ parent'.Scoped site) ∧ ∃ stack,
      s' = { s₂ with inClass := .subclass, scopes := stack } ∧
      ScopesAgree none stack (site.declare name.lexeme).scopes) ?_ fun parent' s₃ hs₃ => ?_)
  · -- The class is bound already, but the superclass has another name.
    refine (clean_read (s := { s₂ with inClass := .subclass }) hs₁.fault hs₁.scopes hparent).bind
      fun found s₃ hs₃ => ?_
    obtain ⟨⟨stack, rfl, hstack⟩, hsame, -, hhops⟩ := hs₃
    rw [hpending] at hstack
    refine clean_pure ⟨⟨rfl, ⟨found, rfl⟩, by rwa [hsame], ?_, ?_⟩, stack, rfl, hstack⟩
    · rw [hsite]
      exact nofun
    · rw [hhops]
      exact Site.hopsTo?_bind (by rwa [hsame]) _
  · obtain ⟨hparent', stack, rfl, hstack⟩ := hs₃
    have hinside : Surroundings.Agrees { s₂ with
          scopes := thisScope :: superScope :: stack, inClass := .subclass }
        ((site.declare name.lexeme).methods (some (.ident parent))) :=
      ⟨hs₁.fault, ⟨scope_agrees_singleton _, scope_agrees_singleton _, hstack⟩, hs₁.inFunction,
        rfl, ⟨0, by simp [Site.methods, Site.inside, Site.hopsTo?_cons]⟩, nofun, nofun⟩
    refine Clean.bind (P := fun ns' s' =>
      Node.ScopedMethods ((site.declare name.lexeme).methods (some (.ident parent))) ns' ∧
        Surroundings.Agrees { s' with inClass := s₂.inClass } (site.declare name.lexeme))
      (clean_withScope (clean_withScope ((hmethods _ hinside).mono
        fun ns' s₃ hs₃ => ⟨hs₃.1, ?_⟩)))
      fun declarations' s₃ hs₃ => clean_pure ⟨⟨rfl, hdeclares, hparent', hs₃.1⟩, hs₃.2⟩
    refine ⟨hs₃.2.fault, ?_, hs₃.2.inFunction, hs₁.inClass, hs₁.nested, hs₁.ne_this,
      hs₁.ne_super⟩
    rw [hpending]
    exact (scopesAgree_tail hs₃.2 rfl nofun).tail

end Cases

/-- Such tokens were scanned, the one that ends a source apart. -/
def AllLexed (ok : Token → Prop) : Prop := ∀ t, ok t → t.kind ≠ .eof → Scan.IsLexed t

section Trees

variable {ok : Token → Prop}

theorem declared?_eq_none {role : Role} {n : Node} (h : n.Fits ok role)
    (hrole : role = .expression ∨ role = .statement) : n.declared? = none := by
  cases n <;> simp only [Node.declared?] <;> simp only [Node.Fits] at h <;> grind

theorem eq_ident_of_fitsSuperclass {parent : Node} (h : FitsSuperclass ok (some parent)) :
    ∃ r, parent = .ident r ∧ r.IsFresh ok .identifier := by
  cases parent with
  | ident r => exact ⟨r, rfl, h⟩
  | _ => exact h.elim

theorem ne_expression_of_isStatement {role : Role} (h : role.IsStatement) :
    role ≠ .expression := by
  rcases h with rfl | rfl <;> decide

/-- An expression declares nothing. -/
theorem Resolves.expression {site : Site} {n : Node} (h : Resolves site n)
    (hn : n.Fits ok .expression) : ResolvesPart site n :=
  h.part (declared?_eq_none hn (.inl rfl))

/-! Parsing puts no misfits into a list. -/

section Lists

variable {role : Role} {n : Node}

theorem arguments_cons (hn : n.Fits ok role) (rest : List Node) :
    arguments (n :: rest) = do
      let n ← node n
      return n :: (← arguments rest) := by
  rw [arguments]
  rintro content rfl
  exact hn.elim

theorem nodes_cons (hn : n.Fits ok role) (rest : List Node) :
    nodes (n :: rest) = do
      let n ← node n
      return n :: (← nodes rest) := by
  rw [nodes]
  rintro items rfl
  exact hn.elim

theorem methods_cons {name : Token} (hname : name.isMissing = false) (params : List Token)
    (body rest : List Node) :
    methods (.function name params body :: rest) = do
      let body ← withFunction (methodContext name) (withScope {} do
        parameters params
        nodes body)
      return .function name params body :: (← methods rest) := by
  simp only [methods, hname, Bool.false_eq_true, if_false]

end Lists

section Lexed

variable (hok : AllLexed ok)

include hok

theorem is_present {t : Token} {kind : TokenKind} (h : t.Is ok kind) (hkind : kind ≠ .eof) :
    t.isMissing = false :=
  (hok t h.1 (h.2 ▸ hkind)).not_isMissing

theorem isName_of_is {t : Token} (h : t.Is ok .identifier) : t.IsName := by
  have hlexed := hok t h.1 (by rw [h.2]; decide)
  exact ⟨h.2, hlexed.lexeme_ne_keyword h.2 (by decide), hlexed.lexeme_ne_keyword h.2 (by decide)⟩

theorem logical_present {t : Token} (h : ok t) (hkind : t.kind ∈ Operator.logicalKinds) :
    t.isMissing = false := by
  refine (hok t h fun heof => ?_).not_isMissing
  rw [heof] at hkind
  exact absurd hkind (by decide)

end Lexed

mutual

/-- A parsed node is resolved at its site. Only an expression can be part of an initializer. -/
theorem node_resolves (hok : AllLexed ok) {role : Role} {site : Site} (n : Node)
    (hn : n.Fits ok role)
    (hrole : role ≠ .expression → site.initializing = none) : Resolves site n := by
  match n, hn with
  | .assign target value, hn =>
    obtain ⟨-, ⟨htarget, -⟩, hvalue⟩ := hn
    exact resolves_assign (isName_of_is hok htarget)
      ((node_resolves hok value hvalue nofun).expression hvalue)
  | .binary left operator right, hn =>
    obtain ⟨-, ⟨-, hoperator⟩, hleft, hright⟩ := hn
    exact resolves_binary hoperator ((node_resolves hok left hleft nofun).expression hleft)
      ((node_resolves hok right hright nofun).expression hright)
  | .call callee paren values, hn =>
    obtain ⟨-, hparen, hcallee, hvalues⟩ := hn
    exact resolves_call (is_present hok hparen (by decide))
      ((node_resolves hok callee hcallee nofun).expression hcallee)
      (arguments_resolve hok values hvalues)
  | .property object name, hn =>
    obtain ⟨-, hname, hobject⟩ := hn
    exact resolves_property (is_present hok hname (by decide))
      ((node_resolves hok object hobject nofun).expression hobject)
  | .group inner, hn =>
    obtain ⟨-, hinner⟩ := hn
    exact resolves_group ((node_resolves hok inner hinner nofun).expression hinner)
  | .literal value, _ => exact resolves_literal
  | .logical left operator right, hn =>
    obtain ⟨-, ⟨hoperator, hkind⟩, hleft, hright⟩ := hn
    exact resolves_logical (logical_present hok hoperator hkind)
      ((node_resolves hok left hleft nofun).expression hleft)
      ((node_resolves hok right hright nofun).expression hright)
  | .setProperty object name value, hn =>
    obtain ⟨-, hname, hobject, hvalue⟩ := hn
    exact resolves_setProperty (is_present hok hname (by decide))
      ((node_resolves hok object hobject nofun).expression hobject)
      ((node_resolves hok value hvalue nofun).expression hvalue)
  | .superMethod keyword method, hn =>
    obtain ⟨-, ⟨hkeyword, -⟩, hmethod⟩ := hn
    exact resolves_superMethod (is_present hok hkeyword (by decide))
      ((hok _ hkeyword.1 (by rw [hkeyword.2]; decide)).lexeme_super hkeyword.2)
      (is_present hok hmethod (by decide))
  | .receiver keyword, hn =>
    obtain ⟨-, hkeyword, -⟩ := hn
    exact resolves_receiver (is_present hok hkeyword (by decide))
      ((hok _ hkeyword.1 (by rw [hkeyword.2]; decide)).lexeme_this hkeyword.2)
  | .unary operator right, hn =>
    obtain ⟨-, ⟨-, hoperator⟩, hright⟩ := hn
    exact resolves_unary hoperator ((node_resolves hok right hright nofun).expression hright)
  | .ident name, hn =>
    obtain ⟨-, hname, -⟩ := hn
    exact resolves_ident (is_present hok hname (by decide))
  | .block statements, hn =>
    obtain ⟨hstatement, hstatements⟩ := hn
    exact resolves_block (hrole (ne_expression_of_isStatement hstatement))
      (nodes_resolve hok statements hstatements rfl)
  | .classDecl name none declarations, hn =>
    obtain ⟨hdeclaration, hname, -, hmethods⟩ := hn
    exact resolves_classDecl (isName_of_is hok hname) (hrole (by rw [hdeclaration]; decide))
      (methods_resolve hok declarations hmethods rfl)
  | .classDecl name (some parent) declarations, hn =>
    obtain ⟨hdeclaration, hname, hparent, hmethods⟩ := hn
    obtain ⟨r, rfl, hr⟩ := eq_ident_of_fitsSuperclass hparent
    exact resolves_subclass (isName_of_is hok hname) (is_present hok hr.1 (by decide))
      (hrole (by rw [hdeclaration]; decide)) (methods_resolve hok declarations hmethods rfl)
  | .expression value, hn =>
    obtain ⟨-, hvalue⟩ := hn
    exact resolves_expression ((node_resolves hok value hvalue nofun).expression hvalue)
  | .function name params body, hn =>
    obtain ⟨hdeclaration, hname, hparams, hbody⟩ := hn
    exact resolves_function (isName_of_is hok hname) (fun p hp => isName_of_is hok (hparams p hp))
      (hrole (by rcases hdeclaration with rfl | rfl <;> decide)) (nodes_resolve hok body hbody rfl)
  | .conditional condition thenBranch elseBranch, hn =>
    obtain ⟨hstatement, hcondition, hthen, helse⟩ := hn
    have hsite := hrole (ne_expression_of_isStatement hstatement)
    exact resolves_conditional
      ((node_resolves hok condition hcondition nofun).expression hcondition)
      ((node_resolves hok thenBranch hthen fun _ => hsite).part
        (declared?_eq_none hthen (.inr rfl)))
      (option_resolves hok elseBranch helse (.inr rfl) fun _ => hsite)
  | .print value, hn =>
    obtain ⟨-, hvalue⟩ := hn
    exact resolves_print ((node_resolves hok value hvalue nofun).expression hvalue)
  | .returning keyword value, hn =>
    obtain ⟨-, hkeyword, hvalue⟩ := hn
    exact resolves_returning (is_present hok hkeyword (by decide))
      (option_resolves hok value hvalue (.inl rfl) nofun)
  | .varDecl name initializer, hn =>
    obtain ⟨hdeclaration, hname, hinitializer⟩ := hn
    exact resolves_varDecl (isName_of_is hok hname) (hrole (by rw [hdeclaration]; decide))
      (option_resolves hok initializer hinitializer (.inl rfl) nofun)
  | .loop condition body, hn =>
    obtain ⟨hstatement, hcondition, hbody⟩ := hn
    have hsite := hrole (ne_expression_of_isStatement hstatement)
    exact resolves_loop ((node_resolves hok condition hcondition nofun).expression hcondition)
      ((node_resolves hok body hbody fun _ => hsite).part (declared?_eq_none hbody (.inr rfl)))
  | .misfit _, hn => exact hn.elim
termination_by structural n

theorem option_resolves (hok : AllLexed ok) {role : Role} {site : Site} (found : Option Node)
    (hn : Node.FitsOption ok role found) (hpart : role = .expression ∨ role = .statement)
    (hrole : role ≠ .expression → site.initializing = none) : ResolvesOption site found := by
  intro s hs
  match found, hn with
  | none, _ =>
    rw [nodeOption]
    exact clean_pure ⟨⟨fun _ => rfl, trivial⟩, hs⟩
  | some n, hn =>
    rw [nodeOption]
    exact ((node_resolves hok n hn hrole).part (declared?_eq_none hn hpart) s hs).bind
      fun n' s₁ hr => clean_pure ⟨⟨nofun, hr.1⟩, hr.2⟩
termination_by structural found

theorem arguments_resolve (hok : AllLexed ok) {site : Site} (ns : List Node)
    (hns : Node.FitAll ok .expression ns) :
    ResolvesEach site ns := by
  intro s hs
  match ns, hns with
  | [], _ =>
    rw [arguments]
    exact clean_pure ⟨trivial, hs⟩
  | n :: rest, ⟨hn, hrest⟩ =>
    rw [arguments_cons hn]
    refine ((node_resolves hok n hn nofun).expression hn s hs).bind fun n' s₁ hs₁ => ?_
    refine (arguments_resolve hok rest hrest s₁ hs₁.2).bind fun rest' s₂ hs₂ => ?_
    exact clean_pure ⟨⟨hs₁.1, hs₂.1⟩, hs₂.2⟩
termination_by structural ns

theorem nodes_resolve (hok : AllLexed ok) {site : Site} (ns : List Node)
    (hns : Node.FitAll ok .declaration ns)
    (hsite : site.initializing = none) : ResolvesAll site ns := by
  intro s hs
  match ns, hns with
  | [], _ =>
    rw [nodes]
    exact clean_pure ⟨trivial, hs⟩
  | n :: rest, ⟨hn, hrest⟩ =>
    have hafter : (site.after n).initializing = none :=
      (Site.after_context site n).2.2.1.trans hsite
    rw [nodes_cons hn]
    refine (node_resolves hok n hn (fun _ => hsite) s hs).bind fun n' s₁ hs₁ => ?_
    refine (nodes_resolve hok rest hrest hafter s₁ hs₁.2).bind fun rest' s₂ hs₂ => ?_
    refine clean_pure ⟨⟨hs₁.1.2, ?_⟩, hs₂.2⟩
    rw [Site.after_congr hs₁.1.1]
    exact hs₂.1
termination_by structural ns

theorem methods_resolve (hok : AllLexed ok) {site : Site} (ns : List Node)
    (hns : Node.FitAll ok .method ns)
    (hsite : site.initializing = none) : ResolvesMethods site ns := by
  intro s hs
  match ns, hns with
  | [], _ =>
    rw [methods]
    exact clean_pure ⟨trivial, hs⟩
  | n :: rest, ⟨hn, hrest⟩ =>
    cases n with
    | function name params body =>
      obtain ⟨-, hname, hparams, hbody⟩ := hn
      have hnames : ∀ p ∈ params, p.IsName := fun p hp => isName_of_is hok (hparams p hp)
      rw [methods_cons (is_present hok hname (by decide))]
      refine (clean_functionBody hs hsite (methodContext name) hnames
        (nodes_resolve hok body hbody rfl)).bind fun body' s₂ hs₂ => ?_
      refine (methods_resolve hok rest hrest hsite s₂ hs₂.2).bind fun rest' s₃ hs₃ => ?_
      exact clean_pure ⟨⟨⟨isName_of_is hok hname, hnames, hs₂.1⟩, hs₃.1⟩, hs₃.2⟩
    | _ => simp [Node.Fits, Role.IsStatement] at hn
termination_by structural ns

end

end Trees

end Resolver

/-- What is resolved without complaints is scoped, from outside every scope. -/
theorem scopedAll_resolve {ok : Token → Prop} (hok : Resolver.AllLexed ok) {ns : List Node}
    (hns : Node.FitAll ok .declaration ns) (h : (resolve ns).2 = []) :
    Node.ScopedAll {} (resolve ns).1 := by
  have hstart : Surroundings.Agrees {} {} := ⟨rfl, rfl, rfl, rfl, trivial, nofun, nofun⟩
  exact (Resolver.nodes_resolve hok ns hns rfl {} hstart h).1

end Lox
