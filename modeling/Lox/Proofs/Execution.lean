import Mathlib.Tactic
import Lox.Proofs.Keeping

/-!
# Running a scoped tree

A node that is scoped at a site, run by a machine that is running at the site, keeps the machine in
order (`executes`). Every lookup by distance finds its name, no `return` leaves the function it
stands in, and there is one origin of faults only: execution came to store the value of an
assignment that lies inside the initializer of the variable it assigns to. By induction on the
depth, with one case for each sort of node.
-/

namespace Lox

/-- The place of a site. -/
def Site.place (site : Site) : Place := ⟨!site.scopes.isEmpty, site.initializing⟩

theorem Site.place_initializer (site : Site) (name : String) :
    (site.initializer name).place = site.place.initializer name := by
  unfold Site.initializer Site.place Place.initializer
  split <;> rename_i h <;> simp [h]

theorem Site.place_after (site : Site) (n : Node) : (site.after n).place = site.place := by
  obtain ⟨-, hlength, hinit, -, -⟩ := Site.after_context site n
  simp only [Site.place, hinit]
  congr 2
  rw [Bool.eq_iff_iff, List.isEmpty_iff_length_eq_zero, List.isEmpty_iff_length_eq_zero, hlength]

/-! ## Tables of parameters -/

namespace Table

variable {β : Type}

/-- What a table made from a list says is in the list, or was in the table before. -/
theorem get?_foldl_insert {name : String} {v : β} :
    ∀ (entries : List (String × β)) (t : Table β),
      (entries.foldl (fun t entry => t.insert entry.1 entry.2) t).get? name = some v →
      (name, v) ∈ entries ∨ t.get? name = some v
  | [], _, h => .inr h
  | (key, value) :: rest, t, h => by
    rcases get?_foldl_insert rest _ h with hrest | hfirst
    · exact .inl (List.mem_cons_of_mem _ hrest)
    · rw [get?_insert] at hfirst
      split at hfirst
      · rename_i hname
        cases hfirst
        exact .inl (by simp [hname])
      · exact .inr hfirst

theorem contains_foldl_insert {name : String} :
    ∀ (entries : List (String × β)) (t : Table β),
      (entries.foldl (fun t entry => t.insert entry.1 entry.2) t).contains name = true ↔
        name ∈ entries.map (·.1) ∨ t.contains name = true
  | [], _ => by simp
  | (key, value) :: rest, t => by
    rw [List.foldl_cons, contains_foldl_insert rest]
    simp only [contains_insert, Bool.or_eq_true, decide_eq_true_eq, List.map_cons, List.mem_cons]
    tauto

end Table

theorem parameterBindings_get? {params : List Token} {values : List Value} {name : String}
    {v : Value} (h : (parameterBindings params values).get? name = some v) :
    name ∈ params.map (·.lexeme) ∧ v ∈ values := by
  rcases Table.get?_foldl_insert _ _ h with hmem | hempty
  · obtain ⟨⟨param, value⟩, hpair, heq⟩ := List.mem_map.1 hmem
    obtain ⟨hparam, hvalue⟩ := List.of_mem_zip hpair
    cases heq
    exact ⟨List.mem_map.2 ⟨param, hparam, rfl⟩, hvalue⟩
  · cases hempty

theorem parameterBindings_contains {params : List Token} {values : List Value}
    (hlength : values.length = params.length) (name : String) :
    (parameterBindings params values).contains name = true ↔ name ∈ params.map (·.lexeme) := by
  have hkeys : ((params.zip values).map Prod.fst).map (·.lexeme) = params.map (·.lexeme) := by
    rw [List.map_fst_zip (by omega)]
  rw [← hkeys]
  unfold parameterBindings Table.ofList
  rw [Table.contains_foldl_insert, List.map_map, List.map_map]
  simp only [Table.contains, Table.get?_empty, Option.isSome_none, Bool.false_eq_true, or_false]
  rfl

/-! ## New environments -/

namespace Machine

variable {m : Machine}

theorem environment_nest (m : Machine) (e : Environment) :
    (m.nest e).store.environment (m.nest e).environment = e := by
  show (m.store.newEnvironment e).2.environment (m.store.newEnvironment e).1 = e
  rw [Store.environment_newEnvironment]
  simp [Store.newEnvironment]

theorem enclosing_nest (m : Machine) (e : Environment) :
    ((m.nest e).store.environment (m.nest e).environment).enclosing = e.enclosing := by
  rw [environment_nest]

/-- The machine in a new environment runs at a site that has one scope more. -/
theorem running_nest {e : Environment} {names : List String} {scopes : List (List String)}
    {outer : Nat} {site : Site} (hm : m.store.Sound) (hcovers : m.store.Covers scopes outer)
    (henclosing : e.enclosing = some outer)
    (hnames : ∀ x, e.bindings.contains x = true ↔ x ∈ names) (hthis : "this" ∉ names)
    (hsuper : "super" ∉ names)
    (hvalues : ∀ x v, e.bindings.get? x = some v → m.store.Holds v)
    (hsite : site.scopes = names :: scopes) (hready : site.initializing = none) :
    (m.nest e).Running site := by
  have henv := environment_nest m e
  have hfree : ∀ {x}, x ∉ names → e.bindings.get? x = none := fun hx =>
    Option.not_isSome_iff_eq_none.1 fun hsome => hx ((hnames _).1 hsome)
  refine ⟨hm.newEnvironment hvalues ?_ (hm.framed.newEnvironment hm.globals ?_), ?_,
    fun found hfound x hx => ?_, fun x hx => ?_, ?_⟩
  · simp [hfree hsuper]
  · simp [hfree hthis]
  · rw [hsite]
    exact hcovers.newEnvironment henclosing (fun x hx => (hnames x).2 hx) (hnames _).1
  · rw [hsite] at hfound
    cases hfound
    rw [Store.Has, henv] at hx
    exact (hnames x).1 hx
  · rw [hready] at hx
    cases hx
  · rw [Store.Ordinary, henv]
    exact ⟨hfree hthis, hfree hsuper⟩

/-- In a new block nothing is bound yet. -/
theorem Running.block {site : Site} (h : m.Running site) :
    (m.nest ⟨.empty, some m.environment⟩).Running (site.inside []) :=
  running_nest h.sound h.covers rfl (by simp [Table.contains]) (by simp) (by simp) (by simp) rfl rfl

/-- In the initializer of a local variable the variable is not bound yet. -/
theorem Running.initializer {site : Site} {name : String} (h : m.Running site)
    (hfree : ∀ names, site.scopes.head? = some names → name ∉ names) :
    m.Running (site.initializer name) := by
  rcases hscopes : site.scopes with _ | ⟨names, scopes⟩
  · rw [Site.initializer_nil hscopes]
    exact h
  · rw [Site.initializer_cons hscopes]
    refine ⟨h.sound, h.covers, h.exact, fun x hx => ?_, h.ordinary⟩
    cases hx
    exact ⟨names, by simp [hscopes], hfree names (by simp [hscopes])⟩

/-- After a statement the name it declares is bound. -/
theorem Running.after {m' : Machine} {site : Site} {n : Node} (h : m.Running site)
    (hsite : site.initializing = none) (hm : m.Leads m' fun x => n.declared? = some x) :
    m'.Running (site.after n) := by
  unfold Site.after
  rcases hdeclared : n.declared? with _ | name
  · exact h.leads (hm.congr fun x => by simp [hdeclared, Store.nothing])
  · exact h.declare hsite (hm.congr fun x => by simp [hdeclared, eq_comm])

/-- The site at which the body of a closure runs on some arguments, in an environment that has
them. -/
structure BodyAt (m : Machine) (f : Closure) (values : List Value) (params : List Token)
    (site : Site) : Prop where
  parameters : f.declaration.parameters = .ok params
  present : ((params.zip values).any fun (param, _) => param.isMissing) = false
  running : (m.nest ⟨parameterBindings params values, some f.environment⟩).Running site
  body : Node.ScopedAll site f.declaration.body
  ready : site.initializing = none
  inner : site.scopes ≠ []

theorem BodyAt.place_eq {f : Closure} {values : List Value} {params : List Token} {site : Site}
    (h : m.BodyAt f values params site) : site.place = .inner := by
  have hlocal : site.scopes.isEmpty = false := by simpa using h.inner
  simp [Site.place, Place.inner, hlocal, h.ready]

/-- A closure that can be called runs its body at the site the body stands at. -/
theorem bodyAt_of_callable {f : Closure} {values : List Value} (hm : m.store.Sound)
    (hf : m.store.Callable f) (hvalues : ∀ a ∈ values, m.store.Holds a)
    (harity : f.arity = .ok values.length) :
    ∃ params site, m.BodyAt f values params site ∧ (f.isInitializer = true →
      ∃ scopes, m.store.Covers scopes f.environment ∧ Site.Binds scopes 0 "this") := by
  obtain ⟨site, kind, name, params, body, scopes, hdecl, hparams, -, hsite, hcovers, hbody,
    hinit⟩ := hf
  rw [List.nil_append] at hsite
  subst hsite
  have hparameters : f.declaration.parameters = .ok params := by rw [hdecl]; rfl
  have hlength : values.length = params.length := by
    simp only [Closure.arity, hparameters, Except.map] at harity
    simpa [eq_comm] using harity
  refine ⟨params, site.body kind params, ⟨hparameters, ?_, ?_, ?_, rfl, nofun⟩,
    fun h => ⟨site.scopes, hcovers, hinit h⟩⟩
  · rw [List.any_eq_false]
    rintro ⟨param, value⟩ hpair
    simp [(hparams param (List.of_mem_zip hpair).1).present]
  · have hne : ∀ {x}, (∀ param ∈ params, param.lexeme ≠ x) → x ∉ params.map (·.lexeme) := by
      intro x hx hmem
      obtain ⟨param, hparam, hlexeme⟩ := List.mem_map.1 hmem
      exact hx param hparam hlexeme
    exact running_nest hm hcovers rfl (parameterBindings_contains hlength)
      (hne fun param hparam => (hparams param hparam).ne_this)
      (hne fun param hparam => (hparams param hparam).ne_super)
      (fun x v hget => hvalues v (parameterBindings_get? hget).2) rfl rfl
  · rw [hdecl]
    exact hbody

/-- The arguments that a method takes are those it takes when it is bound. -/
theorem arity?_bind (s : Store) (f : Closure) (receiver : Value) :
    (s.bind f receiver).2.arity? (.function (s.bind f receiver).1) = f.arity.map some := by
  have hclosure : (s.bind f receiver).2.closure? (s.bind f receiver).1 =
      some { f with environment := s.environments.size } :=
    (Store.closure?_newFunction _ _ _).trans (if_pos rfl)
  simp only [Store.arity?, hclosure]
  rfl

/-- A new instance can be given to the method that initializes it. -/
theorem instantiate_spec {cls : Nat} {f : Closure} {count : Nat} (hm : m.store.Sound)
    (hinit : m.store.method? cls "init" = some f)
    (harity : m.store.arity? (.cls cls) = .ok (some count)) :
    m.Leads (m.instantiate cls f) Store.nothing ∧
      (m.instantiate cls f).store.Holds (.function m.store.functions.size) ∧
      (m.instantiate cls f).store.Holds (.inst m.store.instances.size) ∧
      (m.instantiate cls f).store.arity? (.function m.store.functions.size) = .ok (some count) := by
  let made := (m.store.newInstance ⟨cls, .empty⟩).2
  have hmade : m.Leads { m with store := made } Store.nothing :=
    ⟨rfl, hm.newInstance cls, Store.grows_newInstance _ _ _⟩
  have hmethods : made.method? cls "init" = m.store.method? cls "init" :=
    Store.method?_congr m.store made rfl rfl cls "init"
  have hunbound : made.Unbound f := hmade.sound.method? (hmethods.trans hinit)
  have hinst : made.instance? m.store.instances.size = some ⟨cls, .empty⟩ :=
    (Store.instance?_newInstance _ _ _).trans (if_pos rfl)
  obtain ⟨hsound, hgrows, hholds⟩ := Store.bind_spec m.environment hmade.sound hunbound
    (Store.exists_ownMethod hinst .refl (hmethods.trans hinit))
  refine ⟨hmade.then ⟨rfl, hsound, hgrows⟩, hholds,
    Store.Holds.grows hgrows (v := .inst m.store.instances.size) ⟨_, hinst⟩, ?_⟩
  refine (arity?_bind made f _).trans ?_
  simpa only [Store.arity?, hinit] using harity

end Machine

namespace Eval

open Machine (Leads Running)

variable {α β : Type} {m : Machine} {site : Site} {R : Prop} {O : Fault → Prop} {mode : Mode}

/-- What runs in a new environment leaves the one around it as it was. -/
theorem within_nest {e : Environment} {body : Eval α} {Q : α → Machine → Prop}
    (hbody : Keeps body (m.nest e) R O Q) :
    match within m.store.environments.size body
      { m with store := (m.store.newEnvironment e).2 } with
    | .ok a m' => m.Leads m' Store.nothing ∧ ∃ m'', m''.store = m'.store ∧ Q a m''
    | .error signal m' => m.Leads m' Store.nothing ∧ signal.Allowed R O m'.store := by
  have hleads : ∀ {m₁ : Machine} {added : String → Prop}, (m.nest e).Leads m₁ added →
      m.Leads { m₁ with environment := m.environment } Store.nothing := fun h =>
    ⟨rfl, h.sound, (Store.grows_newEnvironment m.store m.environment e).fresh h.grows le_rfl⟩
  have hsame : body { m with
      store := (m.store.newEnvironment e).2, environment := m.store.environments.size } =
      body (m.nest e) := rfl
  unfold Keeps at hbody
  unfold within
  rw [hsame]
  rcases hresult : body (m.nest e) with ⟨a, m₁⟩ | ⟨signal, m₁⟩ <;> rw [hresult] at hbody
  · obtain ⟨⟨added, h⟩, hQ⟩ := hbody
    exact ⟨hleads h, m₁, rfl, hQ⟩
  · obtain ⟨⟨added, h⟩, hsignal⟩ := hbody
    exact ⟨hleads h, hsignal⟩

/-! ## Where faults come from -/

/-- Execution comes to store the value of an assignment inside the initializer of the variable it
assigns to. -/
def StoresOwn (mode : Mode) (x : String) (v : Visit) : Prop :=
  ∃ depth target value result m', v.depth = depth + 1 ∧ v.task = .node (.assign target value) ∧
    target.name.lexeme = x ∧ v.place.initializing = some x ∧
    eval mode depth value v.machine = .ok result m'

/-- The fault is that of a variable to whose own initializer execution comes to store in it. -/
def Origin (mode : Mode) (v : Visit) (f : Fault) : Prop :=
  ∃ x w, f = .unbound x ∧ Comes mode v w ∧ StoresOwn mode x w

theorem Origin.enter {v v' : Visit} {f : Fault} (h : Origin mode v' f) (he : Enters mode v v') :
    Origin mode v f := by
  obtain ⟨x, w, hf, hcomes, hown⟩ := h
  exact ⟨x, w, hf, .head he hcomes, hown⟩

theorem Keeps.enter {c : Eval α} {Q : α → Machine → Prop} {v v' : Visit}
    (hc : Keeps c m R (Origin mode v') Q) (he : Enters mode v v') :
    Keeps c m R (Origin mode v) Q := hc.origin fun _ h => h.enter he

/-- What an expression gives: a value that holds, and no new name. -/
def Gives (m : Machine) (v : Value) (m' : Machine) : Prop :=
  m.Leads m' Store.nothing ∧ m'.store.Holds v

theorem Gives.then {m m₁ m' : Machine} {v : Value} (h : m.Leads m₁ Store.nothing)
    (h' : Gives m₁ v m') : Gives m v m' := ⟨h.then h'.1, h'.2⟩

/-- The node can be run at the site. -/
def Fit (site : Site) (n : Node) : Prop :=
  n.Scoped site ∧ (n.declared? = none ∨ site.initializing = none)

/-- All that can be run with so much depth keeps the machine in order. -/
structure Executes (mode : Mode) (depth : Nat) : Prop where
  node : ∀ {n : Node} {site : Site} {m : Machine}, Fit site n → m.Running site →
    Keeps (eval mode depth n) m (site.inFunction ≠ .none)
      (Origin mode ⟨depth, site.place, .node n, m⟩)
      fun v m' => m.Leads m' (fun x => n.declared? = some x) ∧ m'.store.Holds v
  call : ∀ {v : Value} {values : List Value} {p : Place} {m : Machine}, m.store.Sound →
    m.store.Holds v → (∀ a ∈ values, m.store.Holds a) →
    m.store.arity? v = .ok (some values.length) →
    Keeps (call mode depth v values) m False (Origin mode ⟨depth, p, .call v values, m⟩) (Gives m)

section Parts

variable {depth : Nat} (IH : Executes mode depth)

include IH

theorem Executes.part {n : Node} (hn : n.declared? = none ∧ n.Scoped site) (h : m.Running site) :
    Keeps (eval mode depth n) m (site.inFunction ≠ .none)
      (Origin mode ⟨depth, site.place, .node n, m⟩) (Gives m) :=
  (IH.node ⟨hn.2, .inl hn.1⟩ h).mono fun _ _ hv =>
    ⟨hv.1.congr fun x => by simp [hn.1, Store.nothing], hv.2⟩

/-- Arguments from left to right. -/
theorem Executes.each : ∀ {ns : List Node} {m : Machine}, Node.ScopedEach site ns →
    m.Running site →
    Keeps (ns.mapM (eval mode depth)) m (site.inFunction ≠ .none)
      (Origin mode ⟨depth, site.place, .each ns, m⟩)
      fun values m' => m.Leads m' Store.nothing ∧ ∀ v ∈ values, m'.store.Holds v
  | [], m, _, h => keeps_pure h.sound ⟨Leads.refl h.sound, by simp⟩
  | n :: rest, m, hns, h => by
    rw [List.mapM_cons]
    refine ((IH.part hns.1 h).enter .argument).bind fun v m₁ hrun hv _ => ?_
    refine ((Executes.each hns.2 (h.leads hv.1)).enter (.arguments hrun)).bind
      fun values m₂ _ hvalues hm₂ => ?_
    refine keeps_pure hm₂ ⟨hv.1.then hvalues.1, fun w hw => ?_⟩
    rcases List.mem_cons.1 hw with rfl | hw
    · exact hv.2.grows hvalues.1.grows
    · exact hvalues.2 w hw

/-- Statements one after the other. -/
theorem Executes.statements : ∀ {ns : List Node} {site : Site} {m : Machine},
    Node.ScopedAll site ns → site.initializing = none → m.Running site →
    Keeps (inOrder (eval mode depth) ns) m (site.inFunction ≠ .none)
      (Origin mode ⟨depth, site.place, .statements ns, m⟩) fun _ _ => True
  | [], site, m, _, _, h => keeps_pure h.sound trivial
  | n :: rest, site, m, hns, hsite, h => by
    refine ((IH.node ⟨hns.1, .inr hsite⟩ h).enter .statement).bind fun v m₁ hrun hv _ => ?_
    obtain ⟨-, -, hinit, hfunction, -⟩ := Site.after_context site n
    have hrest := Executes.statements hns.2 (hinit.trans hsite) (h.after hsite hv.1)
    rw [hfunction, Site.place_after] at hrest
    exact hrest.enter (.later hrun)

/-- The turns of a loop. -/
theorem Executes.turns {condition body : Node}
    (hcondition : condition.declared? = none ∧ condition.Scoped site)
    (hbody : body.declared? = none ∧ body.Scoped site) :
    ∀ {count : Nat} {m : Machine}, m.Running site →
    Keeps (repeatWhile (eval mode depth condition) (eval mode depth body) count) m
      (site.inFunction ≠ .none) (Origin mode ⟨depth, site.place, .turns condition body count, m⟩)
      fun _ m' => m.Leads m' Store.nothing
  | 0, m, h => keeps_exhausted h.sound
  | count + 1, m, h => by
    rw [repeatWhile]
    refine ((IH.part hcondition h).enter .condition).bind fun v m₁ hrun hv _ => ?_
    have h₁ := h.leads hv.1
    split
    · rename_i htruthy
      refine ((IH.part hbody h₁).enter (.body hrun htruthy)).bind fun w m₂ hrun' hw _ => ?_
      refine ((Executes.turns hcondition hbody (h₁.leads hw.1)).enter
        (.again hrun htruthy hrun')).mono fun _ m' hm' => ?_
      exact hv.1.then (hw.1.then hm')
    · exact keeps_pure h₁.sound hv.1

end Parts

/-! ## Nodes -/

/-- The node keeps the machine in order and declares nothing. -/
def Kept (mode : Mode) (depth : Nat) (site : Site) (n : Node) (m : Machine) : Prop :=
  Keeps (eval mode depth n) m (site.inFunction ≠ .none)
    (Origin mode ⟨depth, site.place, .node n, m⟩) (Gives m)

theorem keeps_get (hm : m.store.Sound) : Keeps get m R O fun a m' => a = m ∧ m' = m :=
  keeps_of_ok rfl (Leads.refl hm) ⟨rfl, rfl⟩

theorem keeps_checkInitialized {value : Node} {v : Value} (hm : m.store.Sound)
    (hvalue : value.Scoped site) :
    Keeps (checkInitialized value v) m R O fun _ m' => m.Leads m' Store.nothing := by
  unfold checkInitialized
  split
  · exact keeps_fail hm hvalue.1
  · exact keeps_pure hm (Leads.refl hm)

section Nodes

variable {depth : Nat} (IH : Executes mode depth)

include IH

theorem Executes.unary {operator : Token} {right : Node} (h : m.Running site)
    (hn : (Node.unary operator right).Scoped site) :
    Kept mode (depth + 1) site (.unary operator right) m := by
  obtain ⟨hoperator, hright⟩ := hn
  refine ((IH.part hright h).enter (.first rfl)).bind fun v m₁ _ hv hm₁ => ?_
  exact (keeps_ofExcept hm₁ (unary_spec hoperator v)).mono fun _ _ hw => .then hv.1 hw

theorem Executes.binary {operator : Token} {left right : Node} (h : m.Running site)
    (hn : (Node.binary left operator right).Scoped site) :
    Kept mode (depth + 1) site (.binary left operator right) m := by
  obtain ⟨hoperator, hleft, hright⟩ := hn
  refine ((IH.part hleft h).enter (.first rfl)).bind fun v m₁ hrun hv _ => ?_
  refine ((IH.part hright (h.leads hv.1)).enter (.next rfl hrun rfl)).bind
    fun w m₂ _ hw hm₂ => ?_
  exact (keeps_ofExcept hm₂ (binary_spec hoperator v w)).mono fun _ _ hu =>
    .then (hv.1.then hw.1) hu

theorem Executes.logical {operator : Token} {left right : Node} (h : m.Running site)
    (hn : (Node.logical left operator right).Scoped site) :
    Kept mode (depth + 1) site (.logical left operator right) m := by
  obtain ⟨hoperator, hleft, hright⟩ := hn
  refine ((IH.part hleft h).enter (.first rfl)).bind fun v m₁ hrun hv hm₁ => ?_
  rw [checkToken_eq hoperator, pure_bind]
  split
  · exact keeps_pure hm₁ hv
  · rename_i hgoes
    have hnext : (Node.logical left operator right).next? v = some (.node right) := by
      simp only [Node.next?]
      rw [if_neg]
      simp only [hoperator, Bool.false_eq_true, false_or]
      exact hgoes
    exact ((IH.part hright (h.leads hv.1)).enter (.next rfl hrun hnext)).mono fun _ _ hw =>
      .then hv.1 hw

theorem Executes.property {object : Node} {name : Token} (h : m.Running site)
    (hn : (Node.property object name).Scoped site) :
    Kept mode (depth + 1) site (.property object name) m := by
  obtain ⟨hname, hobject⟩ := hn
  refine ((IH.part hobject h).enter (.first rfl)).bind fun v m₁ _ hv hm₁ => ?_
  split
  · exact (keeps_getProperty hm₁ hv.2 hname).mono fun _ _ hw => .then hv.1 hw
  · exact keeps_fail hm₁ hname

theorem Executes.setProperty {object value : Node} {name : Token} (h : m.Running site)
    (hn : (Node.setProperty object name value).Scoped site) :
    Kept mode (depth + 1) site (.setProperty object name value) m := by
  obtain ⟨hname, hobject, hvalue⟩ := hn
  refine ((IH.part hobject h).enter (.first rfl)).bind fun v m₁ hrun hv hm₁ => ?_
  split
  · refine ((IH.part hvalue (h.leads hv.1)).enter (.next rfl hrun rfl)).bind
      fun w m₂ _ hw hm₂ => ?_
    refine (keeps_setProperty hm₂ hname hw.2).bind fun _ m₃ _ hm₃ hsound => ?_
    exact keeps_pure hsound ⟨hv.1.then (hw.1.then hm₃), hw.2.grows hm₃.grows⟩
  · exact keeps_fail hm₁ hname

theorem Executes.group {inner : Node} (h : m.Running site)
    (hn : (Node.group inner).Scoped site) : Kept mode (depth + 1) site (.group inner) m :=
  (IH.part hn h).enter (.first rfl)

theorem Executes.expression {value : Node} (h : m.Running site)
    (hn : (Node.expression value).Scoped site) :
    Kept mode (depth + 1) site (.expression value) m := by
  refine ((IH.part hn h).enter (.first rfl)).bind fun v m₁ _ hv hm₁ => ?_
  refine (keeps_checkInitialized hm₁ hn.2).bind fun _ m₂ _ hm₂ hsound => ?_
  exact keeps_pure hsound ⟨hv.1.then hm₂, trivial⟩

theorem Executes.print {value : Node} (h : m.Running site)
    (hn : (Node.print value).Scoped site) : Kept mode (depth + 1) site (.print value) m := by
  refine ((IH.part hn h).enter (.first rfl)).bind fun v m₁ _ hv hm₁ => ?_
  refine (keeps_checkInitialized hm₁ hn.2).bind fun _ m₂ _ hm₂ hsound => ?_
  have hprinted : ∀ text, m₂.Leads { m₂ with printed := m₂.printed.push text } Store.nothing :=
    fun _ => ⟨rfl, hsound, .refl _ _⟩
  refine keeps_of_ok rfl (hprinted _) ⟨hv.1.then (hm₂.then (hprinted _)), trivial⟩

theorem Executes.conditional {condition thenBranch : Node} {elseBranch : Option Node}
    (h : m.Running site) (hn : (Node.conditional condition thenBranch elseBranch).Scoped site) :
    Kept mode (depth + 1) site (.conditional condition thenBranch elseBranch) m := by
  obtain ⟨hcondition, hthen, helse⟩ := hn
  refine ((IH.part hcondition h).enter (.first rfl)).bind fun v m₁ hrun hv hm₁ => ?_
  have hnext : (Node.conditional condition thenBranch elseBranch).next? v =
      if v.isTruthy then some (.node thenBranch) else elseBranch.map .node := rfl
  split
  · rename_i htruthy
    rw [if_pos htruthy] at hnext
    refine ((IH.part hthen (h.leads hv.1)).enter (.next rfl hrun hnext)).bind
      fun w m₂ _ hw hm₂ => ?_
    exact keeps_pure hm₂ ⟨hv.1.then hw.1, trivial⟩
  · rename_i hfalsy
    rw [if_neg hfalsy] at hnext
    cases elseBranch with
    | none => exact keeps_pure hm₁ ⟨hv.1, trivial⟩
    | some branch =>
      refine ((IH.part helse (h.leads hv.1)).enter (.next rfl hrun hnext)).bind
        fun w m₂ _ hw hm₂ => ?_
      exact keeps_pure hm₂ ⟨hv.1.then hw.1, trivial⟩

theorem Executes.loop {condition body : Node} (h : m.Running site)
    (hn : (Node.loop condition body).Scoped site) :
    Kept mode (depth + 1) site (.loop condition body) m := by
  refine ((IH.turns hn.1 hn.2 h).enter .loop).bind fun _ m₁ _ hm₁ hsound => ?_
  exact keeps_pure hsound ⟨hm₁, trivial⟩

theorem Executes.returning {keyword : Token} {value : Option Node} (h : m.Running site)
    (hn : (Node.returning keyword value).Scoped site) :
    Kept mode (depth + 1) site (.returning keyword value) m := by
  obtain ⟨hfunction, -, hvalue⟩ := hn
  cases value with
  | none => exact keeps_of_error h.sound rfl ⟨hfunction, trivial⟩
  | some value =>
    refine ((IH.part hvalue h).enter (.first rfl)).bind fun v m₁ _ hv hm₁ => ?_
    exact keeps_of_error hm₁ rfl ⟨hfunction, hv.2⟩

theorem Executes.block {statements : List Node} (h : m.Running site)
    (hn : (Node.block statements).Scoped site) :
    Kept mode (depth + 1) site (.block statements) m := by
  have hnest := within_nest ((IH.statements hn rfl h.block).enter (.block (p := site.place)))
  unfold Kept Keeps
  rw [eval_block]
  split at hnest <;> rename_i hresult
  · rw [bind_ok hresult]
    exact ⟨⟨_, hnest.1⟩, hnest.1, trivial⟩
  · rw [bind_error hresult]
    exact ⟨⟨_, hnest.1⟩, hnest.2⟩

end Nodes

/-! ## Declarations, references and calls -/

/-- A superclass is a class, or an error. -/
theorem keeps_superclass {parent : Node} {v : Value} (hm : m.store.Sound)
    (hident : ∃ r, parent = .ident r) (hparent : parent.Scoped site) :
    Keeps (superclass parent v) m R O fun _ m' => m' = m := by
  obtain ⟨r, rfl⟩ := hident
  unfold superclass
  split
  · exact keeps_pure hm rfl
  · exact keeps_fail hm hparent.1

/-- What holds can be asked for its number of arguments. -/
theorem arity?_ok {s : Store} {v : Value} (hs : s.Sound) (hv : s.Holds v) :
    ∃ arity, s.arity? v = .ok arity := by
  cases v with
  | function id =>
    obtain ⟨f, hf, _, _, name, params, body, _, hdecl, _⟩ := hv
    exact ⟨_, by simp [Store.arity?, hf, Closure.arity, hdecl, Node.parameters]; rfl⟩
  | cls id =>
    rcases hinit : s.method? id "init" with _ | f
    · exact ⟨some 0, by simp [Store.arity?, hinit]⟩
    · obtain ⟨_, _, name, params, body, _, hdecl, _⟩ := hs.method? hinit
      exact ⟨_, by simp [Store.arity?, hinit, Closure.arity, hdecl, Node.parameters]; rfl⟩
  | _ => exact ⟨_, rfl⟩

section Declarations

variable {depth : Nat} (IH : Executes mode depth) (hmode : mode.byDistance = true)

include IH

theorem Executes.varDecl {name : Token} {initializer : Option Node} (h : m.Running site)
    (hn : (Node.varDecl name initializer).Scoped site) :
    Keeps (eval mode (depth + 1) (.varDecl name initializer)) m (site.inFunction ≠ .none)
      (Origin mode ⟨depth + 1, site.place, .node (.varDecl name initializer), m⟩)
      fun v m' => m.Leads m' (· = name.lexeme) ∧ m'.store.Holds v := by
  obtain ⟨⟨hname, hfree⟩, hinitializer⟩ := hn
  cases initializer with
  | none =>
    refine (keeps_define h hname (show m.store.Holds .nil from trivial)).bind
      fun _ m₁ _ hm₁ hsound => ?_
    exact keeps_pure hsound ⟨hm₁, trivial⟩
  | some value =>
    have hinside := IH.part hinitializer (h.initializer hfree)
    have hfunction : (site.initializer name.lexeme).inFunction = site.inFunction := by
      unfold Site.initializer
      split <;> rfl
    rw [hfunction, Site.place_initializer] at hinside
    refine (hinside.enter .initializer).bind fun v m₁ _ hv _ => ?_
    refine (keeps_define (h.leads hv.1) hname hv.2).bind fun _ m₂ _ hm₂ hsound => ?_
    exact keeps_pure hsound ⟨hv.1.then hm₂, trivial⟩

theorem Executes.classDecl {name : Token} {parent : Option Node} {methods : List Node}
    (h : m.Running site) (hn : (Node.classDecl name parent methods).Scoped site)
    (hsite : site.initializing = none) :
    Keeps (eval mode (depth + 1) (.classDecl name parent methods)) m (site.inFunction ≠ .none)
      (Origin mode ⟨depth + 1, site.place, .node (.classDecl name parent methods), m⟩)
      fun v m' => m.Leads m' (· = name.lexeme) ∧ m'.store.Holds v := by
  cases parent with
  | none =>
    refine (keeps_declareClass h hsite hn.1.toIsName rfl hn.2).bind
      fun _ m₁ _ hm₁ hsound => ?_
    exact keeps_pure hsound ⟨hm₁, trivial⟩
  | some parent =>
    obtain ⟨⟨hname, -⟩, ⟨hdeclared, hident, hparent⟩, hmethods⟩ := hn
    refine ((IH.part ⟨hdeclared, hparent⟩ h).enter (.first rfl)).bind fun v m₁ _ hv hm₁ => ?_
    refine (keeps_superclass hm₁ hident hparent).bind fun id m₂ _ hm₂ _ => ?_
    subst hm₂
    refine (keeps_declareClass (h.leads hv.1) hsite hname rfl
      hmethods).bind fun _ m₃ _ hm₃ hsound => ?_
    exact keeps_pure hsound ⟨hv.1.then hm₃, trivial⟩

theorem Executes.callNode {callee : Node} {paren : Token} {arguments : List Node}
    (h : m.Running site) (hn : (Node.call callee paren arguments).Scoped site) :
    Kept mode (depth + 1) site (.call callee paren arguments) m := by
  obtain ⟨hparen, hcallee, harguments⟩ := hn
  refine ((IH.part hcallee h).enter (.first rfl)).bind fun v m₁ hrun hv _ => ?_
  refine ((IH.each harguments (h.leads hv.1)).enter (.next rfl hrun rfl)).bind
    fun values m₂ hrun' hvalues hm₂ => ?_
  have hcalled : m₂.store.Holds v := hv.2.grows hvalues.1.grows
  refine (keeps_get hm₂).bind fun a m' _ ha _ => ?_
  obtain ⟨ha, hm'⟩ := ha
  subst a m'
  obtain ⟨arity, harity⟩ := arity?_ok hm₂ hcalled
  rw [harity]
  rcases arity with _ | arity
  · exact keeps_fail hm₂ hparen
  · simp only
    split
    · exact (keeps_fail hm₂ hparen).bind (P := fun _ _ => False) fun _ _ _ hf => hf.elim
    · rename_i hlength
      have hexact : m₂.store.arity? v = .ok (some values.length) := by
        rw [harity, not_not.1 hlength]
      exact ((IH.call hm₂ hcalled hvalues.2 hexact).returns.enter
        (.call hrun hrun' hexact)).mono fun _ _ hw => .then (hv.1.then hvalues.1) hw

include hmode

theorem Executes.assign {target : Reference} {value : Node} (h : m.Running site)
    (hn : (Node.assign target value).Scoped site) :
    Kept mode (depth + 1) site (.assign target value) m := by
  obtain ⟨hname, hassigns, hvalue⟩ := hn
  refine ((IH.part hvalue h).enter (.first rfl)).bind fun v m₁ hrun hv _ => ?_
  refine (keeps_assign hmode (h.leads hv.1) hname hassigns hv.2 fun hown => ?_).bind
    fun _ m₂ _ hm₂ hsound => keeps_pure hsound ⟨hv.1.then hm₂, hv.2.grows hm₂.grows⟩
  exact ⟨_, _, rfl, .refl, depth, target, value, v, m₁, rfl, rfl, rfl, hown, hrun⟩

end Declarations

/-! ## Calls -/

theorem arity_of_closure? {s : Store} {id count : Nat} {f : Closure} (hf : s.closure? id = some f)
    (harity : s.arity? (.function id) = .ok (some count)) : f.arity = .ok count := by
  simp only [Store.arity?, hf] at harity
  rcases hresult : f.arity with e | count' <;> rw [hresult] at harity <;> cases harity
  rfl

section Calls

variable {depth : Nat} (IH : Executes mode depth)

include IH

/-- A call of a function runs its body at the site the body stands at. -/
theorem Executes.callFunction {id : Nat} {values : List Value} {p : Place} (hm : m.store.Sound)
    (hv : m.store.Holds (.function id)) (hvalues : ∀ a ∈ values, m.store.Holds a)
    (harity : m.store.arity? (.function id) = .ok (some values.length)) :
    Keeps (Eval.call mode (depth + 1) (.function id) values) m False
      (Origin mode ⟨depth + 1, p, .call (.function id) values, m⟩) (Gives m) := by
  obtain ⟨f, hf, hcallable⟩ := hv
  obtain ⟨params, site, hat, hinit⟩ :=
    Machine.bodyAt_of_callable hm hcallable hvalues (arity_of_closure? hf harity)
  have hstatements : Keeps (do inOrder (eval mode depth) f.declaration.body; return .nil)
      (m.nest ⟨parameterBindings params values, some f.environment⟩) (site.inFunction ≠ .none)
      (Origin mode ⟨depth + 1, p, .call (.function id) values, m⟩)
      fun v m' => m'.store.Holds v := by
    have hinside := IH.statements hat.body hat.ready hat.running
    rw [hat.place_eq] at hinside
    exact (hinside.enter (.function hf hat.parameters hat.present)).bind
      fun _ m' _ _ hsound => keeps_pure hsound trivial
  have hnest := within_nest hstatements
  have hlast : ∀ v m', m.Leads m' Store.nothing → m'.store.Holds v →
      Keeps (if f.isInitializer then within f.environment (getAt 0 "this") else return v) m' False
        (Origin mode ⟨depth + 1, p, .call (.function id) values, m⟩) (Gives m) := by
    intro v m' hleads hholds
    split
    · rename_i hinitializer
      obtain ⟨scopes, hcovers, hbinds⟩ := hinit hinitializer
      obtain ⟨found, w, -, hget, hbinding⟩ := (hcovers.grows hleads.grows).getAt hbinds
      have hthis : within f.environment (getAt 0 "this") m' = .ok w m' := by
        simp only [within, getAt, hget]
      exact keeps_of_ok hthis (Leads.refl hleads.sound)
        ⟨hleads, hleads.sound.bindings found _ w hbinding⟩
    · exact keeps_pure hleads.sound ⟨hleads, hholds⟩
  have hstart := call_function mode depth hf hat.parameters hat.present
  split at hnest <;> rename_i result m' hresult
  · obtain ⟨hleads, m'', hstore, hholds⟩ := hnest
    rw [hstore] at hholds
    have hcaught := catchReturn_ok hresult
    exact (hlast result m' hleads hholds).after (hstart.trans (bind_ok hcaught)) hleads
  · obtain ⟨hleads, hsignal⟩ := hnest
    cases result with
    | returning v =>
      have hcaught := catchReturn_returning hresult
      exact (hlast v m' hleads hsignal.2).after (hstart.trans (bind_ok hcaught)) hleads
    | error e =>
      have hpassed := catchReturn_error hresult (by simp)
      exact keeps_of_signal (hstart.trans (bind_error hpassed)) hleads trivial
    | fault f =>
      have hpassed := catchReturn_error hresult (by simp)
      exact keeps_of_signal (hstart.trans (bind_error hpassed)) hleads hsignal
    | exhausted =>
      have hpassed := catchReturn_error hresult (by simp)
      exact keeps_of_signal (hstart.trans (bind_error hpassed)) hleads trivial

theorem Executes.callClass {cls : Nat} {values : List Value} {p : Place} (hm : m.store.Sound)
    (hvalues : ∀ a ∈ values, m.store.Holds a)
    (harity : m.store.arity? (.cls cls) = .ok (some values.length)) :
    Keeps (Eval.call mode (depth + 1) (.cls cls) values) m False
      (Origin mode ⟨depth + 1, p, .call (.cls cls) values, m⟩) (Gives m) := by
  let made := (m.store.newInstance ⟨cls, .empty⟩).2
  have hmade : m.Leads { m with store := made } Store.nothing :=
    ⟨rfl, hm.newInstance cls, Store.grows_newInstance _ _ _⟩
  have hmethods : made.method? cls "init" = m.store.method? cls "init" :=
    Store.method?_congr m.store made rfl rfl cls "init"
  rcases hinit : m.store.method? cls "init" with _ | f
  · have hstart : Eval.call mode (depth + 1) (.cls cls) values m =
        .ok (.inst m.store.instances.size) { m with store := made } := by
      refine (bind_ok (c := alloc _) rfl).trans ((bind_ok (c := get) rfl).trans ?_)
      rw [show (m.store.newInstance ⟨cls, .empty⟩).2.method? cls "init" = none from
        hmethods.trans hinit]
      rfl
    exact keeps_of_ok hstart hmade
      ⟨hmade, _, (Store.instance?_newInstance _ _ _).trans (if_pos rfl)⟩
  · obtain ⟨hleads, hholds, hinst, hexact⟩ := Machine.instantiate_spec hm hinit harity
    have hcall := IH.call (p := p) (m := m.instantiate cls f) hleads.sound hholds
      (fun a ha => (hvalues a ha).grows hleads.grows) hexact
    refine Keeps.after (call_class hinit) hleads ((hcall.enter (.construct hinit)).bind
      fun v m' _ hv hs => keeps_pure hs ⟨hleads.then hv.1, hinst.grows hv.1.grows⟩)

/-- Any call of a value with as many arguments as it takes. -/
theorem Executes.callValue {v : Value} {values : List Value} {p : Place} (hm : m.store.Sound)
    (hv : m.store.Holds v) (hvalues : ∀ a ∈ values, m.store.Holds a)
    (harity : m.store.arity? v = .ok (some values.length)) :
    Keeps (Eval.call mode (depth + 1) v values) m False
      (Origin mode ⟨depth + 1, p, .call v values, m⟩) (Gives m) := by
  cases v with
  | function id => exact IH.callFunction hm hv hvalues harity
  | cls id => exact IH.callClass hm hvalues harity
  | native id =>
    rcases hnative : m.store.native? id with _ | n
    · simp [Store.arity?, hnative] at harity
    · refine (keeps_get hm).bind fun a m' _ ha hsound => ?_
      obtain ⟨ha, hm'⟩ := ha
      subst a m'
      rw [hnative]
      simp only [callNative]
      split
      · have hread : m.Leads { m with now := m.now.read } Store.nothing := ⟨rfl, hm, .refl _ _⟩
        exact keeps_of_ok rfl hread ⟨hread, trivial⟩
      · exact keeps_pure hm ⟨Leads.refl hm, trivial⟩
  | _ => cases harity

end Calls

/-! ## The induction -/

/-- A scoped node keeps the machine in order. -/
theorem Executes.nodeStep {depth : Nat} (IH : Executes mode depth)
    (hmode : mode.byDistance = true) {n : Node} (hn : Fit site n) (h : m.Running site) :
    Keeps (eval mode (depth + 1) n) m (site.inFunction ≠ .none)
      (Origin mode ⟨depth + 1, site.place, .node n, m⟩)
      fun v m' => m.Leads m' (fun x => n.declared? = some x) ∧ m'.store.Holds v := by
  obtain ⟨hscoped, hready⟩ := hn
  have hkept : ∀ {n : Node}, n.declared? = none → Kept mode (depth + 1) site n m →
      Keeps (eval mode (depth + 1) n) m (site.inFunction ≠ .none)
        (Origin mode ⟨depth + 1, site.place, .node n, m⟩)
        fun v m' => m.Leads m' (fun x => n.declared? = some x) ∧ m'.store.Holds v :=
    fun hdeclared hn => hn.mono fun _ _ hv =>
      ⟨hv.1.congr fun x => by simp [hdeclared, Store.nothing], hv.2⟩
  have hname : ∀ {name : String} {v : Value} {m' : Machine},
      m.Leads m' (· = name) ∧ m'.store.Holds v →
      m.Leads m' (fun x => some name = some x) ∧ m'.store.Holds v :=
    fun hv => ⟨hv.1.congr fun x => by simp [eq_comm], hv.2⟩
  cases n with
  | literal value =>
    refine hkept rfl (keeps_pure h.sound ⟨Leads.refl h.sound, ?_⟩)
    cases value <;> trivial
  | ident r => exact hkept rfl (keeps_lookup hmode h hscoped.1 (located_of_hopsTo? hscoped.2.2))
  | receiver r =>
    obtain ⟨hpresent, hlexeme, hops, hhops, hbinds⟩ := hscoped
    refine hkept rfl (keeps_lookup hmode h hpresent (.inr ⟨hops, hhops, ?_⟩))
    rw [hlexeme]
    exact Site.binds_of_hopsTo? hbinds
  | superMethod keyword method =>
    obtain ⟨hmethod, -, hops, hhops, hsuper, hthis⟩ := hscoped
    exact hkept rfl (keeps_superMethod hmode h hmethod hhops hsuper hthis)
  | group inner => exact hkept rfl (IH.group h hscoped)
  | assign target value => exact hkept rfl (IH.assign hmode h hscoped)
  | unary operator right => exact hkept rfl (IH.unary h hscoped)
  | binary left operator right => exact hkept rfl (IH.binary h hscoped)
  | logical left operator right => exact hkept rfl (IH.logical h hscoped)
  | call callee paren arguments => exact hkept rfl (IH.callNode h hscoped)
  | property object name => exact hkept rfl (IH.property h hscoped)
  | setProperty object name value => exact hkept rfl (IH.setProperty h hscoped)
  | block statements => exact hkept rfl (IH.block h hscoped)
  | expression value => exact hkept rfl (IH.expression h hscoped)
  | conditional condition thenBranch elseBranch => exact hkept rfl (IH.conditional h hscoped)
  | print value => exact hkept rfl (IH.print h hscoped)
  | returning keyword value => exact hkept rfl (IH.returning h hscoped)
  | loop condition body => exact hkept rfl (IH.loop h hscoped)
  | varDecl name initializer => exact (IH.varDecl h hscoped).mono fun _ _ hv => hname hv
  | classDecl name parent methods =>
    have hat := hready.resolve_left (by simp [Node.declared?])
    exact (IH.classDecl h hscoped hat).mono fun _ _ hv => hname hv
  | function name params body =>
    obtain ⟨⟨hname', -⟩, hparams, hbody⟩ := hscoped
    exact (keeps_declareFunction h hname' hparams hbody).bind fun _ m' _ hm' hsound =>
      keeps_pure hsound (hname ⟨hm', trivial⟩)
  | misfit _ => exact hscoped.elim

/-- Whatever is scoped keeps the machine in order, however deep it may nest. -/
theorem executes (hmode : mode.byDistance = true) (depth : Nat) : Executes mode depth := by
  induction depth with
  | zero => exact ⟨fun _ h => keeps_exhausted h.sound, fun hm _ _ _ => keeps_exhausted hm⟩
  | succ depth IH => exact ⟨fun hn h => IH.nodeStep hmode hn h, IH.callValue⟩

end Eval

end Lox
