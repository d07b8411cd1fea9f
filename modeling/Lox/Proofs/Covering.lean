import Mathlib.Tactic
import Lox.Proofs.Receivers
import Lox.Proofs.Scoped

/-!
# Chains of environments that cover scopes

An environment covers a stack of scopes when it and those around it, one for each scope, bind the
names of the scopes, and the chain then ends at the globals. A name that a scope binds is then
found exactly as many environments out as the scope is (`Covers.getAt`).

A store is `Sound` when every function in it is closed over an environment that covers the scopes
its body stands in, and its receivers are framed. Stores only grow (`Grows`): links stay, and no
environment gets a new name but the one in which something is declared. Hence what an environment
covers it goes on covering (`Covers.grows`), also when the block it was made for has long ended.
-/

namespace Lox

namespace Store

/-- The environment binds the name. -/
def Has (s : Store) (env : Nat) (name : String) : Prop :=
  (s.environment env).bindings.contains name = true

/-- The environment and those around it bind the names of the scopes, scope by scope. Receivers
stand nowhere else. -/
def Covers (s : Store) : List (List String) → Nat → Prop
  | [], env => env = globals
  | names :: scopes, env => env < s.environments.size ∧ (∀ x ∈ names, s.Has env x) ∧
      (s.Has env "this" → "this" ∈ names) ∧
      ∃ outer, (s.environment env).enclosing = some outer ∧ s.Covers scopes outer

/-- The closure's body stands in the scopes that its environment covers, within the scopes that it
still has to be given. -/
def Closes (s : Store) (missing : List (List String)) (f : Closure) : Prop :=
  ∃ site kind name params body scopes, f.declaration = .function name params body ∧
    (∀ param ∈ params, param.IsName) ∧ kind ≠ FunctionContext.none ∧
    site.scopes = missing ++ scopes ∧ s.Covers scopes f.environment ∧
    Node.ScopedAll (Site.body site kind params) body ∧
    (f.isInitializer = true → Site.Binds site.scopes 0 "this")

/-- A function that can be called. -/
def Callable (s : Store) (f : Closure) : Prop := s.Closes [] f

/-- A method that is not bound to its receiver yet. -/
def Unbound (s : Store) (f : Closure) : Prop := s.Closes [["this"]] f

/-- Functions among the values can be called, and instances are there. -/
def Holds (s : Store) : Value → Prop
  | .function id => ∃ f, s.closure? id = some f ∧ s.Callable f
  | .inst id => ∃ i, s.instance? id = some i
  | _ => True

structure Sound (s : Store) : Prop where
  globals : Store.globals < s.environments.size
  bindings : ∀ env name v, (s.environment env).bindings.get? name = some v → s.Holds v
  super : ∀ env v, (s.environment env).bindings.get? "super" = some v → ∃ id, v = .cls id
  fields : ∀ id i, s.instance? id = some i → ∀ name v, i.fields.get? name = some v → s.Holds v
  methods : ∀ id c, s.class? id = some c → ∀ name k, c.methods.get? name = some k →
    ∃ f, s.closure? k = some f ∧ s.Unbound f
  framed : s.Framed

/-- The store grew, and of the environments it had only one got names. -/
structure Grows (s s' : Store) (env : Nat) (added : String → Prop) : Prop extends Stable s s' where
  has : ∀ id < s.environments.size, ∀ x, s'.Has id x ↔ s.Has id x ∨ id = env ∧ added x

/-- No name. -/
def nothing : String → Prop := fun _ => False

/-! ## Lookup by distance -/

variable {s s' s'' : Store} {env : Nat} {scopes : List (List String)}

theorem Has.get? {name : String} (h : s.Has env name) :
    ∃ v, (s.environment env).bindings.get? name = some v :=
  Option.isSome_iff_exists.1 h

/-- The environment at the distance of a scope is there and covers what is left. -/
theorem Covers.environmentAt {names : List String} :
    ∀ {scopes : List (List String)} {env : Nat}, s.Covers scopes env →
      ∀ hops : Nat, scopes[hops]? = some names →
      ∃ found, s.environmentAt hops env = .ok found ∧ ∀ x ∈ names, s.Has found x
  | names' :: scopes, env, h, 0, hnames => by
    simp only [List.getElem?_cons_zero, Option.some.injEq] at hnames
    subst hnames
    exact ⟨env, rfl, h.2.1⟩
  | names' :: scopes, env, h, hops + 1, hnames => by
    obtain ⟨-, -, -, outer, houter, hrest⟩ := h
    obtain ⟨found, hfound, hhas⟩ := hrest.environmentAt hops (by simpa using hnames)
    refine ⟨found, ?_, hhas⟩
    simpa [Store.environmentAt, ancestor, houter] using hfound

/-- A name that a scope binds is found at the scope's distance. -/
theorem Covers.getAt {hops : Nat} {name : String} (h : s.Covers scopes env)
    (hbinds : Site.Binds scopes hops name) :
    ∃ found v, s.environmentAt hops env = .ok found ∧ s.getAt hops env name = .ok v ∧
      (s.environment found).bindings.get? name = some v := by
  obtain ⟨names, hnames, hname⟩ := hbinds
  obtain ⟨found, hfound, hhas⟩ := h.environmentAt hops hnames
  obtain ⟨v, hv⟩ := (hhas name hname).get?
  exact ⟨found, v, hfound, by simp [Store.getAt, hfound, hv], hv⟩

theorem Covers.holderAt {hops : Nat} {name : String} (h : s.Covers scopes env)
    (hbinds : Site.Binds scopes hops name) :
    ∃ found, s.holderAt hops env name = .ok found ∧ s.Has found name := by
  obtain ⟨names, hnames, hname⟩ := hbinds
  obtain ⟨found, hfound, hhas⟩ := h.environmentAt hops hnames
  have hcontains : (s.environment found).bindings.contains name = true := hhas name hname
  exact ⟨found, by simp [Store.holderAt, hfound, hcontains], hhas name hname⟩

/-- Code that stands in the scope of a receiver is inside the method that was called on it. One
environment further out is the superclass of the class that declares the method. -/
theorem Covers.inside (hs : s.Framed) : ∀ {scopes : List (List String)} {env hops : Nat},
    s.Covers scopes env → Site.hopsTo? "this" scopes = some hops →
      ∃ inst cls, s.Inside env inst cls ∧ s.getAt hops env "this" = .ok (.inst inst) ∧
        ∀ found v, s.environmentAt (hops + 1) env = .ok found →
          (s.environment found).bindings.get? "super" = some v →
          ∃ parent, s.Extends cls parent ∧ v = .cls parent
  | names :: scopes, env, hops, h, hhops => by
    obtain ⟨-, hnames, hthis, outer, houter, hrest⟩ := h
    rw [Site.hopsTo?_cons] at hhops
    split at hhops
    · rename_i hmem
      cases hhops
      obtain ⟨v, hv⟩ := (hnames "this" hmem).get?
      obtain ⟨inst, cls, hreceives⟩ := hs.receivers env v hv
      obtain ⟨f, hf, henclosing⟩ := hreceives.method
      obtain ⟨c, hc⟩ := hf.class?
      refine ⟨inst, cls, .method hreceives, ?_, fun found w hfound hw => ?_⟩
      · simp [Store.getAt, Store.environmentAt, ancestor, hreceives.receiver]
      · simp only [Store.environmentAt, ancestor, henclosing, Except.ok.injEq] at hfound
        rw [← hfound, hs.super cls c f hc hf] at hw
        obtain ⟨parent, hparent, rfl⟩ := Option.map_eq_some_iff.1 hw
        exact ⟨parent, ⟨c, hc, hparent⟩, rfl⟩
    · rename_i hmem
      obtain ⟨inner, hinner, rfl⟩ := Option.map_eq_some_iff.1 hhops
      obtain ⟨inst, cls, hinside, hget, hsuper⟩ := hrest.inside hs hinner
      have hnone : (s.environment env).bindings.get? "this" = none := by
        by_contra hsome
        exact hmem (hthis (Option.isSome_iff_ne_none.2 hsome))
      refine ⟨inst, cls, .nested hnone houter hinside, ?_, fun found w hfound hw => ?_⟩
      · simpa [Store.getAt, Store.environmentAt, ancestor, houter] using hget
      · refine hsuper found w ?_ hw
        simpa [Store.environmentAt, ancestor, houter] using hfound

/-- An environment that has the name is its holder. -/
theorem holder_of_has {name : Token} (h : s.Has env name.lexeme) : s.holder env name = .ok env := by
  have hcontains : (s.environment env).bindings.contains name.lexeme = true := h
  rw [holder, find?, findWithin, if_pos hcontains]

theorem has_of_findWithin {name : String} {found : Nat} :
    ∀ {steps env : Nat}, s.findWithin name steps env = some found → s.Has found name
  | steps + 1, env, h => by
    rw [findWithin] at h
    split at h
    · cases h
      assumption
    · split at h
      · cases h
      · exact has_of_findWithin h

/-! ## Growth -/

theorem Grows.refl (s : Store) (env : Nat) : s.Grows s env nothing :=
  ⟨.refl s, fun _ _ _ => by simp [nothing]⟩

theorem Grows.trans {p q : String → Prop} (h : s.Grows s' env p) (h' : s'.Grows s'' env q) :
    s.Grows s'' env fun x => p x ∨ q x := by
  refine ⟨h.toStable.trans h'.toStable, fun id hid x => ?_⟩
  rw [h'.has id (hid.trans_le h.size), h.has id hid]
  tauto

theorem Grows.congr {p q : String → Prop} (h : s.Grows s' env p) (hpq : ∀ x, p x ↔ q x) :
    s.Grows s' env q :=
  ⟨h.toStable, fun id hid x => by rw [h.has id hid, hpq]⟩

/-- Names that go to an environment that was not there before count as none. -/
theorem Grows.fresh {inner : Nat} {q : String → Prop} (h : s.Grows s' env nothing)
    (h' : s'.Grows s'' inner q) (hinner : s.environments.size ≤ inner) :
    s.Grows s'' env nothing := by
  refine ⟨h.toStable.trans h'.toStable, fun id hid x => ?_⟩
  have hne : id ≠ inner := by omega
  rw [h'.has id (hid.trans_le h.size), h.has id hid]
  simp [hne]

/-- The environment binds the name in the one store if it does in the other. -/
theorem Stable.has_this (hs : s.Stable s') (h : env < s.environments.size) :
    s'.Has env "this" ↔ s.Has env "this" := by
  rw [Has, Has, Table.contains, Table.contains, hs.this env h]

theorem Covers.grows {other : Nat} {added : String → Prop} (hgrows : s.Grows s' other added) :
    ∀ {scopes : List (List String)} {env : Nat}, s.Covers scopes env → s'.Covers scopes env
  | [], _, h => h
  | _ :: _, env, h => by
    obtain ⟨henv, hnames, hthis, outer, houter, hrest⟩ := h
    refine ⟨henv.trans_le hgrows.size, fun x hx => ?_, fun hx => ?_, outer, ?_,
      hrest.grows hgrows⟩
    · exact (hgrows.has env henv x).2 (.inl (hnames x hx))
    · exact hthis ((hgrows.toStable.has_this henv).1 hx)
    · rw [hgrows.enclosing env henv, houter]

/-- A name that is declared in the innermost scope and defined in its environment. -/
theorem Covers.declare {site : Site} {name : String} (h : s.Covers site.scopes env)
    (hgrows : s.Grows s' env (· = name)) : s'.Covers (site.declare name).scopes env := by
  have hcovers := h.grows hgrows
  unfold Site.declare
  rcases hscopes : site.scopes with _ | ⟨names, scopes⟩ <;> rw [hscopes] at h hcovers
  · exact hcovers
  · refine ⟨hcovers.1, fun x hx => ?_, fun hx => List.mem_cons_of_mem _ (hcovers.2.2.1 hx),
      hcovers.2.2.2⟩
    rcases List.mem_cons.1 hx with rfl | hx
    · exact (hgrows.has env h.1 x).2 (.inr ⟨rfl, rfl⟩)
    · exact hcovers.2.1 x hx

theorem Closes.grows {missing : List (List String)} {f : Closure} {other : Nat}
    {added : String → Prop} (hgrows : s.Grows s' other added) (h : s.Closes missing f) :
    s'.Closes missing f := by
  obtain ⟨site, kind, name, params, body, scopes, hdecl, hparams, hkind, hsite, hcovers, hrest⟩ := h
  exact ⟨site, kind, name, params, body, scopes, hdecl, hparams, hkind, hsite,
    hcovers.grows hgrows, hrest⟩

theorem Holds.grows {v : Value} {other : Nat} {added : String → Prop}
    (hgrows : s.Grows s' other added) (h : s.Holds v) : s'.Holds v := by
  cases v with
  | function id =>
    obtain ⟨f, hf, hcallable⟩ := h
    exact ⟨f, hgrows.closures id f hf, Closes.grows hgrows hcallable⟩
  | inst id =>
    obtain ⟨i, hi⟩ := h
    obtain ⟨i', hi', -⟩ := hgrows.instances id i hi
    exact ⟨i', hi'⟩
  | _ => trivial

/-! ## What each operation keeps -/

theorem Grows.of_eq_environments (hs : s.Stable s') (henvs : s'.environments = s.environments) :
    s.Grows s' env nothing := by
  refine ⟨hs, fun id _ x => ?_⟩
  simp [Has, environment, henvs, nothing]

theorem has_define (s : Store) (env : Nat) (name : String) (v : Value) {id : Nat}
    (hid : id < s.environments.size) (x : String) :
    (s.define env name v).Has id x ↔ s.Has id x ∨ id = env ∧ x = name := by
  simp only [Has, environment_define]
  by_cases henv : env = id
  · simp [henv, hid, or_comm]
  · simp [henv, Ne.symm henv]

theorem grows_define {name : String} (hthis : name ≠ "this") (hsuper : name ≠ "super") (s : Store)
    (env : Nat) (v : Value) : s.Grows (s.define env name v) env (· = name) :=
  ⟨stable_define hthis hsuper s env v, fun _ hid x => has_define s env name v hid x⟩

theorem grows_assign {name : String} (hthis : name ≠ "this") (hsuper : name ≠ "super")
    (h : s.Has env name) (other : Nat) (v : Value) :
    s.Grows (s.define env name v) other nothing := by
  have hgrows := grows_define hthis hsuper s env v
  refine ⟨hgrows.toStable, fun id hid x => ?_⟩
  rw [hgrows.has id hid]
  simp only [nothing, and_false, or_false, or_iff_left_iff_imp]
  rintro ⟨rfl, rfl⟩
  exact h

/-- At first there is nothing but a native function in the globals. -/
theorem sound_initial : initial.Sound := by
  have henv : ∀ env name v, (initial.environment env).bindings.get? name = some v →
      name = "clock" ∧ v = .native 0 := by
    intro env name v h
    rcases env with _ | env
    · simp only [initial, environment, List.getElem?_toArray, List.getElem?_cons_zero,
        Option.getD_some, Table.get?_insert, Table.get?_empty] at h
      split at h <;> cases h
      exact ⟨‹_›, rfl⟩
    · simp [initial, environment] at h
  have hclosure : ∀ id f, initial.closure? id ≠ some f := by rintro _ _ ⟨⟩
  have hclass : ∀ id c, initial.class? id ≠ some c := by rintro _ _ ⟨⟩
  have hinstance : ∀ id i, initial.instance? id ≠ some i := by rintro _ _ ⟨⟩
  have hframed : initial.Framed := by
    refine ⟨⟨by decide, by decide⟩, fun id f hf => absurd hf (hclosure id f),
      fun id c _ _ hc => absurd hc (hclass id c), fun id c _ hc => absurd hc (hclass id c), ?_,
      fun env v h => ?_, fun id f _ hf => absurd hf (hclosure id f)⟩
    · rintro _ _ _ _ _ ⟨_, hc, -⟩
      cases hc
    · obtain ⟨hname, -⟩ := henv env _ v h
      simp at hname
  refine ⟨by decide, fun env name v h => ?_, fun env v h => ?_,
    fun id i hi => absurd hi (hinstance id i), fun id c hc => absurd hc (hclass id c), hframed⟩
  · obtain ⟨-, rfl⟩ := henv env name v h
    trivial
  · obtain ⟨hname, -⟩ := henv env _ v h
    simp at hname

/-- A store that grew is sound if all that is new in it holds. -/
theorem Sound.of_grows {other : Nat} {added : String → Prop} (h : s.Sound)
    (hgrows : s.Grows s' other added)
    (hbindings : ∀ env name v, (s'.environment env).bindings.get? name = some v →
      (s.environment env).bindings.get? name = some v ∨
        s'.Holds v ∧ (name = "super" → ∃ id, v = .cls id))
    (hfields : ∀ id i, s'.instance? id = some i → ∀ name v, i.fields.get? name = some v →
      s.Holds v)
    (hmethods : ∀ id c, s'.class? id = some c → ∀ name k, c.methods.get? name = some k →
      ∃ f, s.closure? k = some f ∧ s.Unbound f) (hframed : s'.Framed) : s'.Sound := by
  refine ⟨h.globals.trans_le hgrows.size, fun id x w hw => ?_, fun id w hw => ?_,
    fun id i hi x w hw => (hfields id i hi x w hw).grows hgrows, fun id c hc x k hk => ?_, hframed⟩
  · rcases hbindings id x w hw with hold | ⟨hnew, -⟩
    · exact (h.bindings id x w hold).grows hgrows
    · exact hnew
  · rcases hbindings id "super" w hw with hold | ⟨-, hsuper⟩
    · exact h.super id w hold
    · exact hsuper rfl
  · obtain ⟨f, hf, hunbound⟩ := hmethods id c hc x k hk
    exact ⟨f, hgrows.closures k f hf, Closes.grows hgrows hunbound⟩

theorem Sound.define {name : String} {v : Value} (h : s.Sound)
    (hv : (s.define env name v).Holds v) (hthis : name ≠ "this") (hsuper : name ≠ "super") :
    (s.define env name v).Sound := by
  refine h.of_grows (grows_define hthis hsuper s env v) (fun id x w hw => ?_) h.fields h.methods
    (h.framed.define h.globals hthis hsuper env v)
  rw [environment_define] at hw
  split at hw
  · rw [Table.get?_insert] at hw
    split at hw
    · rename_i hx
      cases hw
      exact .inr ⟨hv, fun heq => absurd (hx.symm.trans heq) hsuper⟩
    · exact .inl hw
  · exact .inl hw

theorem grows_newEnvironment (s : Store) (env : Nat) (e : Environment) :
    s.Grows (s.newEnvironment e).2 env nothing := by
  refine ⟨stable_newEnvironment s e, fun id hid x => ?_⟩
  rw [Has, environment_newEnvironment, if_neg (by omega)]
  simp [Has, nothing]

theorem Sound.newEnvironment {e : Environment} (h : s.Sound)
    (hvalues : ∀ name v, e.bindings.get? name = some v → s.Holds v)
    (hsuper : ∀ v, e.bindings.get? "super" = some v → ∃ id, v = .cls id)
    (hframed : (s.newEnvironment e).2.Framed) : (s.newEnvironment e).2.Sound := by
  refine h.of_grows (grows_newEnvironment s 0 e) (fun id x w hw => ?_) h.fields h.methods hframed
  rw [environment_newEnvironment] at hw
  split at hw
  · refine .inr ⟨(hvalues x w hw).grows (grows_newEnvironment s 0 e), ?_⟩
    rintro rfl
    exact hsuper w hw
  · exact .inl hw

/-- A new environment covers one scope more than the one around it. -/
theorem Covers.newEnvironment {e : Environment} {names : List String} {outer : Nat}
    (h : s.Covers scopes outer) (henclosing : e.enclosing = some outer)
    (hnames : ∀ x ∈ names, e.bindings.contains x = true)
    (hthis : e.bindings.contains "this" = true → "this" ∈ names) :
    (s.newEnvironment e).2.Covers (names :: scopes) (s.newEnvironment e).1 := by
  have henv : (s.newEnvironment e).2.environment (s.newEnvironment e).1 = e := by
    rw [environment_newEnvironment]
    simp [Store.newEnvironment]
  have hgrows : s.Grows (s.newEnvironment e).2 0 nothing := grows_newEnvironment s 0 e
  refine ⟨by simp [Store.newEnvironment], fun x hx => ?_, fun hx => ?_, outer, ?_,
    h.grows hgrows⟩
  · rw [Has, henv]
    exact hnames x hx
  · rw [Has, henv] at hx
    exact hthis hx
  · rw [henv, henclosing]

theorem grows_newFunction (s : Store) (env : Nat) (f : Closure) :
    s.Grows (s.newFunction f).2 env nothing := .of_eq_environments (stable_newFunction s f) rfl

theorem Sound.newFunction {f : Closure} (h : s.Sound)
    (hlt : f.environment < s.environments.size)
    (hthis : ∀ v, (s.environment f.environment).bindings.get? "this" = some v →
      ∃ inst cls, s.BoundMethod inst cls f) :
    (s.newFunction f).2.Sound :=
  h.of_grows (grows_newFunction s 0 f) (fun _ _ _ => .inl) h.fields h.methods
    (h.framed.newFunction h.globals hlt hthis)

theorem holds_newFunction {f : Closure} (h : s.Callable f) :
    (s.newFunction f).2.Holds (.function (s.newFunction f).1) := by
  refine ⟨f, ?_, Closes.grows (grows_newFunction s 0 f) h⟩
  rw [closure?_newFunction]
  simp [newFunction]

theorem grows_newClass (s : Store) (env : Nat) (c : Class) : s.Grows (s.newClass c).2 env nothing :=
  .of_eq_environments (stable_newClass s c) rfl

theorem Sound.newClass {c : Class} (h : s.Sound)
    (hmethods : ∀ name k, c.methods.get? name = some k →
      ∃ f, s.closure? k = some f ∧ s.Unbound f) (hframed : (s.newClass c).2.Framed) :
    (s.newClass c).2.Sound := by
  refine h.of_grows (grows_newClass s 0 c) (fun _ _ _ => .inl) h.fields
    (fun id d hd x k hk => ?_) hframed
  rw [class?_newClass] at hd
  split at hd
  · cases hd
    exact hmethods x k hk
  · exact h.methods id d hd x k hk

theorem grows_newInstance (s : Store) (env : Nat) (i : Instance) :
    s.Grows (s.newInstance i).2 env nothing := .of_eq_environments (stable_newInstance s i) rfl

theorem Sound.newInstance (h : s.Sound) (cls : Nat) : (s.newInstance ⟨cls, .empty⟩).2.Sound := by
  refine h.of_grows (grows_newInstance s 0 _) (fun _ _ _ => .inl)
    (fun id i hi x w hw => ?_) h.methods
    (h.framed.of_eq (stable_newInstance s _) h.globals rfl rfl rfl)
  exact h.fields id i (instance?_of_newInstance hi hw) x w hw

theorem grows_setField (s : Store) (env : Nat) (inst : Nat) (name : String) (v : Value) :
    s.Grows (s.setField inst name v) env nothing :=
  .of_eq_environments (stable_setField s inst name v) rfl

theorem Sound.setField {name : String} {v : Value} (h : s.Sound) (hv : s.Holds v) (inst : Nat) :
    (s.setField inst name v).Sound := by
  refine h.of_grows (grows_setField s 0 inst name v) (fun _ _ _ => .inl)
    (fun id i hi x w hw => ?_) h.methods
    (h.framed.of_eq (stable_setField s inst name v) h.globals rfl rfl rfl)
  rcases field_of_setField hi hw with rfl | ⟨old, hold, hw⟩
  · exact hv
  · exact h.fields id old hold x w hw

/-- A method that was looked up is one that can be bound. -/
theorem Sound.method? {cls : Nat} {name : String} {f : Closure} (h : s.Sound)
    (hf : s.method? cls name = some f) : s.Unbound f := by
  obtain ⟨k, hk, hclosure⟩ := Option.bind_eq_some_iff.1 hf
  obtain ⟨id, c, hc, hmethod⟩ := mem_of_findMethodWithin hk
  obtain ⟨g, hg, hunbound⟩ := h.methods id c hc name k hmethod
  rw [hclosure] at hg
  cases hg
  exact hunbound

/-- Binding a method gives it the scope that it lacked. -/
theorem bind_spec {f : Closure} {inst : Nat} (env : Nat) (h : s.Sound) (hf : s.Unbound f)
    (hown : ∃ cls, s.OwnMethod cls f ∧ ∃ i, s.instance? inst = some i ∧ s.IsA i.cls cls) :
    (s.bind f (.inst inst)).2.Sound ∧ s.Grows (s.bind f (.inst inst)).2 env nothing ∧
      (s.bind f (.inst inst)).2.Holds (.function (s.bind f (.inst inst)).1) := by
  obtain ⟨site, kind, name, params, body, scopes, hdecl, hparams, hkind, hsite, hcovers, hbody,
    hinit⟩ := hf
  obtain ⟨cls, hmethod, hinst⟩ := hown
  let e : Environment := ⟨Table.empty.insert "this" (.inst inst), some f.environment⟩
  obtain ⟨hframed, hbound⟩ := h.framed.newReceiver h.globals hmethod hinst
  have hsound : (s.newEnvironment e).2.Sound := by
    refine h.newEnvironment (fun x v hv => ?_) (fun v hv => ?_) hframed
    · simp only [e, Table.get?_insert, Table.get?_empty] at hv
      split at hv
      · cases hv
        obtain ⟨i, hi, -⟩ := hinst
        exact ⟨i, hi⟩
      · cases hv
    · simp [e] at hv
  have hinner : (s.newEnvironment e).2.Covers (["this"] :: scopes) (s.newEnvironment e).1 :=
    hcovers.newEnvironment rfl (by simp [e]) (by simp)
  have hcallable : (s.newEnvironment e).2.Callable
      { f with environment := (s.newEnvironment e).1 } :=
    ⟨site, kind, name, params, body, ["this"] :: scopes, hdecl, hparams, hkind, hsite, hinner,
      hbody, hinit⟩
  have hgrows := (grows_newEnvironment s env e).trans
    (grows_newFunction (s.newEnvironment e).2 env { f with environment := (s.newEnvironment e).1 })
  exact ⟨hsound.newFunction (by simp [Store.newEnvironment]) fun _ _ => ⟨inst, cls, hbound⟩,
    hgrows.congr (by simp [nothing]), holds_newFunction hcallable⟩

end Store

end Lox
