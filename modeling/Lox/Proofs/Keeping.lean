import Mathlib.Tactic
import Lox.Proofs.Covering
import Lox.Proofs.Visits

/-!
# What computations keep

A computation that is run at a site `Keeps` the machine in order: it comes back to the environment
it began in, with a sound store that only grew. It gives a value of the described sort, or ends in
a signal that is allowed: an error, a `return` if there is a call for it to end, or a fault that
has one of the described origins. There is a rule for sequences, and one for each operation of the
machine.
-/

namespace Lox

namespace Machine

/-- The machine came back to its environment, which has the added names. -/
structure Leads (m m' : Machine) (added : String → Prop) : Prop where
  environment : m'.environment = m.environment
  sound : m'.store.Sound
  grows : m.store.Grows m'.store m.environment added

/-- The machine is running at a site: its environment covers the open scopes, and has no other
names than the innermost of them. It is none that was made for a receiver or a superclass. -/
structure Running (site : Site) (m : Machine) : Prop where
  sound : m.store.Sound
  covers : m.store.Covers site.scopes m.environment
  exact : ∀ names, site.scopes.head? = some names → ∀ x, m.store.Has m.environment x → x ∈ names
  pending : ∀ x, site.initializing = some x →
    ∃ names, site.scopes.head? = some names ∧ x ∉ names
  ordinary : m.store.Ordinary m.environment

variable {m m' m'' : Machine} {site : Site}

theorem Leads.refl (h : m.store.Sound) : m.Leads m Store.nothing := ⟨rfl, h, .refl _ _⟩

theorem Leads.trans {p q : String → Prop} (h : m.Leads m' p) (h' : m'.Leads m'' q) :
    m.Leads m'' fun x => p x ∨ q x := by
  refine ⟨h'.environment.trans h.environment, h'.sound, h.grows.trans ?_⟩
  rw [← h.environment]
  exact h'.grows

theorem Leads.congr {p q : String → Prop} (h : m.Leads m' p) (hpq : ∀ x, p x ↔ q x) :
    m.Leads m' q := ⟨h.environment, h.sound, h.grows.congr hpq⟩

theorem Leads.then {q : String → Prop} (h : m.Leads m' Store.nothing) (h' : m'.Leads m'' q) :
    m.Leads m'' q := (h.trans h').congr fun _ => by simp [Store.nothing]

/-- The machine stands in an environment of its store. -/
theorem Running.lt (h : m.Running site) : m.environment < m.store.environments.size := by
  have hcovers := h.covers
  rcases hscopes : site.scopes with _ | ⟨names, scopes⟩ <;> rw [hscopes] at hcovers
  · rw [show m.environment = Store.globals from hcovers]
    exact h.sound.globals
  · exact hcovers.1

theorem Running.leads (h : m.Running site) (hm : m.Leads m' Store.nothing) : m'.Running site := by
  have henv := hm.environment
  refine ⟨hm.sound, ?_, fun names hnames x hx => ?_, h.pending, ?_⟩
  · rw [henv]
    exact h.covers.grows hm.grows
  · obtain ⟨rest, hscopes⟩ : ∃ rest, site.scopes = names :: rest :=
      List.head?_eq_some_iff.1 hnames
    have hcovers := h.covers
    rw [hscopes] at hcovers
    rw [henv, hm.grows.has _ hcovers.1] at hx
    rcases hx with hx | ⟨-, hx⟩
    · exact h.exact names hnames x hx
    · exact hx.elim
  · rw [henv]
    exact h.ordinary.later hm.grows.toStable h.lt

/-- After a declaration the machine runs at the site after it. -/
theorem Running.declare {name : String} (h : m.Running site) (hsite : site.initializing = none)
    (hm : m.Leads m' (· = name)) : m'.Running (site.declare name) := by
  refine ⟨hm.sound, ?_, fun found hfound x hx => ?_, fun x hx => ?_, ?_⟩
  · rw [hm.environment]
    exact h.covers.declare hm.grows
  · rw [hm.environment, hm.grows.has _ h.lt] at hx
    rcases hscopes : site.scopes with _ | ⟨names, scopes⟩ <;>
      simp only [Site.declare, hscopes, Site.bind, List.head?_nil, List.head?_cons,
        Option.some.injEq, reduceCtorEq] at hfound
    subst hfound
    rcases hx with hx | ⟨-, rfl⟩
    · exact List.mem_cons_of_mem _ (h.exact names (by rw [hscopes]; rfl) x hx)
    · exact List.mem_cons_self
  · rw [show (site.declare name).initializing = none from hsite] at hx
    cases hx
  · rw [hm.environment]
    exact h.ordinary.later hm.grows.toStable h.lt

end Machine

/-- A signal that a computation may end in. -/
def Signal.Allowed (returns : Prop) (origin : Fault → Prop) (s : Store) : Signal → Prop
  | .returning value => returns ∧ s.Holds value
  | .error _ => True
  | .fault f => origin f
  | .exhausted => True

namespace Eval

open Machine (Leads Running)

variable {α β : Type} {m : Machine} {site : Site} {R : Prop} {O : Fault → Prop}

/-- The computation leaves the machine in order, however it ends. -/
def Keeps (c : Eval α) (m : Machine) (R : Prop) (O : Fault → Prop) (Q : α → Machine → Prop) :
    Prop :=
  match c m with
  | .ok a m' => (∃ added, m.Leads m' added) ∧ Q a m'
  | .error signal m' => (∃ added, m.Leads m' added) ∧ signal.Allowed R O m'.store

theorem keeps_of_ok {c : Eval α} {a : α} {m' : Machine} {added : String → Prop}
    {Q : α → Machine → Prop} (h : c m = .ok a m') (hm : m.Leads m' added) (hQ : Q a m') :
    Keeps c m R O Q := by
  rw [Keeps, h]
  exact ⟨⟨added, hm⟩, hQ⟩

theorem Keeps.of_ok {c : Eval α} {a : α} {m' : Machine} {Q : α → Machine → Prop}
    (hc : Keeps c m R O Q) (h : c m = .ok a m') : (∃ added, m.Leads m' added) ∧ Q a m' := by
  rw [Keeps, h] at hc
  exact hc

theorem keeps_pure {a : α} {Q : α → Machine → Prop} (hm : m.store.Sound) (hQ : Q a m) :
    Keeps (pure a) m R O Q := keeps_of_ok rfl (Leads.refl hm) hQ

theorem Keeps.mono {c : Eval α} {P Q : α → Machine → Prop} (hc : Keeps c m R O P)
    (h : ∀ a m', P a m' → Q a m') : Keeps c m R O Q := by
  unfold Keeps at hc ⊢
  split at hc
  · exact ⟨hc.1, h _ _ hc.2⟩
  · exact hc

theorem keeps_of_signal {c : Eval α} {signal : Signal} {m' : Machine} {added : String → Prop}
    {Q : α → Machine → Prop} (h : c m = .error signal m') (hm : m.Leads m' added)
    (hsignal : signal.Allowed R O m'.store) : Keeps c m R O Q := by
  rw [Keeps, h]
  exact ⟨⟨added, hm⟩, hsignal⟩

theorem keeps_of_error {c : Eval α} {signal : Signal} {Q : α → Machine → Prop}
    (hm : m.store.Sound) (h : c m = .error signal m) (hsignal : signal.Allowed R O m.store) :
    Keeps c m R O Q := keeps_of_signal h (Leads.refl hm) hsignal

/-- A computation that goes on as another from a machine that the first led to. -/
theorem Keeps.after {c c' : Eval α} {m' : Machine} {added : String → Prop}
    {Q : α → Machine → Prop} (h : c m = c' m') (hm : m.Leads m' added)
    (hc : Keeps c' m' R O Q) : Keeps c m R O Q := by
  unfold Keeps at hc ⊢
  rw [h]
  split at hc
  · obtain ⟨⟨q, hq⟩, hQ⟩ := hc
    exact ⟨⟨_, hm.trans hq⟩, hQ⟩
  · obtain ⟨⟨q, hq⟩, hsignal⟩ := hc
    exact ⟨⟨_, hm.trans hq⟩, hsignal⟩

theorem Keeps.bind {c : Eval α} {k : α → Eval β} {P : α → Machine → Prop}
    {Q : β → Machine → Prop} (hc : Keeps c m R O P)
    (hk : ∀ a m', c m = .ok a m' → P a m' → m'.store.Sound → Keeps (k a) m' R O Q) :
    Keeps (c >>= k) m R O Q := by
  rcases hresult : c m with ⟨a, m₁⟩ | ⟨signal, m₁⟩
  · obtain ⟨⟨p, hp⟩, hP⟩ := hc.of_ok hresult
    exact (hk a m₁ hresult hP hp.sound).after (bind_ok hresult) hp
  · rw [Keeps, hresult] at hc
    rw [Keeps, bind_error hresult]
    exact hc

/-- Where a fault comes from inside, it comes from outside. -/
theorem Keeps.origin {c : Eval α} {P : Fault → Prop} {Q : α → Machine → Prop}
    (hc : Keeps c m R P Q) (h : ∀ f, P f → O f) : Keeps c m R O Q := by
  unfold Keeps at hc ⊢
  split at hc
  · exact hc
  · refine ⟨hc.1, ?_⟩
    rename_i signal _ _
    cases signal with
    | fault f => exact h f hc.2
    | _ => exact hc.2

/-- What needs no call for a `return` to end can also be run where there is one. -/
theorem Keeps.returns {c : Eval α} {Q : α → Machine → Prop} (hc : Keeps c m False O Q) :
    Keeps c m R O Q := by
  unfold Keeps at hc ⊢
  split at hc
  · exact hc
  · refine ⟨hc.1, ?_⟩
    rename_i signal _ _
    cases signal with
    | returning v => exact hc.2.1.elim
    | _ => exact hc.2

theorem keeps_fail {token : Token} {cause : RuntimeError.Cause} {Q : α → Machine → Prop}
    (hm : m.store.Sound) (htoken : token.isMissing = false) :
    Keeps (fail token cause) m R O Q := by
  have hfail : (fail token cause : Eval α) m = .error (.error ⟨token, cause⟩) m := by
    rw [fail, checkToken_eq htoken]
    rfl
  exact keeps_of_error hm hfail trivial

theorem keeps_exhausted {Q : α → Machine → Prop} (hm : m.store.Sound) :
    Keeps (throw .exhausted) m R O Q := keeps_of_error hm rfl trivial

/-! ## Names -/

theorem keeps_define {name : Token} {v : Value} (h : m.Running site) (hname : name.IsName)
    (hv : m.store.Holds v) :
    Keeps (define name v) m R O fun _ m' => m.Leads m' (· = name.lexeme) := by
  have hgrows := Store.grows_define hname.ne_this hname.ne_super m.store m.environment v
  have hleads : m.Leads { m with store := m.store.define m.environment name.lexeme v }
      (· = name.lexeme) :=
    ⟨rfl, h.sound.define (hv.grows hgrows) hname.ne_this hname.ne_super, hgrows⟩
  have hdefine : define name v m =
      .ok () { m with store := m.store.define m.environment name.lexeme v } := by
    rw [define, checkToken_eq hname.present]
    rfl
  exact keeps_of_ok hdefine hleads hleads

/-- The machine after a value was stored. -/
theorem leads_store {found : Nat} {name : Token} {v : Value} (hm : m.store.Sound)
    (hname : name.IsName) (hv : m.store.Holds v) (hfound : m.store.Has found name.lexeme) :
    m.Leads { m with store := m.store.define found name.lexeme v } Store.nothing := by
  have hgrows := Store.grows_assign hname.ne_this hname.ne_super hfound m.environment v
  exact ⟨rfl, hm.define (hv.grows hgrows) hname.ne_this hname.ne_super, hgrows⟩

/-! ## Objects -/

theorem getProperty_eq (m : Machine) (inst : Nat) {name : Token}
    (hname : name.isMissing = false) :
    getProperty inst name m = (match m.store.property inst name with
      | .ok (.inl value) => .ok value m
      | .ok (.inr f) => .ok (.function (m.store.bind f (.inst inst)).1)
          { m with store := (m.store.bind f (.inst inst)).2 }
      | .error e => .error (.error e) m) := by
  rw [getProperty, checkToken_eq hname]
  rfl

theorem keeps_getProperty {inst : Nat} {name : Token} (hm : m.store.Sound)
    (hinst : m.store.Holds (.inst inst)) (hname : name.isMissing = false) :
    Keeps (getProperty inst name) m R O fun v m' =>
      m.Leads m' Store.nothing ∧ m'.store.Holds v := by
  obtain ⟨i, hi⟩ := hinst
  have hstart := getProperty_eq m inst hname
  rcases hproperty : m.store.property inst name with e | (value | f) <;> rw [hproperty] at hstart
  · exact keeps_of_error hm hstart trivial
  · refine keeps_of_ok hstart (Leads.refl hm) ⟨Leads.refl hm, ?_⟩
    simp only [Store.property, hi, Option.getD_some] at hproperty
    split at hproperty
    · rename_i found hfound
      cases hproperty
      exact hm.fields inst i hi _ value hfound
    · split at hproperty <;> cases hproperty
  · have hmethod : m.store.method? i.cls name.lexeme = some f := by
      simp only [Store.property, hi, Option.getD_some] at hproperty
      split at hproperty
      · cases hproperty
      · split at hproperty
        · rename_i hmethod
          cases hproperty
          exact hmethod
        · cases hproperty
    obtain ⟨hsound, hgrows, hholds⟩ := Store.bind_spec m.environment hm (hm.method? hmethod)
      (Store.exists_ownMethod hi .refl hmethod)
    exact keeps_of_ok hstart ⟨rfl, hsound, hgrows⟩ ⟨⟨rfl, hsound, hgrows⟩, hholds⟩

theorem keeps_setProperty {inst : Nat} {name : Token} {v : Value} (hm : m.store.Sound)
    (hname : name.isMissing = false) (hv : m.store.Holds v) :
    Keeps (setProperty inst name v) m R O fun _ m' => m.Leads m' Store.nothing := by
  have hleads : m.Leads { m with store := m.store.setField inst name.lexeme v } Store.nothing :=
    ⟨rfl, hm.setField hv inst, Store.grows_setField _ _ _ _ _⟩
  have hstart : setProperty inst name v m =
      .ok () { m with store := m.store.setField inst name.lexeme v } := by
    rw [setProperty, checkToken_eq hname]
    rfl
  exact keeps_of_ok hstart hleads hleads

theorem binary_spec {operator : Token} (h : operator.kind ∈ Operator.binaryKinds)
    (left right : Value) :
    (∃ v, Operator.binary operator left right = .ok v ∧ ∀ s : Store, s.Holds v) ∨
      ∃ e, Operator.binary operator left right = .error (.error e) := by
  have hnumbers : ∀ f : Number → Number → Value, (∀ x y (s : Store), s.Holds (f x y)) →
      (∃ v, Operator.ofNumbers operator f left right = .ok v ∧ ∀ s : Store, s.Holds v) ∨
        ∃ e, Operator.ofNumbers operator f left right = .error (.error e) := by
    intro f hf
    unfold Operator.ofNumbers
    split
    · exact .inl ⟨_, rfl, hf _ _⟩
    · exact .inr ⟨_, rfl⟩
  simp only [Operator.binaryKinds, List.mem_cons, List.not_mem_nil, or_false] at h
  rcases h with h | h | h | h | h | h | h | h | h | h <;> simp only [Operator.binary, h]
  all_goals first
    | exact hnumbers _ fun _ _ _ => trivial
    | exact .inl ⟨_, rfl, fun _ => trivial⟩
    | skip
  unfold Operator.add
  split
  all_goals first
    | exact .inl ⟨_, rfl, fun _ => trivial⟩
    | exact .inr ⟨_, rfl⟩

theorem unary_spec {operator : Token} (h : operator.kind ∈ Operator.unaryKinds) (right : Value) :
    (∃ v, Operator.unary operator right = .ok v ∧ ∀ s : Store, s.Holds v) ∨
      ∃ e, Operator.unary operator right = .error (.error e) := by
  simp only [Operator.unaryKinds, List.mem_cons, List.not_mem_nil, or_false] at h
  rcases h with h | h <;> simp only [Operator.unary, h]
  · exact .inl ⟨_, rfl, fun _ => trivial⟩
  · split
    · exact .inl ⟨_, rfl, fun _ => trivial⟩
    · exact .inr ⟨_, rfl⟩

/-- An operator gives a value that is no object, or an error. -/
theorem keeps_ofExcept {result : Except Signal Value} (hm : m.store.Sound)
    (h : (∃ v, result = .ok v ∧ ∀ s : Store, s.Holds v) ∨ ∃ e, result = .error (.error e)) :
    Keeps (ofExcept result) m R O fun v m' => m.Leads m' Store.nothing ∧ m'.store.Holds v := by
  rcases h with ⟨v, rfl, hv⟩ | ⟨e, rfl⟩
  · exact keeps_of_ok rfl (Leads.refl hm) ⟨Leads.refl hm, hv _⟩
  · exact keeps_of_error hm rfl trivial

/-- A function is closed over the scopes in which it is declared, its own name among them. -/
theorem keeps_declareFunction {name : Token} {params : List Token} {body : List Node}
    (h : m.Running site) (hname : name.IsName) (hparams : ∀ param ∈ params, param.IsName)
    (hbody : Node.ScopedAll ((site.declare name.lexeme).body .function params) body) :
    Keeps (declareFunction name (.function name params body)) m R O fun _ m' =>
      m.Leads m' (· = name.lexeme) := by
  let f : Closure := ⟨.function name params body, m.environment, false⟩
  let s₁ := (m.store.newFunction f).2
  let s₂ := s₁.define m.environment name.lexeme (.function m.store.functions.size)
  have hgrows₁ : m.store.Grows s₁ m.environment Store.nothing := Store.grows_newFunction _ _ _
  have hgrows₂ : s₁.Grows s₂ m.environment (· = name.lexeme) :=
    Store.grows_define hname.ne_this hname.ne_super _ _ _
  have hgrows : m.store.Grows s₂ m.environment (· = name.lexeme) :=
    (hgrows₁.trans hgrows₂).congr fun x => by simp [Store.nothing]
  have hcallable : s₂.Callable f :=
    ⟨site.declare name.lexeme, .function, name, params, body, _, rfl, hparams, by decide, rfl,
      h.covers.declare hgrows, hbody, by simp [f]⟩
  have hclosure : s₂.closure? m.store.functions.size = some f := by
    refine hgrows₂.closures _ _ ?_
    rw [Store.closure?_newFunction, if_pos rfl]
  have hsound₁ : s₁.Sound := h.sound.newFunction h.lt fun v hv => by
    rw [h.ordinary.1] at hv
    cases hv
  have hsound : s₂.Sound :=
    hsound₁.define ⟨f, hclosure, hcallable⟩ hname.ne_this hname.ne_super
  have hstart : declareFunction name (.function name params body) m =
      .ok () { m with store := s₂ } := by
    show define name (.function m.store.functions.size) { m with store := s₁ } = _
    rw [define, checkToken_eq hname.present]
    rfl
  exact keeps_of_ok hstart ⟨rfl, hsound, hgrows⟩ ⟨rfl, hsound, hgrows⟩

/-- One method is closed over the scopes of its class but for the one that holds the receiver. -/
theorem unbound_newFunction {s : Store} {inner : Nat} {scopes : List (List String)} {name : Token}
    {params : List Token} {body : List Node} (hscopes : site.scopes = ["this"] :: scopes)
    (hcovers : s.Covers scopes inner) (hparams : ∀ param ∈ params, param.IsName)
    (hbody : Node.ScopedAll (site.body (Resolver.methodContext name) params) body)
    (isInitializer : Bool) :
    (s.newFunction ⟨.function name params body, inner, isInitializer⟩).2.Unbound
      ⟨.function name params body, inner, isInitializer⟩ := by
  have hkind : Resolver.methodContext name ≠ .none := by
    unfold Resolver.methodContext
    split <;> decide
  exact ⟨site, _, name, params, body, scopes, rfl, hparams, hkind, hscopes,
    hcovers.grows (Store.grows_newFunction s 0 _), hbody,
    fun _ => ⟨["this"], by simp [hscopes], by simp⟩⟩

/-- The methods are there, and closed over the environment of their class. -/
def MethodsOver (s : Store) (inner : Nat) (table : Table Nat) : Prop :=
  ∀ x k, table.get? x = some k →
    ∃ f, s.closure? k = some f ∧ s.Unbound f ∧ f.environment = inner

theorem makeMethods_spec {inner : Nat} {scopes : List (List String)}
    (hscopes : site.scopes = ["this"] :: scopes) (declarations : List Node) :
    ∀ (table : Table Nat) (m : Machine), Node.ScopedMethods site declarations → m.store.Sound →
      m.store.Covers scopes inner → inner < m.store.environments.size →
      (m.store.environment inner).bindings.get? "this" = none → MethodsOver m.store inner table →
      ∃ table' s', makeMethods inner declarations table m = .ok table' { m with store := s' } ∧
        s'.Sound ∧ (∀ env, m.store.Grows s' env Store.nothing) ∧
        (∀ cls, s'.class? cls = m.store.class? cls) ∧ MethodsOver s' inner table' := by
  induction declarations with
  | nil =>
    intro table m _ hm _ _ _ htable
    exact ⟨table, m.store, rfl, hm, fun _ => .refl _ _, fun _ => rfl, htable⟩
  | cons declaration rest ih =>
    intro table m hmethods hm hcovers hlt hthis htable
    cases declaration with
    | function name params body =>
      obtain ⟨⟨hname, hparams, hbody⟩, hrest⟩ := hmethods
      let f : Closure := ⟨.function name params body, inner, decide (name.lexeme = "init")⟩
      have hgrows : ∀ env, m.store.Grows (m.store.newFunction f).2 env Store.nothing :=
        fun env => Store.grows_newFunction _ env f
      have hunbound := unbound_newFunction hscopes hcovers hparams hbody
        (decide (name.lexeme = "init"))
      have htable₁ : MethodsOver (m.store.newFunction f).2 inner
          (table.insert name.lexeme m.store.functions.size) := by
        intro x k hk
        rw [Table.get?_insert] at hk
        split at hk
        · cases hk
          exact ⟨f, by rw [Store.closure?_newFunction, if_pos rfl], hunbound, rfl⟩
        · obtain ⟨g, hg, hclosed, henv⟩ := htable x k hk
          exact ⟨g, (hgrows 0).closures k g hg, Store.Closes.grows (hgrows 0) hclosed, henv⟩
      have hsound₁ : (m.store.newFunction f).2.Sound := hm.newFunction hlt fun v hv => by
        rw [hthis] at hv
        cases hv
      obtain ⟨table', s', hrun, hsound, hgrows', hclasses, htable'⟩ := ih _
        { m with store := (m.store.newFunction f).2 } hrest hsound₁
        (hcovers.grows (hgrows 0)) hlt hthis htable₁
      have hmethod : methodName (.function name params body) m = .ok name.lexeme m := by
        simp only [methodName, Node.name?, checkToken_eq hname.present]
        rfl
      refine ⟨table', s', (bind_ok hmethod).trans hrun, hsound, fun env => ?_, hclasses, htable'⟩
      exact ((hgrows env).trans (hgrows' env)).congr fun x => by simp [Store.nothing]
    | _ => exact hmethods.elim

/-- The environment of a class's methods holds its superclass, and is new if there is one. -/
structure MethodFrame (s s' : Store) (parent : Option Nat) (inner : Nat) : Prop where
  lt : inner < s'.environments.size
  this : (s'.environment inner).bindings.get? "this" = none
  super : (s'.environment inner).bindings.get? "super" = parent.map .cls
  fresh : parent = none ∨ s.environments.size ≤ inner
  classes : ∀ cls, s'.class? cls = s.class? cls

/-- The environment of a class's methods covers the scopes around the one of the receiver. -/
theorem methodEnvironment_spec {parent : Option Nat} {superclass : Option Node}
    (hparent : parent.isSome = superclass.isSome) (h : m.Running site) :
    ∃ inner s' scopes, methodEnvironment parent m = .ok inner { m with store := s' } ∧
      s'.Sound ∧ (∀ env, m.store.Grows s' env Store.nothing) ∧
      (site.methods superclass).scopes = ["this"] :: scopes ∧ s'.Covers scopes inner ∧
      MethodFrame m.store s' parent inner := by
  cases parent with
  | none =>
    cases superclass with
    | some _ => simp at hparent
    | none =>
      exact ⟨m.environment, m.store, site.scopes, rfl, h.sound, fun _ => .refl _ _, rfl, h.covers,
        h.lt, h.ordinary.1, h.ordinary.2, .inl rfl, fun _ => rfl⟩
  | some id =>
    cases superclass with
    | none => simp at hparent
    | some _ =>
      let e : Environment := ⟨Table.empty.insert "super" (.cls id), some m.environment⟩
      have henv : (m.store.newEnvironment e).2.environment m.store.environments.size = e := by
        rw [Store.environment_newEnvironment, if_pos rfl]
      refine ⟨m.store.environments.size, (m.store.newEnvironment e).2, ["super"] :: site.scopes,
        rfl, ?_, fun env => Store.grows_newEnvironment _ env e, rfl,
        h.covers.newEnvironment rfl (by simp [e]) (by simp [e, Table.contains]),
        by simp [Store.newEnvironment], by simp [henv, e], by simp [henv, e], .inr le_rfl,
        fun _ => rfl⟩
      refine h.sound.newEnvironment (fun x v hv => ?_) (fun v hv => ?_)
        (h.sound.framed.newEnvironment h.sound.globals (by simp [e]))
      · simp only [e, Table.get?_insert, Table.get?_empty] at hv
        split at hv <;> cases hv
        trivial
      · simp only [e, Table.get?_insert, if_true, Option.some.injEq] at hv
        exact ⟨id, hv.symm⟩

/-- A class can be made of methods that are closed over its environment. -/
theorem framed_newClass {s s₁ s₂ : Store} {parent : Option Nat} {inner : Nat} {name : String}
    {table : Table Nat} (hs : s.Framed) (hframe : MethodFrame s s₁ parent inner)
    (hstable : s.Stable s₁) (hs₂ : s₂.Framed) (hstable₂ : s₁.Stable s₂)
    (hclasses : ∀ cls, s₂.class? cls = s₁.class? cls) (htable : MethodsOver s₂ inner table) :
    (s₂.newClass ⟨name, parent, table⟩).2.Framed := by
  refine hs₂.newClass inner (fun x k hk => ?_) ?_ fun cls f hf henv => ?_
  · obtain ⟨f, hf, -, henv⟩ := htable x k hk
    exact ⟨f, hf, henv⟩
  · rw [hstable₂.super inner hframe.lt, hframe.super]
  · have hold : s.OwnMethod cls f := hf.earlier hs (hstable.trans hstable₂)
      ((hclasses cls).trans (hframe.classes cls))
    have hlt := hold.lt hs
    rcases hframe.fresh with hnone | hle
    · exact hnone
    · omega

theorem assignNearest_eq {name : Token} {v : Value} {found : Nat}
    (h : m.store.holder m.environment name = .ok found) :
    assignNearest name v m =
      .ok () { m with store := m.store.define found name.lexeme v } := by
  rw [assignNearest, h]

theorem keeps_declareClass {name : Token} {parent : Option Nat} {superclass : Option Node}
    {declarations : List Node} (h : m.Running site) (hsite : site.initializing = none)
    (hname : name.IsName) (hparent : parent.isSome = superclass.isSome)
    (hmethods : Node.ScopedMethods ((site.declare name.lexeme).methods superclass) declarations) :
    Keeps (declareClass name parent declarations) m R O fun _ m' =>
      m.Leads m' (· = name.lexeme) := by
  refine (keeps_define h hname (show m.store.Holds .nil from trivial)).bind fun _ m₁ _ hm₁ _ => ?_
  have hrun := h.declare hsite hm₁
  obtain ⟨inner, s₂, scopes, hinner, hsound₂, hgrows₂, hscopes, hcovers, hframe⟩ :=
    methodEnvironment_spec hparent hrun
  obtain ⟨table, s₃, hmake, hsound₃, hgrows₃, hclasses, htable⟩ :=
    makeMethods_spec hscopes declarations .empty { m₁ with store := s₂, environment := inner }
      hmethods hsound₂ hcovers hframe.lt hframe.this (by simp [MethodsOver])
  let c : Class := ⟨name.lexeme, parent, table⟩
  let s₄ := (s₃.newClass c).2
  have hsound₄ : s₄.Sound := by
    refine hsound₃.newClass (fun x k hk => ?_) (framed_newClass hrun.sound.framed hframe
      (hgrows₂ 0).toStable hsound₃.framed (hgrows₃ 0).toStable hclasses htable)
    obtain ⟨f, hf, hunbound, -⟩ := htable x k hk
    exact ⟨f, hf, hunbound⟩
  have hgrows₄ : m₁.store.Grows s₄ m₁.environment Store.nothing :=
    (((hgrows₂ _).trans (hgrows₃ _)).trans (Store.grows_newClass s₃ _ c)).congr fun x => by
      simp [Store.nothing]
  have hhas : s₄.Has m₁.environment name.lexeme := by
    rw [hgrows₄.has _ hrun.lt, hm₁.environment, hm₁.grows.has _ h.lt]
    exact .inl (.inr ⟨rfl, rfl⟩)
  have hmade : m₁.Leads { m₁ with store := s₄ } Store.nothing := ⟨rfl, hsound₄, hgrows₄⟩
  have hlast : m₁.Leads { m₁ with
      store := s₄.define m₁.environment name.lexeme (.cls s₃.classes.size) } Store.nothing :=
    hmade.then
      (leads_store hsound₄ hname (show s₄.Holds (.cls s₃.classes.size) from trivial) hhas)
  have hrest : (do
      let outer := (← get).environment
      let inner ← methodEnvironment parent
      enter inner
      let methods ← makeMethods inner declarations .empty
      enter outer
      let id ← alloc (·.newClass ⟨name.lexeme, parent, methods⟩)
      assignNearest name (.cls id) : Eval Unit) m₁ = .ok () { m₁ with
        store := s₄.define m₁.environment name.lexeme (.cls s₃.classes.size) } := by
    refine (bind_ok (c := get) (a := m₁) rfl).trans ((bind_ok hinner).trans ?_)
    refine (bind_ok (c := enter inner) rfl).trans ((bind_ok hmake).trans ?_)
    exact assignNearest_eq (m := { m₁ with store := s₄ }) (Store.holder_of_has hhas)
  exact keeps_of_ok hrest hlast ((hm₁.trans hlast).congr fun x => by simp [Store.nothing])

/-! ## References -/

/-- A reference that is global, or has the distance of a scope that binds its name. -/
def Located (site : Site) (r : Reference) : Prop :=
  r.hops = none ∨ ∃ hops, r.hops = some hops ∧ Site.Binds site.scopes hops r.name.lexeme

theorem located_of_hopsTo? {r : Reference}
    (h : r.hops = Site.hopsTo? r.name.lexeme site.scopes) : Located site r := by
  rcases hhops : Site.hopsTo? r.name.lexeme site.scopes with _ | hops
  · exact .inl (h.trans hhops)
  · exact .inr ⟨hops, h.trans hhops, Site.binds_of_hopsTo? hhops⟩

theorem assign_eq (mode : Mode) (m : Machine) {target : Reference} (v : Value)
    (hname : target.name.isMissing = false) :
    assign mode target v m = (match holder mode target m with
      | .ok found => .ok () { m with store := m.store.define found target.name.lexeme v }
      | .error signal => .error signal m) := by
  rw [assign, checkToken_eq hname]
  rfl

variable {mode : Mode} (hmode : mode.byDistance = true)

include hmode

theorem hops_eq (r : Reference) : mode.hops r = r.hops := by
  simp [Mode.hops, hmode]

theorem lookup_eq {r : Reference} (hname : r.name.isMissing = false) :
    lookup mode r m = (match r.hops with
      | some hops => getAt hops r.name.lexeme
      | none => fun m =>
        match m.store.get Store.globals r.name with
        | .ok value => .ok value m
        | .error e => .error (.error e) m : Eval Value) m := by
  rw [lookup, checkToken_eq hname, hops_eq hmode]
  rfl

/-- A lookup finds its name, or is of a global that is not defined. -/
theorem keeps_lookup {r : Reference} (h : m.Running site) (hname : r.name.isMissing = false)
    (hr : Located site r) :
    Keeps (lookup mode r) m R O fun v m' => m.Leads m' Store.nothing ∧ m'.store.Holds v := by
  have hkeep : ∀ v, m.store.Holds v → m.Leads m Store.nothing ∧ m.store.Holds v :=
    fun v hv => ⟨Leads.refl h.sound, hv⟩
  have hstart := lookup_eq (m := m) hmode hname
  rcases hr with hglobal | ⟨hops, hlocal, hbinds⟩
  · rw [hglobal] at hstart
    rcases hget : m.store.get Store.globals r.name with e | v
    · simp only [hget] at hstart
      exact keeps_of_error h.sound hstart trivial
    · simp only [hget] at hstart
      refine keeps_of_ok hstart (Leads.refl h.sound) (hkeep v ?_)
      rw [Store.get] at hget
      split at hget
      · rename_i found hfound
        cases hget
        obtain ⟨env, -, henv⟩ := Option.bind_eq_some_iff.1 hfound
        exact h.sound.bindings env _ v henv
      · cases hget
  · rw [hlocal] at hstart
    obtain ⟨found, v, -, hget, hbinding⟩ := h.covers.getAt hbinds
    simp only [getAt, hget] at hstart
    exact keeps_of_ok hstart (Leads.refl h.sound)
      (hkeep v (h.sound.bindings found _ v hbinding))

/-- A variable is not bound yet while its own initializer is running. -/
theorem assign_own {target : Reference} {v : Value} (h : m.Running site)
    (hname : target.name.isMissing = false) (hassigns : site.Assigns target)
    (hown : site.initializing = some target.name.lexeme) :
    assign mode target v m = .error (.fault (.unbound target.name.lexeme)) m := by
  obtain ⟨names, hnames, hfree⟩ := h.pending _ hown
  have hhas : ¬ m.store.Has m.environment target.name.lexeme :=
    fun hhas => hfree (h.exact names hnames _ hhas)
  have hhops : target.hops = some 0 := by
    rw [hassigns, Site.hops, if_pos hown]
  have hcontains : (m.store.environment m.environment).bindings.contains target.name.lexeme =
      false := by
    simpa [Store.Has] using hhas
  rw [assign_eq mode m v hname]
  simp only [holder, hops_eq hmode, hhops, Store.holderAt, Store.environmentAt, Store.ancestor,
    hcontains, Bool.false_eq_true, if_false]
  rfl

theorem keeps_assign {target : Reference} {v : Value} (h : m.Running site)
    (hname : target.name.IsName) (hassigns : site.Assigns target) (hv : m.store.Holds v)
    (hown : site.initializing = some target.name.lexeme → O (.unbound target.name.lexeme)) :
    Keeps (assign mode target v) m R O fun _ m' => m.Leads m' Store.nothing := by
  by_cases hpending : site.initializing = some target.name.lexeme
  · exact keeps_of_error h.sound (assign_own hmode h hname.present hassigns hpending)
      (hown hpending)
  have hhops : target.hops = Site.hopsTo? target.name.lexeme site.scopes := by
    rw [hassigns, Site.hops, if_neg hpending]
  have hstart := assign_eq mode m v hname.present
  rcases located_of_hopsTo? hhops with hglobal | ⟨hops, hlocal, hbinds⟩
  · simp only [holder, hops_eq hmode, hglobal, Store.holder] at hstart
    rcases hfind : m.store.find? Store.globals target.name.lexeme with _ | found
    · rw [hfind] at hstart
      exact keeps_of_error h.sound hstart trivial
    · rw [hfind] at hstart
      have hleads := leads_store h.sound hname hv (Store.has_of_findWithin hfind)
      exact keeps_of_ok hstart hleads hleads
  · obtain ⟨found, hfound, hhas⟩ := h.covers.holderAt hbinds
    simp only [holder, hops_eq hmode, hlocal, hfound] at hstart
    have hleads := leads_store h.sound hname hv hhas
    exact keeps_of_ok hstart hleads hleads

theorem superMethod_eq {keyword : Reference} {method : Token} {hops id : Nat} {receiver : Value}
    (hmethod : method.isMissing = false) (hkeyword : keyword.hops = some (hops + 1))
    (hparent : m.store.getAt (hops + 1) m.environment "super" = .ok (.cls id))
    (hreceiver : m.store.getAt hops m.environment "this" = .ok receiver) :
    superMethod mode keyword method m =
      (match m.store.method? id method.lexeme with
        | some f => do return .function (← alloc (·.bind f receiver))
        | none => fail method (.undefinedProperty method.lexeme) : Eval Value) m := by
  have hget : getAt (hops + 1) "super" m = .ok (.cls id) m := by simp only [getAt, hparent]
  have hget' : getAt (hops + 1 - 1) "this" m = .ok receiver m := by
    simp only [getAt, Nat.add_sub_cancel, hreceiver]
  rw [superMethod, hops_eq hmode, hkeyword]
  refine (bind_ok hget).trans ((bind_ok hget').trans ?_)
  simp only [checkToken_eq hmethod]
  rfl

/-- `super` is found one environment outside `this`, and is the superclass of the class whose
method the code is inside. -/
theorem keeps_superMethod {keyword : Reference} {method : Token} {hops : Nat} (h : m.Running site)
    (hmethod : method.isMissing = false) (hkeyword : keyword.hops = some (hops + 1))
    (hsuper : Site.Binds site.scopes (hops + 1) "super")
    (hthis : Site.hopsTo? "this" site.scopes = some hops) :
    Keeps (superMethod mode keyword method) m R O fun v m' =>
      m.Leads m' Store.nothing ∧ m'.store.Holds v := by
  obtain ⟨inst, cls, hinside, hreceiver, hframe⟩ := h.covers.inside h.sound.framed hthis
  obtain ⟨found, parent, hfound, hparent, hbinding⟩ := h.covers.getAt hsuper
  obtain ⟨id, hextends, rfl⟩ := hframe found parent hfound hbinding
  obtain ⟨i, hi, hisA⟩ := hinside.isA
  have hstart := superMethod_eq hmode hmethod hkeyword hparent hreceiver
  rcases hfind : m.store.method? id method.lexeme with _ | f <;> rw [hfind] at hstart
  · have hfail : Keeps (fail method (.undefinedProperty method.lexeme) : Eval Value) m R O
        fun v m' => m.Leads m' Store.nothing ∧ m'.store.Holds v := keeps_fail h.sound hmethod
    rw [Keeps, hstart]
    exact hfail
  · obtain ⟨hsound, hgrows, hholds⟩ := Store.bind_spec m.environment h.sound (h.sound.method? hfind)
      (Store.exists_ownMethod hi (hisA.tail hextends) hfind)
    exact keeps_of_ok hstart ⟨rfl, hsound, hgrows⟩ ⟨⟨rfl, hsound, hgrows⟩, hholds⟩

end Eval

end Lox
