import Mathlib.Tactic
import Lox.Store.Lemmas

/-!
# Regions of a store

Objects hold one another: an environment what is bound in it and the environment around it, a
function its environment, a class its methods and its superclass, an instance its class and its
fields. A region is closed when it holds all that its objects hold, and everything that was made
since counts as in it. The operations of the store keep a region closed, as long as they are given
objects of the region, and change nothing that is outside of it (`Region.Confined`).
-/

namespace Lox

/-- An object of a store that can hold others. -/
inductive Object where
  | environment (id : Nat)
  | function (id : Nat)
  | cls (id : Nat)
  | inst (id : Nat)

def Value.object? : Value → Option Object
  | .function id => some (.function id)
  | .cls id => some (.cls id)
  | .inst id => some (.inst id)
  | _ => none

namespace Store

/-- The instance, or the default where there is none. -/
def instanceAt (s : Store) (id : Nat) : Instance := (s.instance? id).getD default

/-- The first object holds the second. -/
inductive Links (s : Store) : Object → Object → Prop
  | enclosing {env outer : Nat} : (s.environment env).enclosing = some outer →
    Links s (.environment env) (.environment outer)
  | binding {env : Nat} {name : String} {v : Value} {o : Object} :
    (s.environment env).bindings.get? name = some v → v.object? = some o →
    Links s (.environment env) o
  | closure {id : Nat} {f : Closure} : s.closure? id = some f →
    Links s (.function id) (.environment f.environment)
  | superclass {id parent : Nat} {c : Class} : s.class? id = some c → c.superclass = some parent →
    Links s (.cls id) (.cls parent)
  | method {id k : Nat} {c : Class} {name : String} : s.class? id = some c →
    c.methods.get? name = some k → Links s (.cls id) (.function k)
  | cls {id : Nat} : Links s (.inst id) (.cls (s.instanceAt id).cls)
  | field {id : Nat} {name : String} {v : Value} {o : Object} :
    (s.instanceAt id).fields.get? name = some v → v.object? = some o → Links s (.inst id) o

/-- The object is held by one of the roots, through any number of others. -/
def Reaches (s : Store) (roots : Object → Prop) (o : Object) : Prop :=
  ∃ root, roots root ∧ Relation.ReflTransGen s.Links root o

/-- The object is in the store. -/
def Made (s : Store) : Object → Prop
  | .environment id => id < s.environments.size
  | .function id => id < s.functions.size
  | .cls id => id < s.classes.size
  | .inst id => id < s.instances.size

/-- All objects of the one store are in the other. -/
def Grown (s s' : Store) : Prop := ∀ o, s.Made o → s'.Made o

end Store

/-- Some of the objects of a store as it once was. -/
structure Region where
  before : Store
  objects : Object → Prop

namespace Region

variable {g : Region} {s s' : Store}

/-- The object is one of the region, or was made since. -/
def Inside (g : Region) (s : Store) (o : Object) : Prop :=
  g.objects o ∨ ¬ g.before.Made o ∧ s.Made o

/-- The value is no object, or one inside. -/
def Knows (g : Region) (s : Store) (v : Value) : Prop := ∀ o, v.object? = some o → g.Inside s o

structure EnvironmentInside (g : Region) (s : Store) (e : Environment) : Prop where
  enclosing : ∀ outer, e.enclosing = some outer → g.Inside s (.environment outer)
  bindings : ∀ name v, e.bindings.get? name = some v → g.Knows s v

structure ClassInside (g : Region) (s : Store) (c : Class) : Prop where
  superclass : ∀ parent, c.superclass = some parent → g.Inside s (.cls parent)
  methods : ∀ name k, c.methods.get? name = some k → g.Inside s (.function k)

structure InstanceInside (g : Region) (s : Store) (i : Instance) : Prop where
  cls : g.Inside s (.cls i.cls)
  fields : ∀ name v, i.fields.get? name = some v → g.Knows s v

/-- The store has come from the one before by changes inside the region, which is closed. -/
structure Confined (g : Region) (s : Store) : Prop where
  grown : g.before.Grown s
  globals : g.objects (.environment Store.globals)
  environments : ∀ id, g.Inside s (.environment id) → g.EnvironmentInside s (s.environment id)
  functions : ∀ id f, g.Inside s (.function id) → s.closure? id = some f →
    g.Inside s (.environment f.environment)
  classes : ∀ id c, g.Inside s (.cls id) → s.class? id = some c → g.ClassInside s c
  instances : ∀ id, g.Inside s (.inst id) → g.InstanceInside s (s.instanceAt id)
  otherEnvironments : ∀ id, g.before.Made (.environment id) → ¬ g.objects (.environment id) →
    s.environment id = g.before.environment id
  otherInstances : ∀ id, g.before.Made (.inst id) → ¬ g.objects (.inst id) →
    s.instance? id = g.before.instance? id

/-! ## Growth -/

theorem Inside.grown {o : Object} (h : g.Inside s o) (hgrown : s.Grown s') : g.Inside s' o :=
  h.imp_right fun ⟨hnew, hmade⟩ => ⟨hnew, hgrown o hmade⟩

theorem Knows.grown {v : Value} (h : g.Knows s v) (hgrown : s.Grown s') : g.Knows s' v :=
  fun o ho => (h o ho).grown hgrown

theorem EnvironmentInside.grown {e : Environment} (h : g.EnvironmentInside s e)
    (hgrown : s.Grown s') : g.EnvironmentInside s' e :=
  ⟨fun outer houter => (h.enclosing outer houter).grown hgrown,
    fun name v hv => (h.bindings name v hv).grown hgrown⟩

theorem ClassInside.grown {c : Class} (h : g.ClassInside s c) (hgrown : s.Grown s') :
    g.ClassInside s' c :=
  ⟨fun parent hparent => (h.superclass parent hparent).grown hgrown,
    fun name k hk => (h.methods name k hk).grown hgrown⟩

theorem InstanceInside.grown {i : Instance} (h : g.InstanceInside s i) (hgrown : s.Grown s') :
    g.InstanceInside s' i :=
  ⟨h.cls.grown hgrown, fun name v hv => (h.fields name v hv).grown hgrown⟩

/-! ## New objects -/

variable (h : g.Confined s)
include h

theorem Confined.not_before {o : Object} (hnew : ¬ s.Made o) : ¬ g.before.Made o :=
  fun hbefore => hnew (h.grown o hbefore)

theorem Confined.newEnvironment {e : Environment} (he : g.EnvironmentInside s e) :
    g.Confined (s.newEnvironment e).2 ∧ s.Grown (s.newEnvironment e).2 ∧
      g.Inside (s.newEnvironment e).2 (.environment (s.newEnvironment e).1) := by
  have hgrown : s.Grown (s.newEnvironment e).2 := by
    rintro (id | id | id | id) hmade
    · exact lt_of_lt_of_le hmade (by simp [Store.newEnvironment])
    all_goals exact hmade
  have hnew : g.Inside (s.newEnvironment e).2 (.environment (s.newEnvironment e).1) :=
    .inr ⟨h.not_before (lt_irrefl _), by simp [Store.newEnvironment, Store.Made]⟩
  refine ⟨⟨fun o ho => hgrown o (h.grown o ho), h.globals, fun id hid => ?_, fun id f hid hf => ?_,
    fun id c hid hc => ?_, fun id hid => ?_, fun id hbefore hother => ?_, h.otherInstances⟩, hgrown,
    hnew⟩
  · rw [Store.environment_newEnvironment]
    split
    · exact he.grown hgrown
    · rename_i hne
      refine (h.environments id (hid.imp_right fun ⟨hbefore, hmade⟩ => ⟨hbefore, ?_⟩)).grown hgrown
      have hlt : id < s.environments.size + 1 := by
        simpa [Store.newEnvironment, Store.Made] using hmade
      exact show id < s.environments.size by omega
  · exact (h.functions id f hid hf).grown hgrown
  · exact (h.classes id c hid hc).grown hgrown
  · exact (h.instances id hid).grown hgrown
  · have hlt : id < s.environments.size := h.grown _ hbefore
    rw [Store.environment_newEnvironment, if_neg (by omega)]
    exact h.otherEnvironments id hbefore hother

theorem Confined.newFunction {f : Closure} (hf : g.Inside s (.environment f.environment)) :
    g.Confined (s.newFunction f).2 ∧ s.Grown (s.newFunction f).2 ∧
      g.Inside (s.newFunction f).2 (.function (s.newFunction f).1) := by
  have hgrown : s.Grown (s.newFunction f).2 := by
    rintro (id | id | id | id) hmade
    · exact hmade
    · exact lt_of_lt_of_le hmade (by simp [Store.newFunction])
    all_goals exact hmade
  have hnew : g.Inside (s.newFunction f).2 (.function (s.newFunction f).1) :=
    .inr ⟨h.not_before (lt_irrefl _), by simp [Store.newFunction, Store.Made]⟩
  refine ⟨⟨fun o ho => hgrown o (h.grown o ho), h.globals, fun id hid => ?_,
    fun id f' hid hf' => ?_, fun id c hid hc => ?_, fun id hid => ?_, h.otherEnvironments,
    h.otherInstances⟩, hgrown, hnew⟩
  · exact (h.environments id hid).grown hgrown
  · rw [Store.closure?_newFunction] at hf'
    split at hf'
    · cases hf'
      exact hf.grown hgrown
    · have hlt : id < s.functions.size := (Array.getElem?_eq_some_iff.1 hf').1
      exact (h.functions id f' (hid.imp_right fun hnew => ⟨hnew.1, hlt⟩) hf').grown hgrown
  · exact (h.classes id c hid hc).grown hgrown
  · exact (h.instances id hid).grown hgrown

theorem Confined.newClass {c : Class} (hc : g.ClassInside s c) :
    g.Confined (s.newClass c).2 ∧ s.Grown (s.newClass c).2 ∧
      g.Inside (s.newClass c).2 (.cls (s.newClass c).1) := by
  have hgrown : s.Grown (s.newClass c).2 := by
    rintro (id | id | id | id) hmade
    · exact hmade
    · exact hmade
    · exact lt_of_lt_of_le hmade (by simp [Store.newClass])
    · exact hmade
  have hnew : g.Inside (s.newClass c).2 (.cls (s.newClass c).1) :=
    .inr ⟨h.not_before (lt_irrefl _), by simp [Store.newClass, Store.Made]⟩
  refine ⟨⟨fun o ho => hgrown o (h.grown o ho), h.globals, fun id hid => ?_, fun id f hid hf => ?_,
    fun id c' hid hc' => ?_, fun id hid => ?_, h.otherEnvironments, h.otherInstances⟩, hgrown, hnew⟩
  · exact (h.environments id hid).grown hgrown
  · exact (h.functions id f hid hf).grown hgrown
  · rw [Store.class?_newClass] at hc'
    split at hc'
    · cases hc'
      exact hc.grown hgrown
    · have hlt : id < s.classes.size := (Array.getElem?_eq_some_iff.1 hc').1
      exact (h.classes id c' (hid.imp_right fun hnew => ⟨hnew.1, hlt⟩) hc').grown hgrown
  · exact (h.instances id hid).grown hgrown

theorem Confined.newInstance {i : Instance} (hi : g.InstanceInside s i) :
    g.Confined (s.newInstance i).2 ∧ s.Grown (s.newInstance i).2 ∧
      g.Inside (s.newInstance i).2 (.inst (s.newInstance i).1) := by
  have hgrown : s.Grown (s.newInstance i).2 := by
    rintro (id | id | id | id) hmade
    · exact hmade
    · exact hmade
    · exact hmade
    · exact lt_of_lt_of_le hmade (by simp [Store.newInstance])
  have hnew : g.Inside (s.newInstance i).2 (.inst (s.newInstance i).1) :=
    .inr ⟨h.not_before (lt_irrefl _), by simp [Store.newInstance, Store.Made]⟩
  refine ⟨⟨fun o ho => hgrown o (h.grown o ho), h.globals, fun id hid => ?_, fun id f hid hf => ?_,
    fun id c hid hc => ?_, fun id hid => ?_, h.otherEnvironments, fun id hbefore hother => ?_⟩,
    hgrown, hnew⟩
  · exact (h.environments id hid).grown hgrown
  · exact (h.functions id f hid hf).grown hgrown
  · exact (h.classes id c hid hc).grown hgrown
  · rw [Store.instanceAt, Store.instance?_newInstance]
    split
    · exact hi.grown hgrown
    · rename_i hne
      refine (h.instances id (hid.imp_right fun hmade => ⟨hmade.1, ?_⟩)).grown hgrown
      have hlt : id < s.instances.size + 1 := by
        simpa [Store.newInstance, Store.Made] using hmade.2
      exact show id < s.instances.size by omega
  · have hlt : id < s.instances.size := h.grown _ hbefore
    rw [Store.instance?_newInstance, if_neg (by omega)]
    exact h.otherInstances id hbefore hother

theorem Confined.bind {f : Closure} {receiver : Value}
    (hf : g.Inside s (.environment f.environment)) (hreceiver : g.Knows s receiver) :
    g.Confined (s.bind f receiver).2 ∧ s.Grown (s.bind f receiver).2 ∧
      g.Inside (s.bind f receiver).2 (.function (s.bind f receiver).1) := by
  have he : g.EnvironmentInside s ⟨Table.empty.insert "this" receiver, some f.environment⟩ := by
    refine ⟨fun outer houter => ?_, fun name v hv => ?_⟩
    · cases houter
      exact hf
    · rw [Table.get?_insert] at hv
      split at hv
      · cases hv
        exact hreceiver
      · cases hv
  obtain ⟨hconfined, hgrown, hnew⟩ := h.newEnvironment he
  obtain ⟨hconfined', hgrown', hnew'⟩ := hconfined.newFunction
    (show g.Inside _ (.environment ({ f with environment := _ } : Closure).environment) from hnew)
  exact ⟨hconfined', fun o ho => hgrown' o (hgrown o ho), hnew'⟩

/-! ## Changes -/

theorem Confined.define {env : Nat} {v : Value} (name : String)
    (henv : g.Inside s (.environment env)) (hv : g.Knows s v) :
    g.Confined (s.define env name v) ∧ s.Grown (s.define env name v) := by
  have hgrown : s.Grown (s.define env name v) := by
    rintro (id | id | id | id) hmade
    · exact lt_of_lt_of_eq hmade (Store.size_define s env name v).symm
    all_goals exact hmade
  have hinside : ∀ id, g.Inside (s.define env name v) (.environment id) →
      g.Inside s (.environment id) := by
    intro id hid
    exact hid.imp_right fun ⟨hbefore, hmade⟩ =>
      ⟨hbefore, lt_of_lt_of_eq hmade (Store.size_define s env name v)⟩
  refine ⟨⟨fun o ho => hgrown o (h.grown o ho), h.globals, fun id hid => ?_, fun id f hid hf => ?_,
    fun id c hid hc => ?_, fun id hid => ?_, fun id hbefore hother => ?_, h.otherInstances⟩, hgrown⟩
  · have hold := (h.environments id (hinside id hid)).grown hgrown
    refine ⟨fun outer houter => hold.enclosing outer ?_, fun other w hw => ?_⟩
    · rwa [Store.enclosing_define] at houter
    · rw [Store.environment_define] at hw
      split at hw
      · rw [Table.get?_insert] at hw
        split at hw
        · cases hw
          exact hv.grown hgrown
        · exact hold.bindings other w hw
      · exact hold.bindings other w hw
  · exact (h.functions id f hid hf).grown hgrown
  · exact (h.classes id c hid hc).grown hgrown
  · exact (h.instances id hid).grown hgrown
  · have hne : ¬ (env = id ∧ id < s.environments.size) := by
      rintro ⟨rfl, -⟩
      exact henv.elim hother fun hnew => hnew.1 hbefore
    rw [Store.environment_define, if_neg hne]
    exact h.otherEnvironments id hbefore hother

theorem Confined.setField {id : Nat} {v : Value} (name : String) (hid : g.Inside s (.inst id))
    (hv : g.Knows s v) :
    g.Confined (s.setField id name v) ∧ s.Grown (s.setField id name v) := by
  have hsize : (s.setField id name v).instances.size = s.instances.size := Array.size_modify
  have hgrown : s.Grown (s.setField id name v) := by
    rintro (k | k | k | k) hmade
    · exact hmade
    · exact hmade
    · exact hmade
    · exact lt_of_lt_of_eq hmade hsize.symm
  refine ⟨⟨fun o ho => hgrown o (h.grown o ho), h.globals, fun k hk => ?_, fun k f hk hf => ?_,
    fun k c hk hc => ?_, fun k hk => ?_, h.otherEnvironments, fun k hbefore hother => ?_⟩, hgrown⟩
  · exact (h.environments k hk).grown hgrown
  · exact (h.functions k f hk hf).grown hgrown
  · exact (h.classes k c hk hc).grown hgrown
  · have hinside : g.Inside s (.inst k) := hk.imp_right fun ⟨hbefore, hmade⟩ =>
      ⟨hbefore, lt_of_lt_of_eq hmade hsize⟩
    have hold := (h.instances k hinside).grown hgrown
    rw [Store.instanceAt] at hold ⊢
    rw [Store.instance?_setField]
    split
    · rcases hi : s.instance? k with _ | i <;> rw [hi] at hold
      · exact hold
      · refine ⟨hold.cls, fun other w hw => ?_⟩
        simp only [Option.map_some, Option.getD_some, Table.get?_insert] at hw
        split at hw
        · cases hw
          exact hv.grown hgrown
        · exact hold.fields other w hw
    · exact hold
  · have hne : id ≠ k := by
      rintro rfl
      exact hid.elim hother fun hnew => hnew.1 hbefore
    rw [Store.instance?_setField, if_neg hne]
    exact h.otherInstances k hbefore hother

/-! ## What is found -/

theorem Confined.ancestor {found : Nat} : ∀ {hops : Nat} {start : Option Nat},
    (∀ env, start = some env → g.Inside s (.environment env)) →
    s.ancestor hops start = .ok (some found) → g.Inside s (.environment found)
  | 0, _, hstart, hfound => hstart found (by simpa [Store.ancestor] using hfound)
  | _ + 1, none, _, hfound => by simp [Store.ancestor] at hfound
  | hops + 1, some env, hstart, hfound =>
    Confined.ancestor ((h.environments env (hstart env rfl)).enclosing) hfound

theorem Confined.environmentAt {hops env found : Nat} (henv : g.Inside s (.environment env))
    (hfound : s.environmentAt hops env = .ok found) : g.Inside s (.environment found) := by
  unfold Store.environmentAt at hfound
  split at hfound
  · cases hfound
  · cases hfound
  · rename_i hancestor
    cases hfound
    exact h.ancestor (fun _ heq => by cases heq; exact henv) hancestor

theorem Confined.holderAt {hops env found : Nat} {name : String}
    (henv : g.Inside s (.environment env)) (hfound : s.holderAt hops env name = .ok found) :
    g.Inside s (.environment found) := by
  unfold Store.holderAt at hfound
  split at hfound
  · cases hfound
  · rename_i henvironment
    split at hfound
    · cases hfound
      exact h.environmentAt henv henvironment
    · cases hfound

theorem Confined.getAt {hops env : Nat} {name : String} {v : Value}
    (henv : g.Inside s (.environment env)) (hv : s.getAt hops env name = .ok v) :
    g.Knows s v := by
  unfold Store.getAt at hv
  split at hv
  · cases hv
  · rename_i found henvironment
    split at hv
    · rename_i hget
      cases hv
      exact (h.environments found (h.environmentAt henv henvironment)).bindings name _ hget
    · cases hv

theorem Confined.findWithin {name : String} {found : Nat} : ∀ {steps env : Nat},
    g.Inside s (.environment env) → s.findWithin name steps env = some found →
    g.Inside s (.environment found)
  | steps + 1, env, henv, hfound => by
    rw [Store.findWithin] at hfound
    split at hfound
    · cases hfound
      exact henv
    · split at hfound
      · cases hfound
      · rename_i outer houter
        exact Confined.findWithin ((h.environments env henv).enclosing outer houter) hfound

theorem Confined.holder {env found : Nat} {name : Token} (henv : g.Inside s (.environment env))
    (hfound : s.holder env name = .ok found) : g.Inside s (.environment found) := by
  unfold Store.holder at hfound
  split at hfound
  · rename_i hfind
    cases hfound
    exact h.findWithin henv hfind
  · cases hfound

theorem Confined.get {env : Nat} {name : Token} {v : Value} (henv : g.Inside s (.environment env))
    (hv : s.get env name = .ok v) : g.Knows s v := by
  unfold Store.get at hv
  split at hv
  · rename_i hbind
    cases hv
    obtain ⟨found, hfind, hget⟩ := Option.bind_eq_some_iff.1 hbind
    exact (h.environments found (h.findWithin henv hfind)).bindings _ _ hget
  · cases hv

theorem Confined.findMethodWithin {name : String} {k : Nat} : ∀ {steps cls : Nat},
    g.Inside s (.cls cls) → s.findMethodWithin name steps cls = some k →
    g.Inside s (.function k)
  | steps + 1, cls, hcls, hk => by
    rw [Store.findMethodWithin] at hk
    split at hk
    · cases hk
    · rename_i c hc
      split at hk
      · rename_i hmethod
        cases hk
        exact (h.classes cls c hcls hc).methods name _ hmethod
      · split at hk
        · cases hk
        · rename_i parent hparent
          exact Confined.findMethodWithin ((h.classes cls c hcls hc).superclass parent hparent) hk

theorem Confined.method? {cls : Nat} {name : String} {f : Closure} (hcls : g.Inside s (.cls cls))
    (hf : s.method? cls name = some f) : g.Inside s (.environment f.environment) := by
  obtain ⟨k, hk, hclosure⟩ := Option.bind_eq_some_iff.1 hf
  exact h.functions k f (h.findMethodWithin hcls hk) hclosure

/-- A property is a value inside, or a method of a class inside. -/
theorem Confined.property {id : Nat} {name : Token} {found : Value ⊕ Closure}
    (hid : g.Inside s (.inst id)) (hfound : s.property id name = .ok found) :
    (∀ v, found = .inl v → g.Knows s v) ∧
      ∀ f, found = .inr f → g.Inside s (.environment f.environment) := by
  have hi := h.instances id hid
  simp only [Store.property] at hfound
  split at hfound
  · rename_i hfield
    cases hfound
    refine ⟨fun v hv => ?_, nofun⟩
    cases hv
    exact hi.fields _ _ hfield
  · split at hfound
    · rename_i hmethod
      cases hfound
      refine ⟨nofun, fun f hf => ?_⟩
      cases hf
      exact h.method? hi.cls hmethod
    · cases hfound

end Region

end Lox
