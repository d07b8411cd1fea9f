import Mathlib.Tactic
import Lox.Store.Lemmas

/-!
# Receivers and the classes that declare their methods

A method is closed over the environment of its class: the one in which the class was declared, or
one inside it that holds the superclass. When it is bound, its receiver gets an environment of its
own inside that one. So the environment of a receiver leads to the class that declared the method:
among the class of the receiver and its superclasses, it is the only one with a method that is
closed over the environment around (`Receives.unique`).

A store is `Framed` when every receiver's environment leads to such a class, and every function that
is closed over it is one of the methods that the class itself declares. Later stores agree with
earlier ones on all that this is said in (`Stable`).
-/

namespace Lox

namespace Store

/-- The second class is the superclass of the first. -/
def Extends (s : Store) (cls parent : Nat) : Prop :=
  ∃ c, s.class? cls = some c ∧ c.superclass = some parent

/-- The second class is the first or among its superclasses. -/
def IsA (s : Store) : Nat → Nat → Prop := Relation.ReflTransGen s.Extends

/-- The class itself declares the method. -/
def OwnMethod (s : Store) (cls : Nat) (f : Closure) : Prop :=
  ∃ c name k, s.class? cls = some c ∧ c.methods.get? name = some k ∧ s.closure? k = some f

/-- The environment has the receiver of a method that the class declares. -/
structure Receives (s : Store) (env inst cls : Nat) : Prop where
  receiver : (s.environment env).bindings.get? "this" = some (.inst inst)
  isA : ∃ i, s.instance? inst = some i ∧ s.IsA i.cls cls
  method : ∃ f, s.OwnMethod cls f ∧ (s.environment env).enclosing = some f.environment

/-- The function is a method that the class declares, bound to the instance. -/
structure BoundMethod (s : Store) (inst cls : Nat) (f : Closure) : Prop where
  receives : s.Receives f.environment inst cls
  method : ∃ g, s.OwnMethod cls g ∧ f = { g with environment := f.environment } ∧
    (s.environment f.environment).enclosing = some g.environment

/-- Neither `this` nor `super` is bound in the environment. -/
def Ordinary (s : Store) (env : Nat) : Prop :=
  (s.environment env).bindings.get? "this" = none ∧
    (s.environment env).bindings.get? "super" = none

structure Framed (s : Store) : Prop where
  globals : s.Ordinary globals
  closures : ∀ id f, s.closure? id = some f → f.environment < s.environments.size
  methods : ∀ cls c name k, s.class? cls = some c → c.methods.get? name = some k →
    ∃ f, s.closure? k = some f
  /-- `super` is bound around the receivers of a class that has a superclass, and to it. -/
  super : ∀ cls c f, s.class? cls = some c → s.OwnMethod cls f →
    (s.environment f.environment).bindings.get? "super" = c.superclass.map .cls
  /-- A class with a superclass has the environment of its methods for itself. -/
  apart : ∀ cls cls' parent f f', s.Extends cls parent → s.OwnMethod cls f → s.OwnMethod cls' f' →
    f'.environment = f.environment → cls' = cls
  receivers : ∀ env v, (s.environment env).bindings.get? "this" = some v →
    ∃ inst cls, s.Receives env inst cls
  bound : ∀ id f v, s.closure? id = some f →
    (s.environment f.environment).bindings.get? "this" = some v →
    ∃ inst cls, s.BoundMethod inst cls f

/-- The second store has all that was in the first, where it was. -/
structure Stable (s s' : Store) : Prop where
  size : s.environments.size ≤ s'.environments.size
  enclosing : ∀ id < s.environments.size,
    (s'.environment id).enclosing = (s.environment id).enclosing
  this : ∀ id < s.environments.size,
    (s'.environment id).bindings.get? "this" = (s.environment id).bindings.get? "this"
  super : ∀ id < s.environments.size,
    (s'.environment id).bindings.get? "super" = (s.environment id).bindings.get? "super"
  closures : ∀ id f, s.closure? id = some f → s'.closure? id = some f
  classes : ∀ id c, s.class? id = some c → s'.class? id = some c
  instances : ∀ id i, s.instance? id = some i → ∃ i', s'.instance? id = some i' ∧ i'.cls = i.cls

variable {s s' s'' : Store}

/-! ## Later stores -/

theorem Stable.refl (s : Store) : s.Stable s :=
  ⟨le_rfl, fun _ _ => rfl, fun _ _ => rfl, fun _ _ => rfl, fun _ _ h => h, fun _ _ h => h,
    fun _ i h => ⟨i, h, rfl⟩⟩

theorem Stable.trans (h : s.Stable s') (h' : s'.Stable s'') : s.Stable s'' := by
  refine ⟨h.size.trans h'.size, fun id hid => ?_, fun id hid => ?_, fun id hid => ?_,
    fun id f hf => h'.closures id f (h.closures id f hf),
    fun id c hc => h'.classes id c (h.classes id c hc), fun id i hi => ?_⟩
  · rw [h'.enclosing id (hid.trans_le h.size), h.enclosing id hid]
  · rw [h'.this id (hid.trans_le h.size), h.this id hid]
  · rw [h'.super id (hid.trans_le h.size), h.super id hid]
  · obtain ⟨i', hi', hcls⟩ := h.instances id i hi
    obtain ⟨i'', hi'', hcls'⟩ := h'.instances id i' hi'
    exact ⟨i'', hi'', hcls'.trans hcls⟩

/-- What is bound is bound in an environment of the store. -/
theorem lt_of_get? {env : Nat} {name : String} {v : Value}
    (h : (s.environment env).bindings.get? name = some v) : env < s.environments.size := by
  by_contra hge
  rw [environment, Array.getElem?_eq_none (by omega)] at h
  cases h

theorem IsA.later {cls ancestor : Nat} (hs : s.Stable s') (h : s.IsA cls ancestor) :
    s'.IsA cls ancestor :=
  Relation.ReflTransGen.mono (fun _ _ ⟨c, hc, hparent⟩ => ⟨c, hs.classes _ c hc, hparent⟩) _ _ h

theorem OwnMethod.later {cls : Nat} {f : Closure} (hs : s.Stable s') (h : s.OwnMethod cls f) :
    s'.OwnMethod cls f := by
  obtain ⟨c, name, k, hc, hk, hf⟩ := h
  exact ⟨c, name, k, hs.classes cls c hc, hk, hs.closures k f hf⟩

/-- A receiver stays where it is, and the class that declared its method stays the same. -/
theorem Receives.later {env inst cls : Nat} (hs : s.Stable s') (h : s.Receives env inst cls) :
    s'.Receives env inst cls := by
  have hlt := lt_of_get? h.receiver
  obtain ⟨i, hi, hisA⟩ := h.isA
  obtain ⟨i', hi', hcls⟩ := hs.instances inst i hi
  obtain ⟨f, hf, henclosing⟩ := h.method
  refine ⟨by rw [hs.this env hlt, h.receiver], ⟨i', hi', ?_⟩, f, hf.later hs, ?_⟩
  · rw [hcls]
    exact hisA.later hs
  · rw [hs.enclosing env hlt, henclosing]

theorem BoundMethod.later {inst cls : Nat} {f : Closure} (hs : s.Stable s')
    (h : s.BoundMethod inst cls f) : s'.BoundMethod inst cls f := by
  obtain ⟨g, hg, heq, henclosing⟩ := h.method
  refine ⟨h.receives.later hs, g, hg.later hs, heq, ?_⟩
  rw [hs.enclosing _ (lt_of_get? h.receives.receiver), henclosing]

theorem Ordinary.later {env : Nat} (hs : s.Stable s') (h : s.Ordinary env)
    (hlt : env < s.environments.size) : s'.Ordinary env :=
  ⟨(hs.this env hlt).trans h.1, (hs.super env hlt).trans h.2⟩

/-! ## The class that declares a method -/

theorem Extends.unique {cls parent parent' : Nat} (h : s.Extends cls parent)
    (h' : s.Extends cls parent') : parent' = parent := by
  obtain ⟨c, hc, hparent⟩ := h
  obtain ⟨c', hc', hparent'⟩ := h'
  rw [hc] at hc'
  cases hc'
  rw [hparent] at hparent'
  exact (Option.some.inj hparent').symm

/-- Of two classes above a third, one is above the other. -/
theorem IsA.total {cls a b : Nat} (ha : s.IsA cls a) (hb : s.IsA cls b) :
    s.IsA a b ∨ s.IsA b a :=
  Relation.ReflTransGen.total_of_right_unique (fun _ _ _ h h' => h'.unique h) ha hb

theorem OwnMethod.class? {cls : Nat} {f : Closure} (h : s.OwnMethod cls f) :
    ∃ c, s.class? cls = some c := by
  obtain ⟨c, -, -, hc, -⟩ := h
  exact ⟨c, hc⟩

/-- The environment of a receiver leads to one class only. -/
theorem Receives.unique {env inst cls cls' : Nat} (hs : s.Framed) (h : s.Receives env inst cls)
    (h' : s.Receives env inst cls') : cls' = cls := by
  obtain ⟨i, hi, hisA⟩ := h.isA
  obtain ⟨i', hi', hisA'⟩ := h'.isA
  rw [hi] at hi'
  cases hi'
  obtain ⟨f, hf, henclosing⟩ := h.method
  obtain ⟨f', hf', henclosing'⟩ := h'.method
  have hsame : f'.environment = f.environment := by
    rw [henclosing] at henclosing'
    exact (Option.some.inj henclosing').symm
  -- The lower of the two classes has a superclass unless they are the same.
  have hlower : ∀ {a b fa fb}, s.IsA a b → s.OwnMethod a fa → s.OwnMethod b fb →
      fb.environment = fa.environment → b = a := by
    intro a b fa fb hab hfa hfb heq
    rcases hab.cases_head with rfl | ⟨parent, hparent, -⟩
    · rfl
    · exact hs.apart a b parent fa fb hparent hfa hfb heq
  rcases hisA.total hisA' with habove | habove
  · exact hlower habove hf hf' hsame
  · exact (hlower habove hf' hf hsame.symm).symm

/-- A method that is found is declared by the class or one of its superclasses. -/
theorem ownMethod_of_findMethodWithin {name : String} {k : Nat} {f : Closure} :
    ∀ {steps cls : Nat}, s.findMethodWithin name steps cls = some k → s.closure? k = some f →
      ∃ ancestor, s.IsA cls ancestor ∧ s.OwnMethod ancestor f
  | steps + 1, cls, hk, hf => by
    rw [findMethodWithin] at hk
    split at hk
    · cases hk
    · rename_i c hc
      split at hk
      · rename_i hmethod
        cases hk
        exact ⟨cls, .refl, c, name, k, hc, hmethod, hf⟩
      · split at hk
        · cases hk
        · rename_i parent hparent
          obtain ⟨ancestor, hisA, hown⟩ := ownMethod_of_findMethodWithin hk hf
          exact ⟨ancestor, .head ⟨c, hc, hparent⟩ hisA, hown⟩

theorem ownMethod_of_method? {cls : Nat} {name : String} {f : Closure}
    (h : s.method? cls name = some f) :
    ∃ ancestor, s.IsA cls ancestor ∧ s.OwnMethod ancestor f := by
  obtain ⟨k, hk, hf⟩ := Option.bind_eq_some_iff.1 h
  exact ownMethod_of_findMethodWithin hk hf

/-- A method that is found above the class of an instance is declared above that class too. -/
theorem exists_ownMethod {inst parent : Nat} {i : Instance} {name : String} {f : Closure}
    (hi : s.instance? inst = some i) (hparent : s.IsA i.cls parent)
    (hf : s.method? parent name = some f) :
    ∃ cls, s.OwnMethod cls f ∧ ∃ i, s.instance? inst = some i ∧ s.IsA i.cls cls := by
  obtain ⟨cls, hisA, hown⟩ := ownMethod_of_method? hf
  exact ⟨cls, hown, i, hi, hparent.trans hisA⟩

/-! ## Code inside a method -/

/-- What runs in the environment is inside a method that the class declares, be it in a function
that is nested in the method. The nearest receiver is that of the method. -/
inductive Inside (s : Store) : (env inst cls : Nat) → Prop
  | method {env inst cls : Nat} : s.Receives env inst cls → Inside s env inst cls
  | nested {env outer inst cls : Nat} : (s.environment env).bindings.get? "this" = none →
    (s.environment env).enclosing = some outer → Inside s outer inst cls → Inside s env inst cls

theorem lt_of_enclosing {env outer : Nat} (h : (s.environment env).enclosing = some outer) :
    env < s.environments.size := by
  by_contra hge
  rw [environment, Array.getElem?_eq_none (by omega)] at h
  cases h

/-- Code stays inside the method it is in. -/
theorem Inside.later {env inst cls : Nat} (hs : s.Stable s') (h : s.Inside env inst cls) :
    s'.Inside env inst cls := by
  induction h with
  | method hreceives => exact .method (hreceives.later hs)
  | nested hthis henclosing _ ih =>
    have hlt := lt_of_enclosing henclosing
    exact .nested ((hs.this _ hlt).trans hthis) ((hs.enclosing _ hlt).trans henclosing) ih

/-- Code is inside one method at a time, and of one class. -/
theorem Inside.unique {env inst inst' cls cls' : Nat} (hs : s.Framed) (h : s.Inside env inst cls)
    (h' : s.Inside env inst' cls') : inst' = inst ∧ cls' = cls := by
  induction h with
  | method hreceives =>
    cases h' with
    | method hreceives' =>
      have hsame := hreceives.receiver.symm.trans hreceives'.receiver
      cases hsame
      exact ⟨rfl, hreceives.unique hs hreceives'⟩
    | nested hthis _ _ =>
      rw [hreceives.receiver] at hthis
      cases hthis
  | nested hthis henclosing _ ih =>
    cases h' with
    | method hreceives' =>
      rw [hreceives'.receiver] at hthis
      cases hthis
    | nested _ henclosing' h' =>
      rw [henclosing] at henclosing'
      cases henclosing'
      exact ih h'

theorem Inside.isA {env inst cls : Nat} (h : s.Inside env inst cls) :
    ∃ i, s.instance? inst = some i ∧ s.IsA i.cls cls := by
  induction h with
  | method hreceives => exact hreceives.isA
  | nested _ _ _ ih => exact ih

/-! ## Growing stores -/

theorem stable_define {name : String} (hthis : name ≠ "this") (hsuper : name ≠ "super") (s : Store)
    (env : Nat) (v : Value) : s.Stable (s.define env name v) := by
  have hkeeps : ∀ key, name ≠ key → ∀ id,
      ((s.define env name v).environment id).bindings.get? key =
        (s.environment id).bindings.get? key := by
    intro key hkey id
    rw [environment_define]
    split
    · rw [Table.get?_insert, if_neg hkey.symm]
    · rfl
  exact ⟨by simp, fun id _ => by simp, fun id _ => hkeeps _ hthis id,
    fun id _ => hkeeps _ hsuper id, fun _ _ h => h, fun _ _ h => h, fun _ i h => ⟨i, h, rfl⟩⟩

theorem stable_newEnvironment (s : Store) (e : Environment) :
    s.Stable (s.newEnvironment e).2 := by
  have henv : ∀ id < s.environments.size,
      (s.newEnvironment e).2.environment id = s.environment id := by
    intro id hid
    rw [environment_newEnvironment, if_neg (by omega)]
  refine ⟨by simp [newEnvironment], fun id hid => ?_, fun id hid => ?_, fun id hid => ?_,
    fun _ _ h => h, fun _ _ h => h, fun _ i h => ⟨i, h, rfl⟩⟩ <;> rw [henv id hid]

/-- Objects that are no environments. -/
theorem Stable.of_eq_environments (henvs : s'.environments = s.environments)
    (hclosures : ∀ id f, s.closure? id = some f → s'.closure? id = some f)
    (hclasses : ∀ id c, s.class? id = some c → s'.class? id = some c)
    (hinstances : ∀ id i, s.instance? id = some i →
      ∃ i', s'.instance? id = some i' ∧ i'.cls = i.cls) : s.Stable s' := by
  have henv : s'.environment = s.environment := by
    funext id
    simp [environment, henvs]
  exact ⟨by rw [henvs], fun id _ => by rw [henv], fun id _ => by rw [henv],
    fun id _ => by rw [henv], hclosures, hclasses, hinstances⟩

theorem stable_newFunction (s : Store) (f : Closure) : s.Stable (s.newFunction f).2 := by
  refine .of_eq_environments rfl (fun id g hg => ?_) (fun _ _ h => h) fun _ i h => ⟨i, h, rfl⟩
  have hlt : id < s.functions.size := (Array.getElem?_eq_some_iff.1 hg).1
  rw [closure?_newFunction, if_neg (by omega), hg]

theorem stable_newClass (s : Store) (c : Class) : s.Stable (s.newClass c).2 := by
  refine .of_eq_environments rfl (fun _ _ h => h) (fun id d hd => ?_) fun _ i h => ⟨i, h, rfl⟩
  have hlt : id < s.classes.size := (Array.getElem?_eq_some_iff.1 hd).1
  rw [class?_newClass, if_neg (by omega), hd]

theorem stable_newInstance (s : Store) (i : Instance) : s.Stable (s.newInstance i).2 := by
  refine .of_eq_environments rfl (fun _ _ h => h) (fun _ _ h => h) fun id j hj => ⟨j, ?_, rfl⟩
  have hlt : id < s.instances.size := (Array.getElem?_eq_some_iff.1 hj).1
  rw [instance?_newInstance, if_neg (by omega), hj]

theorem stable_setField (s : Store) (inst : Nat) (name : String) (v : Value) :
    s.Stable (s.setField inst name v) := by
  refine .of_eq_environments rfl (fun _ _ h => h) (fun _ _ h => h) fun id i hi => ?_
  rw [instance?_setField, hi]
  split
  · exact ⟨{ i with fields := i.fields.insert name v }, rfl, rfl⟩
  · exact ⟨i, rfl, rfl⟩

/-! ## Frames of growing stores -/

/-- A class that was there has the methods it had. -/
theorem OwnMethod.earlier {cls : Nat} {f : Closure} (h : s.Framed) (hs : s.Stable s')
    (hclass : s'.class? cls = s.class? cls) (hf : s'.OwnMethod cls f) : s.OwnMethod cls f := by
  obtain ⟨c, name, k, hc, hk, hclosure⟩ := hf
  rw [hclass] at hc
  obtain ⟨g, hg⟩ := h.methods cls c name k hc hk
  rw [hs.closures k g hg] at hclosure
  cases hclosure
  exact ⟨c, name, k, hc, hk, hg⟩

theorem OwnMethod.lt {cls : Nat} {f : Closure} (h : s.Framed) (hf : s.OwnMethod cls f) :
    f.environment < s.environments.size := by
  obtain ⟨_, _, k, _, _, hclosure⟩ := hf
  exact h.closures k f hclosure

/-- A store with the same classes is framed if its new receivers and functions are in order. -/
theorem Framed.of_stable (h : s.Framed) (hs : s.Stable s')
    (hglobals : Store.globals < s.environments.size)
    (hclasses : ∀ id, s'.class? id = s.class? id)
    (hclosures : ∀ id f, s'.closure? id = some f → s.closure? id = some f ∨
      f.environment < s'.environments.size ∧
        ∀ v, (s'.environment f.environment).bindings.get? "this" = some v →
          ∃ inst cls, s'.BoundMethod inst cls f)
    (hthis : ∀ env v, (s'.environment env).bindings.get? "this" = some v →
      env < s.environments.size ∨ ∃ inst cls, s'.Receives env inst cls) : s'.Framed where
  globals := h.globals.later hs hglobals
  closures id f hf := by
    rcases hclosures id f hf with hold | ⟨hlt, -⟩
    · exact (h.closures id f hold).trans_le hs.size
    · exact hlt
  methods cls c name k hc hk := by
    rw [hclasses] at hc
    obtain ⟨f, hf⟩ := h.methods cls c name k hc hk
    exact ⟨f, hs.closures k f hf⟩
  super cls c f hc hf := by
    have hold := hf.earlier h hs (hclasses cls)
    rw [hclasses] at hc
    rw [hs.super _ (hold.lt h), h.super cls c f hc hold]
  apart cls cls' parent f f' hextends hf hf' heq := by
    obtain ⟨c, hc, hparent⟩ := hextends
    rw [hclasses] at hc
    exact h.apart cls cls' parent f f' ⟨c, hc, hparent⟩ (hf.earlier h hs (hclasses cls))
      (hf'.earlier h hs (hclasses cls')) heq
  receivers env v hv := by
    rcases hthis env v hv with hlt | hnew
    · rw [hs.this env hlt] at hv
      obtain ⟨inst, cls, hreceives⟩ := h.receivers env v hv
      exact ⟨inst, cls, hreceives.later hs⟩
    · exact hnew
  bound id f v hf hv := by
    rcases hclosures id f hf with hold | ⟨-, hnew⟩
    · rw [hs.this _ (h.closures id f hold)] at hv
      obtain ⟨inst, cls, hbound⟩ := h.bound id f v hold hv
      exact ⟨inst, cls, hbound.later hs⟩
    · exact hnew v hv

theorem Framed.define {name : String} (h : s.Framed)
    (hglobals : Store.globals < s.environments.size) (hthis : name ≠ "this")
    (hsuper : name ≠ "super") (env : Nat) (v : Value) :
    (s.define env name v).Framed :=
  h.of_stable (stable_define hthis hsuper s env v) hglobals (fun _ => rfl) (fun _ _ => .inl)
    fun id w hw => .inl (by simpa using lt_of_get? hw)

/-- Objects that are neither environments nor functions nor classes. -/
theorem Framed.of_eq (h : s.Framed) (hs : s.Stable s')
    (hglobals : Store.globals < s.environments.size) (henvs : s'.environments = s.environments)
    (hclasses : s'.classes = s.classes) (hfunctions : s'.functions = s.functions) : s'.Framed :=
  h.of_stable hs hglobals (fun _ => by rw [class?, class?, hclasses])
    (fun id f hf => .inl (by rwa [closure?, hfunctions] at hf))
    fun id w hw => .inl (by simpa [henvs] using lt_of_get? hw)

theorem Framed.newEnvironment {e : Environment} (h : s.Framed)
    (hglobals : Store.globals < s.environments.size)
    (hthis : ∀ v, e.bindings.get? "this" = some v →
      ∃ inst cls, (s.newEnvironment e).2.Receives s.environments.size inst cls) :
    (s.newEnvironment e).2.Framed := by
  refine h.of_stable (stable_newEnvironment s e) hglobals (fun _ => rfl) (fun _ _ => .inl)
    fun env v hv => ?_
  rw [environment_newEnvironment] at hv
  split at hv
  · rename_i hnew
    rw [hnew]
    exact .inr (hthis v hv)
  · exact .inl (lt_of_get? hv)

theorem Framed.newFunction {f : Closure} (h : s.Framed)
    (hglobals : Store.globals < s.environments.size)
    (hlt : f.environment < s.environments.size)
    (hthis : ∀ v, (s.environment f.environment).bindings.get? "this" = some v →
      ∃ inst cls, s.BoundMethod inst cls f) :
    (s.newFunction f).2.Framed := by
  have hs := stable_newFunction s f
  refine h.of_stable hs hglobals (fun _ => rfl) (fun id g hg => ?_)
    fun _ _ hv => .inl (lt_of_get? hv)
  rw [closure?_newFunction] at hg
  split at hg
  · cases hg
    refine .inr ⟨hlt, fun v hv => ?_⟩
    obtain ⟨inst, cls, hbound⟩ := hthis v hv
    exact ⟨inst, cls, hbound.later hs⟩
  · exact .inl hg

/-- The environment of a receiver, made to bind a method to it. -/
theorem Framed.newReceiver {f : Closure} {inst cls : Nat} (h : s.Framed)
    (hglobals : Store.globals < s.environments.size) (hf : s.OwnMethod cls f)
    (hinst : ∃ i, s.instance? inst = some i ∧ s.IsA i.cls cls) :
    (s.newEnvironment ⟨Table.empty.insert "this" (.inst inst), some f.environment⟩).2.Framed ∧
      (s.newEnvironment ⟨Table.empty.insert "this" (.inst inst), some f.environment⟩).2.BoundMethod
        inst cls { f with environment := s.environments.size } := by
  let e : Environment := ⟨Table.empty.insert "this" (.inst inst), some f.environment⟩
  have hs := stable_newEnvironment s e
  have henv : (s.newEnvironment e).2.environment s.environments.size = e := by
    rw [environment_newEnvironment, if_pos rfl]
  have hreceives : (s.newEnvironment e).2.Receives s.environments.size inst cls := by
    obtain ⟨i, hi, hisA⟩ := hinst
    exact ⟨by simp [henv, e], ⟨i, hi, hisA.later hs⟩, f, hf.later hs, by rw [henv]⟩
  exact ⟨h.newEnvironment hglobals fun _ _ => ⟨inst, cls, hreceives⟩, hreceives, f, hf.later hs,
    rfl, by rw [henv]⟩

/-- A class whose methods are closed over an environment that holds its superclass, if it has one,
and is then that of no other class. -/
theorem Framed.newClass {c : Class} (h : s.Framed) (inner : Nat)
    (hmethods : ∀ name k, c.methods.get? name = some k →
      ∃ f, s.closure? k = some f ∧ f.environment = inner)
    (hsuper : (s.environment inner).bindings.get? "super" = c.superclass.map .cls)
    (hapart : ∀ cls f, s.OwnMethod cls f → f.environment = inner → c.superclass = none) :
    (s.newClass c).2.Framed := by
  have hs := stable_newClass s c
  have hcases : ∀ {cls d f}, (s.newClass c).2.class? cls = some d →
      (s.newClass c).2.OwnMethod cls f →
      (cls = s.classes.size ∧ d = c ∧ f.environment = inner) ∨
        (s.class? cls = some d ∧ s.OwnMethod cls f) := by
    rintro cls d f hd hf
    rw [class?_newClass] at hd
    by_cases hnew : cls = s.classes.size
    · rw [if_pos hnew] at hd
      cases hd
      obtain ⟨d, name, k, hd, hk, hclosure⟩ := hf
      rw [class?_newClass, if_pos hnew] at hd
      cases hd
      obtain ⟨g, hg, henv⟩ := hmethods name k hk
      cases hg.symm.trans hclosure
      exact .inl ⟨hnew, rfl, henv⟩
    · rw [if_neg hnew] at hd
      exact .inr ⟨hd, hf.earlier h hs (by rw [class?_newClass, if_neg hnew])⟩
  refine ⟨h.globals, h.closures, fun cls d name k hd hk => ?_, fun cls d f hd hf => ?_,
    fun cls cls' parent f f' hextends hf hf' heq => ?_, fun env v hv => ?_,
    fun id f v hf hv => ?_⟩
  · rw [class?_newClass] at hd
    split at hd
    · cases hd
      obtain ⟨f, hf, -⟩ := hmethods name k hk
      exact ⟨f, hf⟩
    · exact h.methods cls d name k hd hk
  · rcases hcases hd hf with ⟨-, rfl, henv⟩ | ⟨hd, hf⟩
    · rw [henv]
      exact hsuper
    · exact h.super cls d f hd hf
  · obtain ⟨d, hd, hparent⟩ := hextends
    obtain ⟨d', hd'⟩ := hf'.class?
    rcases hcases hd hf with ⟨hnew, hdc, henv⟩ | ⟨hold, hown⟩ <;>
      rcases hcases hd' hf' with ⟨hnew', -, henv'⟩ | ⟨-, hown'⟩
    · rw [hnew, hnew']
    · rw [hdc, hapart cls' f' hown' (heq.trans henv)] at hparent
      cases hparent
    · -- The new class would share the environment that holds the other one's superclass.
      have hbound := h.super cls d f hold hown
      rw [← heq, henv', hsuper, hapart cls f hown (heq.symm.trans henv'), hparent] at hbound
      cases hbound
    · exact h.apart cls cls' parent f f' ⟨d, hold, hparent⟩ hown hown' heq
  · obtain ⟨inst, cls, hreceives⟩ := h.receivers env v hv
    exact ⟨inst, cls, hreceives.later hs⟩
  · obtain ⟨inst, cls, hbound⟩ := h.bound id f v hf hv
    exact ⟨inst, cls, hbound.later hs⟩

end Store

end Lox
