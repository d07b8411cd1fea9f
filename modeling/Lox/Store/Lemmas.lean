import Lox.Store

/-!
# What the operations of a store do

Defining a name changes one binding of one environment and no link between environments, so every
walk goes the same way after it as before. A new object has the next index, and the others
stay. Methods are looked up among the classes and functions alone. A field has the value that was
last assigned to it.
-/

namespace Lox

namespace Store

theorem environment_define (s : Store) (env id : Nat) (name : String) (value : Value) :
    (s.define env name value).environment id =
      if env = id ∧ id < s.environments.size then
        { s.environment id with bindings := (s.environment id).bindings.insert name value }
      else s.environment id := by
  unfold environment define
  rw [Array.getElem?_modify]
  by_cases h : env = id
  · subst h
    by_cases hlt : env < s.environments.size <;> simp [hlt]
  · simp [h]

@[simp]
theorem enclosing_define (s : Store) (env id : Nat) (name : String) (value : Value) :
    ((s.define env name value).environment id).enclosing = (s.environment id).enclosing := by
  rw [environment_define]
  split <;> rfl

@[simp]
theorem size_define (s : Store) (env : Nat) (name : String) (value : Value) :
    (s.define env name value).environments.size = s.environments.size :=
  Array.size_modify

@[simp]
theorem ancestor_define (s : Store) (env : Nat) (name : String) (value : Value) (hops : Nat)
    (start : Option Nat) :
    (s.define env name value).ancestor hops start = s.ancestor hops start := by
  induction hops generalizing start with
  | zero => simp [ancestor]
  | succ hops ih => cases start <;> simp [ancestor, ih]

@[simp]
theorem environmentAt_define (s : Store) (env : Nat) (name : String) (value : Value)
    (hops start : Nat) :
    (s.define env name value).environmentAt hops start = s.environmentAt hops start := by
  simp [environmentAt]

theorem environmentAt_succ {s : Store} {env outer : Nat}
    (h : (s.environment env).enclosing = some outer) (hops : Nat) :
    s.environmentAt (hops + 1) env = s.environmentAt hops outer := by
  rw [environmentAt, ancestor, h, environmentAt]

/-- What is further out than an environment is outside of the one around it. -/
theorem exists_enclosing {s : Store} {env found hops : Nat}
    (h : s.environmentAt (hops + 1) env = .ok found) :
    ∃ outer, (s.environment env).enclosing = some outer ∧ s.environmentAt hops outer = .ok found := by
  rcases houter : (s.environment env).enclosing with _ | outer
  · rw [environmentAt, ancestor, houter] at h
    cases hops <;> cases h
  · exact ⟨outer, rfl, (environmentAt_succ houter hops).symm.trans h⟩

/-- The ways out can be gone one after the other. -/
theorem environmentAt_add {s : Store} {env middle found hops more : Nat}
    (h : s.environmentAt hops env = .ok middle) (hmore : s.environmentAt more middle = .ok found) :
    s.environmentAt (hops + more) env = .ok found := by
  induction hops generalizing env with
  | zero =>
    cases h
    rwa [Nat.zero_add]
  | succ hops ih =>
    obtain ⟨outer, houter, hrest⟩ := exists_enclosing h
    rw [Nat.add_right_comm, environmentAt_succ houter]
    exact ih hrest

theorem environment_newEnvironment (s : Store) (e : Environment) (id : Nat) :
    (s.newEnvironment e).2.environment id =
      if id = s.environments.size then e else s.environment id := by
  unfold environment newEnvironment
  rw [Array.getElem?_push]
  split <;> rfl

/-! ## New objects -/

theorem closure?_newFunction (s : Store) (f : Closure) (id : Nat) :
    (s.newFunction f).2.closure? id =
      if id = s.functions.size then some f else s.closure? id := by
  simp only [closure?, newFunction, Array.getElem?_push]

theorem class?_newClass (s : Store) (c : Class) (id : Nat) :
    (s.newClass c).2.class? id = if id = s.classes.size then some c else s.class? id := by
  simp only [class?, newClass, Array.getElem?_push]

theorem instance?_newInstance (s : Store) (i : Instance) (id : Nat) :
    (s.newInstance i).2.instance? id =
      if id = s.instances.size then some i else s.instance? id := by
  simp only [instance?, newInstance, Array.getElem?_push]

/-! ## Methods -/

theorem findMethodWithin_congr {s s' : Store} (h : s'.classes = s.classes) (name : String) :
    ∀ steps cls, s'.findMethodWithin name steps cls = s.findMethodWithin name steps cls
  | 0, _ => rfl
  | steps + 1, cls => by
    simp only [findMethodWithin, class?, h, findMethodWithin_congr h name steps]

/-- Methods depend on the classes and functions of the store only. -/
theorem method?_congr (s s' : Store) (hclasses : s'.classes = s.classes)
    (hfunctions : s'.functions = s.functions) (cls : Nat) (name : String) :
    s'.method? cls name = s.method? cls name := by
  simp only [method?, findMethod?, hclasses, findMethodWithin_congr hclasses]
  congr 1
  funext id
  simp [closure?, hfunctions]

/-- A method that is found is among those of some class. -/
theorem mem_of_findMethodWithin {s : Store} {name : String} {k : Nat} :
    ∀ {steps cls}, s.findMethodWithin name steps cls = some k →
      ∃ id c, s.class? id = some c ∧ c.methods.get? name = some k
  | steps + 1, cls, h => by
    rw [findMethodWithin] at h
    split at h
    · cases h
    · rename_i c hc
      split at h
      · rename_i hmethod
        cases h
        exact ⟨cls, c, hc, hmethod⟩
      · split at h
        · cases h
        · exact mem_of_findMethodWithin h

/-! ## Fields -/

theorem instance?_setField (s : Store) (inst : Nat) (name : String) (value : Value) (id : Nat) :
    (s.setField inst name value).instance? id =
      if inst = id then
        (s.instance? id).map fun i => { i with fields := i.fields.insert name value }
      else s.instance? id := by
  simp only [instance?, setField, Array.getElem?_modify]

/-- After an assignment a field has the assigned value or the one it had. -/
theorem field_of_setField {s : Store} {inst id : Nat} {name x : String} {value w : Value}
    {i : Instance} (hi : (s.setField inst name value).instance? id = some i)
    (hw : i.fields.get? x = some w) :
    w = value ∨ ∃ old, s.instance? id = some old ∧ old.fields.get? x = some w := by
  rw [instance?_setField] at hi
  split at hi
  · obtain ⟨old, hold, rfl⟩ := Option.map_eq_some_iff.1 hi
    rw [Table.get?_insert] at hw
    split at hw
    · exact .inl (Option.some.inj hw).symm
    · exact .inr ⟨old, hold, hw⟩
  · exact .inr ⟨i, hi, hw⟩

/-- A new instance has no fields, so one that has is not new. -/
theorem instance?_of_newInstance {s : Store} {cls id : Nat} {x : String} {w : Value} {i : Instance}
    (hi : (s.newInstance ⟨cls, .empty⟩).2.instance? id = some i)
    (hw : i.fields.get? x = some w) : s.instance? id = some i := by
  rw [instance?_newInstance] at hi
  split at hi
  · cases hi
    simp at hw
  · exact hi

/-- A field that is found is one of an instance. -/
theorem exists_instance_of_field {s : Store} {inst : Nat} {x : String} {w : Value}
    (hw : ((s.instance? inst).getD default).fields.get? x = some w) :
    ∃ i, s.instance? inst = some i ∧ i.fields.get? x = some w := by
  rcases hi : s.instance? inst with _ | i <;> rw [hi] at hw
  · cases hw
  · exact ⟨i, rfl, hw⟩

end Store

end Lox
