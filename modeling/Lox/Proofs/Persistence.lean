import Mathlib.Tactic
import Lox.Proofs.Chains
import Lox.Proofs.Inheritance

/-!
# Stores that only grow

Nothing is ever taken out of a store, and nothing in it is linked anew (`Persists`). What is added
is linked to what was there before, an environment to the one around it and a class to its
superclass (`Advances`). Each operation of the store goes on in this way, as long as it is given
links that are in the store already, and so does any number of them.

A store that has come so far from the initial one has its links in the order of age. Every chain of
them ends, so that a search along one, which is bounded by the number of links, finds what there is
to be found (`Chained`).
-/

namespace Lox

namespace Store

/-- All that is in the first store is in the second: the environments with the same ones around them
and no name less, the functions and the classes as they were, and the instances with their class and
no field less. -/
structure Persists (s s' : Store) : Prop where
  size : s.environments.size ≤ s'.environments.size
  enclosing : ∀ id < s.environments.size,
    (s'.environment id).enclosing = (s.environment id).enclosing
  names : ∀ id name, s.Has id name → s'.Has id name
  closures : ∀ id f, s.closure? id = some f → s'.closure? id = some f
  classes : ∀ id c, s.class? id = some c → s'.class? id = some c
  instances : ∀ id i, s.instance? id = some i → ∃ i', s'.instance? id = some i' ∧ i'.cls = i.cls ∧
    ∀ name, i.fields.contains name = true → i'.fields.contains name = true
  natives : ∀ id n, s.native? id = some n → s'.native? id = some n

/-- All that is in the first store is in the second, and what is new there is younger than what it
is linked to. -/
structure Advances (s s' : Store) : Prop extends Persists s s' where
  older : ∀ id outer, s.environments.size ≤ id → (s'.environment id).enclosing = some outer →
    outer < id
  olderClass : ∀ id parent, s.classes.size ≤ id → s'.Extends id parent → parent < id

/-- Every chain of environments and of classes ends, and a search along one finds the nearest of
those that have what is searched for, if any of them has. -/
structure Chained (s : Store) : Prop where
  enclosing : WellFounded fun outer env => (s.environment env).enclosing = some outer
  superclass : WellFounded fun parent cls => s.Extends cls parent
  get : ∀ env (name : Token) value, s.get env name = .ok value ↔
    ∃ hops found, s.BoundAt env name.lexeme hops found ∧
      (s.environment found).bindings.get? name.lexeme = some value
  assign : ∀ env (name : Token) value s', s.assign env name value = .ok s' ↔
    ∃ hops found, s.BoundAt env name.lexeme hops found ∧ s' = s.define found name.lexeme value
  unbound : ∀ env (name : Token), s.UnboundFrom env name.lexeme →
    s.get env name = .error ⟨name, .undefinedVariable name.lexeme⟩ ∧
      ∀ value, s.assign env name value = .error ⟨name, .undefinedVariable name.lexeme⟩
  method : ∀ cls name k, s.findMethod? cls name = some k ↔ s.Nearest cls name k
  noMethod : ∀ cls name, s.findMethod? cls name = none ↔
    ∀ steps above, s.above? steps cls = some above → s.ownMethod? above name = none

variable {s s' s'' : Store}

/-! ## Growth -/

theorem Persists.refl (s : Store) : s.Persists s :=
  ⟨le_rfl, fun _ _ => rfl, fun _ _ h => h, fun _ _ h => h, fun _ _ h => h,
    fun _ i h => ⟨i, h, rfl, fun _ h => h⟩, fun _ _ h => h⟩

theorem Persists.trans (h : s.Persists s') (h' : s'.Persists s'') : s.Persists s'' where
  size := h.size.trans h'.size
  enclosing id hid := (h'.enclosing id (hid.trans_le h.size)).trans (h.enclosing id hid)
  names id name hname := h'.names id name (h.names id name hname)
  closures id f hf := h'.closures id f (h.closures id f hf)
  classes id c hc := h'.classes id c (h.classes id c hc)
  instances id i hi := by
    obtain ⟨i₁, hi₁, hcls₁, hfields₁⟩ := h.instances id i hi
    obtain ⟨i₂, hi₂, hcls₂, hfields₂⟩ := h'.instances id i₁ hi₁
    exact ⟨i₂, hi₂, hcls₂.trans hcls₁, fun name hname => hfields₂ name (hfields₁ name hname)⟩
  natives id n hn := h'.natives id n (h.natives id n hn)

theorem lt_of_extends {cls parent : Nat} (h : s.Extends cls parent) : cls < s.classes.size := by
  obtain ⟨c, hc, -⟩ := h
  exact (Array.getElem?_eq_some_iff.1 hc).1

theorem Advances.refl (s : Store) : s.Advances s where
  toPersists := .refl s
  older _ _ hid houter := absurd (lt_of_enclosing houter) hid.not_gt
  olderClass _ _ hid hparent := absurd (lt_of_extends hparent) hid.not_gt

theorem Advances.trans (h : s.Advances s') (h' : s'.Advances s'') : s.Advances s'' where
  toPersists := h.toPersists.trans h'.toPersists
  older id outer hid houter := by
    by_cases hold : id < s'.environments.size
    · rw [h'.enclosing id hold] at houter
      exact h.older id outer hid houter
    · exact h'.older id outer (Nat.le_of_not_lt hold) houter
  olderClass id parent hid hparent := by
    by_cases hold : id < s'.classes.size
    · obtain ⟨c, hc, hsuper⟩ := hparent
      have hkept := h'.classes id _ (Array.getElem?_eq_getElem hold)
      obtain rfl := Option.some.inj (hkept.symm.trans hc)
      exact h.olderClass id parent hid ⟨_, Array.getElem?_eq_getElem hold, hsuper⟩
    · exact h'.olderClass id parent (Nat.le_of_not_lt hold) hparent

instance : IsTrans Store Advances := ⟨fun _ _ _ => Advances.trans⟩

/-! ## Operations -/

theorem advances_define (s : Store) (env : Nat) (name : String) (value : Value) :
    s.Advances (s.define env name value) where
  size := by simp
  enclosing := by simp
  names id x hx := by
    rw [Has, environment_define]
    split
    · simp only [Table.contains_insert, Bool.or_eq_true]
      exact .inr hx
    · exact hx
  closures _ _ h := h
  classes _ _ h := h
  instances _ i h := ⟨i, h, rfl, fun _ h => h⟩
  natives _ _ h := h
  older id outer hid houter := by
    rw [enclosing_define] at houter
    exact absurd (lt_of_enclosing houter) hid.not_gt
  olderClass _ _ hid hparent := absurd (lt_of_extends (s := s) hparent) hid.not_gt

theorem advances_newEnvironment {e : Environment}
    (he : ∀ outer, e.enclosing = some outer → outer < s.environments.size) :
    s.Advances (s.newEnvironment e).2 where
  size := by simp [newEnvironment]
  enclosing id hid := by rw [environment_newEnvironment, if_neg hid.ne]
  names id x hx := by
    rw [Has, environment_newEnvironment, if_neg hx.lt.ne]
    exact hx
  closures _ _ h := h
  classes _ _ h := h
  instances _ i h := ⟨i, h, rfl, fun _ h => h⟩
  natives _ _ h := h
  older id outer hid houter := by
    rw [environment_newEnvironment] at houter
    split at houter
    · rename_i heq
      rw [heq]
      exact he outer houter
    · exact absurd (lt_of_enclosing houter) hid.not_gt
  olderClass _ _ hid hparent := absurd (lt_of_extends (s := s) hparent) hid.not_gt

/-- What changes no environment and no class, and keeps the rest. -/
theorem Advances.of_same (henvironments : s'.environments = s.environments)
    (hclasses : s'.classes = s.classes)
    (hclosures : ∀ id f, s.closure? id = some f → s'.closure? id = some f)
    (hinstances : ∀ id i, s.instance? id = some i → ∃ i', s'.instance? id = some i' ∧
      i'.cls = i.cls ∧ ∀ name, i.fields.contains name = true → i'.fields.contains name = true)
    (hnatives : s'.natives = s.natives) : s.Advances s' := by
  have henvironment : s'.environment = s.environment := by
    funext id
    simp [environment, henvironments]
  have hclass : s'.class? = s.class? := by
    funext id
    simp [class?, hclasses]
  refine ⟨⟨by rw [henvironments], fun id _ => by rw [henvironment], fun id x hx => ?_, hclosures,
    fun id c hc => by rw [hclass, hc], hinstances, fun id n hn => ?_⟩,
    fun id outer hid houter => ?_, fun id parent hid hparent => ?_⟩
  · rwa [Has, henvironment]
  · rwa [native?, hnatives]
  · rw [henvironment] at houter
    exact absurd (lt_of_enclosing houter) hid.not_gt
  · rw [Extends, hclass] at hparent
    exact absurd (lt_of_extends hparent) hid.not_gt

theorem advances_newFunction (s : Store) (f : Closure) : s.Advances (s.newFunction f).2 := by
  refine .of_same rfl rfl (fun id g hg => ?_) (fun _ i h => ⟨i, h, rfl, fun _ h => h⟩) rfl
  have hlt : id < s.functions.size := (Array.getElem?_eq_some_iff.1 hg).1
  rw [closure?_newFunction, if_neg hlt.ne, hg]

theorem advances_newInstance (s : Store) (i : Instance) : s.Advances (s.newInstance i).2 := by
  refine .of_same rfl rfl (fun _ _ h => h) (fun id j hj => ⟨j, ?_, rfl, fun _ h => h⟩) rfl
  have hlt : id < s.instances.size := (Array.getElem?_eq_some_iff.1 hj).1
  rw [instance?_newInstance, if_neg hlt.ne, hj]

theorem advances_setField (s : Store) (inst : Nat) (name : String) (value : Value) :
    s.Advances (s.setField inst name value) := by
  refine .of_same rfl rfl (fun _ _ h => h) (fun id i hi => ?_) rfl
  rw [instance?_setField, hi]
  split
  · refine ⟨_, rfl, rfl, fun x hx => ?_⟩
    simp only [Table.contains_insert, Bool.or_eq_true]
    exact .inr hx
  · exact ⟨i, rfl, rfl, fun _ h => h⟩

theorem advances_newClass {c : Class}
    (hc : ∀ parent, c.superclass = some parent → parent < s.classes.size) :
    s.Advances (s.newClass c).2 where
  size := le_rfl
  enclosing _ _ := rfl
  names _ _ h := h
  closures _ _ h := h
  classes id d hd := by
    have hlt : id < s.classes.size := (Array.getElem?_eq_some_iff.1 hd).1
    rw [class?_newClass, if_neg hlt.ne, hd]
  instances _ i h := ⟨i, h, rfl, fun _ h => h⟩
  natives _ _ h := h
  older _ _ hid houter := absurd (lt_of_enclosing (s := s) houter) hid.not_gt
  olderClass id parent hid hparent := by
    obtain ⟨d, hd, hsuper⟩ := hparent
    rw [class?_newClass] at hd
    split at hd
    · rename_i heq
      cases hd
      rw [heq]
      exact hc parent hsuper
    · exact absurd (lt_of_extends ⟨d, hd, hsuper⟩) hid.not_gt

/-- A bound method is in an environment of its own, within that of the method. -/
theorem advances_bind {f : Closure} (receiver : Value)
    (hf : f.environment < s.environments.size) : s.Advances (s.bind f receiver).2 := by
  have hinner : s.Advances
      (s.newEnvironment ⟨Table.empty.insert "this" receiver, some f.environment⟩).2 := by
    refine advances_newEnvironment fun outer houter => ?_
    cases houter
    exact hf
  exact hinner.trans (advances_newFunction _ _)

/-! ## Chains -/

/-- Links are in the order of age. -/
structure Aged (s : Store) : Prop where
  environments : s.Older
  classes : ∀ cls parent, s.Extends cls parent → parent < cls

theorem aged_initial : Store.initial.Aged := by
  refine ⟨fun id outer houter => ?_, fun cls parent hparent => ?_⟩
  · have hid : id = 0 := Nat.lt_one_iff.1 (lt_of_enclosing houter)
    subst hid
    cases houter
  · exact absurd (lt_of_extends hparent) (Nat.not_lt_zero cls)

theorem Aged.advances (hs : s.Aged) (h : s.Advances s') : s'.Aged := by
  refine ⟨fun id outer houter => ?_, fun cls parent hparent => ?_⟩
  · by_cases hold : id < s.environments.size
    · rw [h.enclosing id hold] at houter
      exact hs.environments id outer houter
    · exact h.older id outer (Nat.le_of_not_lt hold) houter
  · by_cases hold : cls < s.classes.size
    · obtain ⟨c, hc, hsuper⟩ := hparent
      have hkept := h.classes cls _ (Array.getElem?_eq_getElem hold)
      obtain rfl := Option.some.inj (hkept.symm.trans hc)
      exact hs.classes cls parent ⟨_, Array.getElem?_eq_getElem hold, hsuper⟩
    · exact h.olderClass cls parent (Nat.le_of_not_lt hold) hparent

/-- The search for a method fails only if no class up from the one has it. -/
theorem findMethod?_eq_none_iff {cls : Nat} {name : String} : s.findMethod? cls name = none ↔
    ∀ steps above, s.above? steps cls = some above → s.ownMethod? above name = none := by
  constructor
  · intro hnone steps above habove
    by_contra hsome
    classical
    have hexists : ∃ steps above, s.above? steps cls = some above ∧
      s.ownMethod? above name ≠ none := ⟨steps, above, habove, hsome⟩
    obtain ⟨first, hfirst, hown⟩ := Nat.find_spec hexists
    obtain ⟨k, hk⟩ := Option.ne_none_iff_exists'.1 hown
    have hnearest : s.Nearest cls name k := by
      refine ⟨Nat.find hexists, ⟨first, hfirst, hk⟩, fun i hi c hc => ?_⟩
      by_contra hearlier
      exact Nat.find_min hexists hi ⟨c, hc, hearlier⟩
    rw [findMethod?_eq_some_iff.2 hnearest] at hnone
    cases hnone
  · intro hnone
    by_contra hsome
    obtain ⟨k, hk⟩ := Option.ne_none_iff_exists'.1 hsome
    obtain ⟨steps, ⟨above, habove, hown⟩, -⟩ := findMethod?_eq_some_iff.1 hk
    rw [hnone steps above habove] at hown
    cases hown

theorem Older.get_eq_ok_iff (hs : s.Older) {env : Nat} {name : Token} {value : Value} :
    s.get env name = .ok value ↔ ∃ hops found, s.BoundAt env name.lexeme hops found ∧
      (s.environment found).bindings.get? name.lexeme = some value := by
  constructor
  · intro hget
    rcases hfind : s.find? env name.lexeme with _ | found
    · rw [get_eq_error hfind] at hget
      cases hget
    · obtain ⟨hops, hbound⟩ := hs.find?_eq_some_iff.1 hfind
      obtain ⟨v, hv⟩ := Option.isSome_iff_exists.1 hbound.has
      rw [get_eq_ok hfind hv] at hget
      cases hget
      exact ⟨hops, found, hbound, hv⟩
  · rintro ⟨hops, found, hbound, hvalue⟩
    exact get_eq_ok (hs.find?_eq_some_iff.2 ⟨hops, hbound⟩) hvalue

theorem Older.assign_eq_ok_iff (hs : s.Older) {env : Nat} {name : Token} {value : Value} :
    s.assign env name value = .ok s' ↔ ∃ hops found, s.BoundAt env name.lexeme hops found ∧
      s' = s.define found name.lexeme value := by
  rw [Store.assign, holder]
  rcases hfind : s.find? env name.lexeme with _ | found
  · have hunbound := hs.find?_eq_none_iff.1 hfind
    simp only [reduceCtorEq, false_iff, not_exists, not_and]
    exact fun hops found hbound => absurd hbound.has (hunbound hops found hbound.environmentAt)
  · simp only [Except.ok.injEq]
    constructor
    · rintro rfl
      obtain ⟨hops, hbound⟩ := hs.find?_eq_some_iff.1 hfind
      exact ⟨hops, found, hbound, rfl⟩
    · rintro ⟨hops, other, hbound, rfl⟩
      have hother := hs.find?_eq_some_iff.2 ⟨hops, hbound⟩
      obtain rfl := Option.some.inj (hfind.symm.trans hother)
      rfl

theorem Aged.chained (hs : s.Aged) : s.Chained where
  enclosing := Subrelation.wf (fun {outer env} => hs.environments env outer) wellFounded_lt
  superclass := Subrelation.wf (fun {parent cls} => hs.classes cls parent) wellFounded_lt
  get _ _ _ := hs.environments.get_eq_ok_iff
  assign _ _ _ _ := hs.environments.assign_eq_ok_iff
  unbound env name hunbound := by
    have hfind := hs.environments.find?_eq_none_iff.2 hunbound
    exact ⟨get_eq_error hfind, fun value => by rw [Store.assign, holder, hfind]⟩
  method _ _ _ := findMethod?_eq_some_iff
  noMethod _ _ := findMethod?_eq_none_iff

end Store

end Lox
