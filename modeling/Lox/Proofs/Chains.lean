import Mathlib.Tactic
import Lox.Machine
import Lox.Proofs.Covering

/-!
# Bindings on a chain of environments

A name is read and set in two ways: by a search outward for the nearest environment that binds it,
and at a given distance. The search ends at the least distance at which the chain binds the name
(`BoundAt`, `Older.find?_eq_some_iff`), so at that distance the two ways are one.

The search is bounded by the number of environments. It needs no more where an environment is
younger than the one around it (`Older`). So it is in every store that the operations lead to
(`Built.older`), however environments share the ones around them. Setting a binding changes no link
and no name (`Sets`), so every search ends where it ended before (`Sets.boundAt`): those that end at
the binding read the new value, and the others what they read before (`Sets.get_eq`).
-/

namespace Lox

/-! ## Names of a table -/

namespace Table

variable {β : Type}

theorem names_insertEntry {name : String} {value : β} : ∀ {entries : List (String × β)},
    (findEntry name entries).isSome →
      (insertEntry name value entries).map (·.1) = entries.map (·.1)
  | [], h => by simp [findEntry] at h
  | (key, old) :: rest, h => by
    by_cases hkey : key = name
    · simp [insertEntry, hkey]
    · rw [findEntry, if_neg hkey] at h
      simp [insertEntry, hkey, names_insertEntry h]

/-- Setting a name that is there keeps the names. -/
theorem names_insert {t : Table β} {name : String} {value : β} (h : t.contains name = true) :
    (t.insert name value).names = t.names :=
  names_insertEntry h

end Table

namespace Store

/-- The stores that come from one without environments by making environments, within others or
not, and by declaring and setting names. -/
inductive Built : Store → Prop
  | start {s : Store} : s.environments = #[] → Built s
  | new {s : Store} {outer : Option Nat} : Built s → (∀ id ∈ outer, id < s.environments.size) →
      Built (s.newEnvironment ⟨.empty, outer⟩).2
  | define {s : Store} {env : Nat} {name : String} {value : Value} : Built s →
      env < s.environments.size → Built (s.define env name value)
  | assign {s s' : Store} {env : Nat} {name : Token} {value : Value} : Built s →
      s.assign env name value = .ok s' → Built s'
  | assignAt {s s' : Store} {hops env : Nat} {name : String} {value : Value} : Built s →
      s.assignAt hops env name value = .ok s' → Built s'

/-- What is around an environment is older than it. -/
def Older (s : Store) : Prop :=
  ∀ id outer, (s.environment id).enclosing = some outer → outer < id

/-- The least distance at which the environment's chain binds the name, and the environment
there. -/
@[mk_iff]
structure BoundAt (s : Store) (env : Nat) (name : String) (hops found : Nat) : Prop where
  environmentAt : s.environmentAt hops env = .ok found
  has : s.Has found name
  least : ∀ i < hops, ∀ id, s.environmentAt i env = .ok id → ¬ s.Has id name

/-- No environment of the chain binds the name. -/
def UnboundFrom (s : Store) (env : Nat) (name : String) : Prop :=
  ∀ hops id, s.environmentAt hops env = .ok id → ¬ s.Has id name

/-- The second store is the first with one binding, which was there before, set to a value. -/
structure Sets (s s' : Store) (found : Nat) (name : String) (value : Value) : Prop where
  binding : (s'.environment found).bindings.get? name = some value
  others : ∀ id x, id ≠ found ∨ x ≠ name →
    (s'.environment id).bindings.get? x = (s.environment id).bindings.get? x
  names : ∀ id, (s'.environment id).bindings.names = (s.environment id).bindings.names
  enclosing : ∀ id, (s'.environment id).enclosing = (s.environment id).enclosing
  size : s'.environments.size = s.environments.size
  functions : s'.functions = s.functions
  classes : s'.classes = s.classes
  instances : s'.instances = s.instances
  natives : s'.natives = s.natives

variable {s s' : Store} {env hops found : Nat} {name : String} {value : Value}

instance (s : Store) (env : Nat) (name : String) : Decidable (s.Has env name) :=
  inferInstanceAs (Decidable (_ = true))

/-! ## Chains end -/

theorem environment_of_size_le (h : s.environments.size ≤ env) : s.environment env = {} := by
  simp [environment, Array.getElem?_eq_none h]

theorem Has.lt (h : s.Has env name) : env < s.environments.size := by
  by_contra hlt
  rw [Has, environment_of_size_le (Nat.le_of_not_lt hlt)] at h
  cases h

/-- An assignment declares a name anew where it is bound. -/
theorem exists_define_of_assign {token : Token} (h : s.assign env token value = .ok s') :
    ∃ found, s' = s.define found token.lexeme value := by
  rw [Store.assign] at h
  split at h
  · exact ⟨_, (Except.ok.inj h).symm⟩
  · cases h

theorem exists_define_of_assignAt (h : s.assignAt hops env name value = .ok s') :
    ∃ found, s' = s.define found name value := by
  rw [Store.assignAt] at h
  split at h
  · cases h
  · exact ⟨_, (Except.ok.inj h).symm⟩

theorem Built.older (hs : s.Built) : s.Older := by
  induction hs with
  | start hnone =>
    intro id outer houter
    rw [environment_of_size_le (by simp [hnone])] at houter
    cases houter
  | new _ hlt ih =>
    intro id outer houter
    rw [environment_newEnvironment] at houter
    split at houter
    · rename_i hid
      exact hid ▸ hlt outer houter
    · exact ih id outer houter
  | define _ _ ih => simpa [Older] using ih
  | assign _ hassign ih =>
    obtain ⟨found, rfl⟩ := exists_define_of_assign hassign
    simpa [Older] using ih
  | assignAt _ hassign ih =>
    obtain ⟨found, rfl⟩ := exists_define_of_assignAt hassign
    simpa [Older] using ih

/-- The way out leads to an environment that is older by at least its length. -/
theorem Older.add_le (hs : s.Older) :
    ∀ {hops env : Nat}, s.environmentAt hops env = .ok found → found + hops ≤ env
  | 0, env, h => (Except.ok.inj h).symm.le
  | hops + 1, env, h => by
    obtain ⟨outer, houter, hrest⟩ := exists_enclosing h
    have hle := hs.add_le hrest
    have hlt := hs env outer houter
    omega

/-- No way out is longer than there are environments. -/
theorem Older.le_size (hs : s.Older) (h : s.environmentAt hops env = .ok found) :
    hops ≤ s.environments.size := by
  cases hops with
  | zero => exact Nat.zero_le _
  | succ hops =>
    have henv : env < s.environments.size := by
      by_contra hlt
      obtain ⟨outer, houter, -⟩ := exists_enclosing h
      rw [environment_of_size_le (Nat.le_of_not_lt hlt)] at houter
      cases houter
    have hle := hs.add_le h
    omega

/-! ## Search by name -/

theorem boundAt_zero : s.BoundAt env name 0 found ↔ s.Has env name ∧ found = env := by
  constructor
  · rintro ⟨hat, hhas, -⟩
    cases hat
    exact ⟨hhas, rfl⟩
  · rintro ⟨hhas, rfl⟩
    exact ⟨rfl, hhas, fun i hi => absurd hi (Nat.not_lt_zero i)⟩

theorem boundAt_succ : s.BoundAt env name (hops + 1) found ↔
    ¬ s.Has env name ∧
      ∃ outer, (s.environment env).enclosing = some outer ∧ s.BoundAt outer name hops found := by
  constructor
  · rintro ⟨hat, hhas, hleast⟩
    obtain ⟨outer, houter, hrest⟩ := exists_enclosing hat
    refine ⟨hleast 0 (Nat.succ_pos hops) env rfl, outer, houter, hrest, hhas, ?_⟩
    intro i hi id hid
    exact hleast (i + 1) (Nat.succ_lt_succ hi) id ((environmentAt_succ houter i).trans hid)
  · rintro ⟨hnot, outer, houter, hrest, hhas, hleast⟩
    refine ⟨(environmentAt_succ houter hops).trans hrest, hhas, ?_⟩
    intro i hi id hid
    cases i with
    | zero =>
      cases hid
      exact hnot
    | succ i =>
      exact hleast i (Nat.lt_of_succ_lt_succ hi) id ((environmentAt_succ houter i).symm.trans hid)

theorem findWithin_eq_some_iff : ∀ {steps env : Nat},
    s.findWithin name steps env = some found ↔ ∃ hops < steps, s.BoundAt env name hops found
  | 0, env => by simp [findWithin]
  | steps + 1, env => by
    rw [Nat.exists_lt_succ_left, boundAt_zero, findWithin]
    simp only [boundAt_succ]
    by_cases hhas : s.Has env name
    · have hcontains : (s.environment env).bindings.contains name = true := hhas
      simp [hhas, hcontains, eq_comm]
    · have hcontains : ¬ (s.environment env).bindings.contains name = true := hhas
      rcases houter : (s.environment env).enclosing with _ | outer
      · simp [hhas, hcontains]
      · simp [hhas, hcontains, findWithin_eq_some_iff]

/-- The search ends at the least distance at which the name is bound. -/
theorem Older.find?_eq_some_iff (hs : s.Older) :
    s.find? env name = some found ↔ ∃ hops, s.BoundAt env name hops found := by
  rw [find?, findWithin_eq_some_iff]
  exact exists_congr fun hops =>
    and_iff_right_of_imp fun h => Nat.lt_succ_of_le (hs.le_size h.environmentAt)

/-- What is bound at some distance is bound at a least one. -/
theorem exists_boundAt {id : Nat} (hat : s.environmentAt hops env = .ok id) (hhas : s.Has id name) :
    ∃ least found, s.BoundAt env name least found := by
  classical
  have hsome : ∃ hops id, s.environmentAt hops env = .ok id ∧ s.Has id name :=
    ⟨hops, id, hat, hhas⟩
  obtain ⟨found, hfound, hhas⟩ := Nat.find_spec hsome
  exact ⟨Nat.find hsome, found, hfound, hhas,
    fun i hi id hid hi' => Nat.find_min hsome hi ⟨id, hid, hi'⟩⟩

theorem Older.find?_eq_none_iff (hs : s.Older) :
    s.find? env name = none ↔ s.UnboundFrom env name := by
  rw [Option.eq_none_iff_forall_ne_some]
  simp only [ne_eq, hs.find?_eq_some_iff, not_exists]
  constructor
  · intro hnone hops id hat hhas
    obtain ⟨least, found, hfound⟩ := exists_boundAt hat hhas
    exact hnone found least hfound
  · intro hnone found hops hfound
    exact hnone hops found hfound.environmentAt hfound.has

theorem Built.find?_eq_some_iff (hs : s.Built) :
    s.find? env name = some found ↔ ∃ hops, s.BoundAt env name hops found :=
  hs.older.find?_eq_some_iff

theorem Built.find?_eq_none_iff (hs : s.Built) :
    s.find? env name = none ↔ s.UnboundFrom env name :=
  hs.older.find?_eq_none_iff

/-! ## Access at a distance -/

theorem BoundAt.holderAt (h : s.BoundAt env name hops found) :
    s.holderAt hops env name = .ok found := by
  have hcontains : (s.environment found).bindings.contains name = true := h.has
  simp [Store.holderAt, h.environmentAt, hcontains]

theorem BoundAt.assignAt (h : s.BoundAt env name hops found) (value : Value) :
    s.assignAt hops env name value = .ok (s.define found name value) := by
  rw [Store.assignAt, h.holderAt]

theorem BoundAt.getAt {old : Value} (h : s.BoundAt env name hops found)
    (hold : (s.environment found).bindings.get? name = some old) :
    s.getAt hops env name = .ok old := by
  simp [Store.getAt, h.environmentAt, hold]

/-! ## Setting one binding -/

theorem sets_define (h : s.Has found name) (value : Value) :
    s.Sets (s.define found name value) found name value where
  binding := by simp [environment_define, h.lt]
  others := by
    intro id x hother
    rw [environment_define]
    split
    · rename_i hid
      have hx : x ≠ name := hother.resolve_left (not_not_intro hid.1.symm)
      simp [hx]
    · rfl
  names := by
    intro id
    rw [environment_define]
    split
    · rename_i hid
      obtain ⟨rfl, -⟩ := hid
      exact Table.names_insert h
    · rfl
  enclosing := by simp
  size := by simp
  functions := rfl
  classes := rfl
  instances := rfl
  natives := rfl

section Sets

variable (h : s.Sets s' found name value)

include h

theorem Sets.has (hhas : s.Has found name) (id : Nat) (x : String) : s'.Has id x ↔ s.Has id x := by
  by_cases hother : id ≠ found ∨ x ≠ name
  · simp [Has, Table.contains, h.others id x hother]
  · obtain ⟨rfl, rfl⟩ : id = found ∧ x = name := by simpa using hother
    exact iff_of_true (Option.isSome_iff_exists.2 ⟨value, h.binding⟩) hhas

theorem Sets.environmentAt (hops env : Nat) :
    s'.environmentAt hops env = s.environmentAt hops env := by
  have hancestor : ∀ start, s'.ancestor hops start = s.ancestor hops start := by
    induction hops with
    | zero => exact fun start => rfl
    | succ hops ih =>
      rintro (_ | id)
      · rfl
      · rw [ancestor, ancestor, h.enclosing, ih]
  rw [Store.environmentAt, hancestor, Store.environmentAt]

/-- Every search ends where it ended before. -/
theorem Sets.boundAt (hhas : s.Has found name) (env : Nat) (x : String) (hops id : Nat) :
    s'.BoundAt env x hops id ↔ s.BoundAt env x hops id := by
  simp only [boundAt_iff, h.environmentAt, h.has hhas]

theorem Sets.find? (hs : s.Built) (hs' : s'.Built) (hhas : s.Has found name) (env : Nat)
    (x : String) : s'.find? env x = s.find? env x := by
  ext id
  rw [hs'.find?_eq_some_iff, hs.find?_eq_some_iff]
  exact exists_congr fun hops => h.boundAt hhas env x hops id

end Sets

theorem get_eq_ok {token : Token} (hfind : s.find? env token.lexeme = some found)
    (hvalue : (s.environment found).bindings.get? token.lexeme = some value) :
    s.get env token = .ok value := by
  simp [Store.get, hfind, hvalue]

theorem get_eq_error {token : Token} (hfind : s.find? env token.lexeme = none) :
    s.get env token = .error ⟨token, .undefinedVariable token.lexeme⟩ := by
  simp [Store.get, hfind]

/-- A search that does not end at the binding reads what it read before. -/
theorem Sets.get_eq {token : Token} (h : s.Sets s' found name value)
    (hfind : s'.find? env token.lexeme = s.find? env token.lexeme)
    (hother : token.lexeme = name → s.find? env name ≠ some found) :
    s'.get env token = s.get env token := by
  rw [Store.get, Store.get, hfind]
  rcases hid : s.find? env token.lexeme with _ | id
  · rfl
  · have hne : id ≠ found ∨ token.lexeme ≠ name := by
      by_contra hsame
      obtain ⟨rfl, hname⟩ : id = found ∧ token.lexeme = name := by simpa using hsame
      exact hother hname (hname ▸ hid)
    simp only [Option.bind_some, h.others id token.lexeme hne]

/-- Reading a name by search and at the least distance that binds it is the same, and so is setting
it. What is set is one binding: every search for the name that ends there reads the new value, and
every other search reads what it read before. A name that the chain does not bind can neither be
read nor set, and a machine that tries to stays as it is. -/
theorem search_agrees_with_distance (hs : s.Built) (env : Nat) (name : Token) :
    (∀ hops found, s.BoundAt env name.lexeme hops found →
      (∃ old, (s.environment found).bindings.get? name.lexeme = some old ∧
        s.get env name = .ok old ∧ s.getAt hops env name.lexeme = .ok old) ∧
      ∀ value, ∃ s', s.assign env name value = .ok s' ∧
        s.assignAt hops env name.lexeme value = .ok s' ∧
        s.Sets s' found name.lexeme value ∧
        (∀ other (x : Token), x.lexeme = name.lexeme →
          (∃ i, s.BoundAt other x.lexeme i found) → s'.get other x = .ok value) ∧
        ∀ other (x : Token), (x.lexeme = name.lexeme → ¬ ∃ i, s.BoundAt other x.lexeme i found) →
          s'.get other x = s.get other x) ∧
    (s.UnboundFrom env name.lexeme →
      s.get env name = .error ⟨name, .undefinedVariable name.lexeme⟩ ∧
      ∀ value, s.assign env name value = .error ⟨name, .undefinedVariable name.lexeme⟩ ∧
        ∀ m : Machine, m.store = s → m.environment = env →
          Eval.assignNearest name value m =
            .error (.error ⟨name, .undefinedVariable name.lexeme⟩) m) := by
  constructor
  · intro hops found hbound
    have hfind : s.find? env name.lexeme = some found := hs.find?_eq_some_iff.2 ⟨hops, hbound⟩
    obtain ⟨old, hold⟩ := hbound.has.get?
    refine ⟨⟨old, hold, get_eq_ok hfind hold, hbound.getAt hold⟩, fun value => ?_⟩
    have hset := sets_define hbound.has value
    have hbuilt : (s.define found name.lexeme value).Built := hs.define hbound.has.lt
    have hends := hset.find? hs hbuilt hbound.has
    have hassign : s.assign env name value = .ok (s.define found name.lexeme value) := by
      rw [Store.assign, holder, hfind]
    refine ⟨_, hassign, hbound.assignAt value, hset, ?_, ?_⟩
    · intro other x hx hthere
      refine get_eq_ok ((hends other x.lexeme).trans (hs.find?_eq_some_iff.2 hthere)) ?_
      rw [hx]
      exact hset.binding
    · intro other x hother
      refine hset.get_eq (hends other x.lexeme) fun hx hthere => ?_
      exact hother hx (hs.find?_eq_some_iff.1 (hx ▸ hthere))
  · intro hunbound
    have hfind : s.find? env name.lexeme = none := hs.find?_eq_none_iff.2 hunbound
    have hholder : s.holder env name = .error ⟨name, .undefinedVariable name.lexeme⟩ := by
      rw [holder, hfind]
    refine ⟨get_eq_error hfind, fun value => ⟨by rw [Store.assign, hholder], ?_⟩⟩
    rintro m rfl rfl
    rw [Eval.assignNearest, hholder]

/-- Two environments within the globals: one hides the global name, and another is within the one
that does not. -/
def shared : Store :=
  let s := (({} : Store).newEnvironment ⟨.empty, none⟩).2.define 0 "x" (.bool true)
  let s := (s.newEnvironment ⟨.empty, some 0⟩).2.define 1 "x" .nil
  let s := (s.newEnvironment ⟨.empty, some 0⟩).2
  (s.newEnvironment ⟨.empty, some 2⟩).2

theorem built_shared : shared.Built := by
  refine .new (.new (.define (.new (.define (.new (.start rfl) ?_) ?_) ?_) ?_) ?_) ?_
  all_goals decide

/-- What is set from the innermost environment is seen beside it and not where it is hidden. -/
theorem search_agrees_with_distance_shared :
    shared.Built ∧ shared.BoundAt 3 "x" 2 0 ∧ shared.BoundAt 2 "x" 1 0 ∧
      shared.BoundAt 1 "x" 0 1 ∧ shared.UnboundFrom 3 "y" ∧
    (∃ s', shared.assign 3 ⟨.identifier, "x", .nil, 1⟩ (.bool false) = .ok s' ∧
      shared.assignAt 2 3 "x" (.bool false) = .ok s' ∧
      s'.get 2 ⟨.identifier, "x", .nil, 2⟩ = .ok (.bool false) ∧
      s'.get 1 ⟨.identifier, "x", .nil, 3⟩ = shared.get 1 ⟨.identifier, "x", .nil, 3⟩) ∧
    shared.assign 3 ⟨.identifier, "y", .nil, 1⟩ .nil =
      .error ⟨⟨.identifier, "y", .nil, 1⟩, .undefinedVariable "y"⟩ := by
  have hbeside : shared.BoundAt 2 "x" 1 0 :=
    boundAt_succ.2 ⟨by decide, 0, rfl, boundAt_zero.2 (by decide)⟩
  have hglobal : shared.BoundAt 3 "x" 2 0 := boundAt_succ.2 ⟨by decide, 2, rfl, hbeside⟩
  have hhidden : shared.BoundAt 1 "x" 0 1 := boundAt_zero.2 (by decide)
  have hunbound : shared.UnboundFrom 3 "y" := built_shared.find?_eq_none_iff.1 (by decide)
  have hx := search_agrees_with_distance built_shared 3 ⟨.identifier, "x", .nil, 1⟩
  have hy := search_agrees_with_distance built_shared 3 ⟨.identifier, "y", .nil, 1⟩
  obtain ⟨-, hassign⟩ := hx.1 2 0 hglobal
  obtain ⟨s', hassign, hassignAt, -, hseen, hkept⟩ := hassign (.bool false)
  refine ⟨built_shared, hglobal, hbeside, hhidden, hunbound,
    ⟨s', hassign, hassignAt, hseen 2 _ rfl ⟨1, hbeside⟩, hkept 1 _ ?_⟩,
    ((hy.2 hunbound).2 .nil).1⟩
  rintro - ⟨hops, hthere⟩
  have hfind := built_shared.find?_eq_some_iff.2 ⟨hops, hthere⟩
  have hfind' := built_shared.find?_eq_some_iff.2 ⟨0, hhidden⟩
  cases hfind.symm.trans hfind'

end Store

end Lox
