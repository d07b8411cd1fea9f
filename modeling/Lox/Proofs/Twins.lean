import Mathlib.Tactic
import Lox.Proofs.Alike
import Lox.Proofs.Covering

/-!
# Stores that are twins

Two stores are twins under a change when they have the same objects at the same indices, except
that the environments made for a marked scope have the new name where the others have the old one,
and that functions have declarations that are alike. Each environment is marked or not, and a
function goes by the marks of the environments around it (`Marked`).

A value that is the same on both sides is shared if it is no function, or its closures on both
sides match (`Shares`). Every operation on twins gives twins again, and what was shared stays
shared (`Onward`).
-/

namespace Lox

namespace Table

variable {β : Type} {f : String → String} {t : Table β} {name : String}

/-- The table with its names changed. -/
def rename (f : String → String) (t : Table β) : Table β := ⟨t.entries.map fun e => (f e.1, e.2)⟩

/-- No name of the table is changed to what another is changed to. -/
def Apart (f : String → String) (t : Table β) (name : String) : Prop :=
  ∀ key ∈ t.names, f key = f name → key = name

theorem Apart.tail {entry : String × β} {rest : List (String × β)}
    (h : Apart f ⟨entry :: rest⟩ name) : Apart f ⟨rest⟩ name :=
  fun key hkey => h key (List.mem_cons_of_mem _ hkey)

theorem get?_rename (h : Apart f t name) : (t.rename f).get? (f name) = t.get? name := by
  obtain ⟨entries⟩ := t
  unfold get? rename
  induction entries with
  | nil => rfl
  | cons entry rest ih =>
    obtain ⟨key, value⟩ := entry
    have hkey := h key (by simp [names])
    have hrest := ih h.tail
    simp only [List.map_cons, findEntry] at hrest ⊢
    rw [hrest]
    by_cases hname : key = name
    · simp [hname]
    · rw [if_neg hname, if_neg fun hf => hname (hkey hf)]

theorem contains_rename (h : Apart f t name) :
    (t.rename f).contains (f name) = t.contains name := by
  rw [contains, get?_rename h, contains]

theorem insert_rename (h : Apart f t name) (value : β) :
    (t.rename f).insert (f name) value = (t.insert name value).rename f := by
  obtain ⟨entries⟩ := t
  unfold insert rename
  congr 1
  induction entries with
  | nil => rfl
  | cons entry rest ih =>
    obtain ⟨key, old⟩ := entry
    have hkey := h key (by simp [names])
    have hrest := ih h.tail
    simp only [List.map_cons, insertEntry] at hrest ⊢
    rw [hrest]
    by_cases hname : key = name
    · simp [hname]
    · rw [if_neg hname, if_neg fun hf => hname (hkey hf), List.map_cons]

theorem mem_names_insert {other : String} {value : β} :
    other ∈ (t.insert name value).names ↔ other = name ∨ other ∈ t.names := by
  obtain ⟨entries⟩ := t
  unfold names insert
  induction entries with
  | nil => simp [insertEntry]
  | cons entry rest ih =>
    obtain ⟨key, old⟩ := entry
    simp only [insertEntry]
    split
    · rename_i hkey
      simp [hkey]
    · simp only [List.map_cons, List.mem_cons, ih]
      tauto

theorem mem_names_erase {other : String} :
    other ∈ (t.erase name).names ↔ other ∈ t.names ∧ other ≠ name := by
  simp [names, erase]

theorem names_rename (f : String → String) (t : Table β) : (t.rename f).names = t.names.map f := by
  simp [names, rename]

theorem contains_iff_mem_names : t.contains name = true ↔ name ∈ t.names := by
  obtain ⟨entries⟩ := t
  unfold contains get? names
  induction entries with
  | nil => simp [findEntry]
  | cons entry rest ih =>
    obtain ⟨key, value⟩ := entry
    by_cases hname : key = name
    · simp [findEntry, hname]
    · simp only [findEntry, if_neg hname, ih, List.map_cons, List.mem_cons]
      tauto

theorem rename_id (t : Table β) (h : ∀ name, f name = name) : t.rename f = t := by
  obtain ⟨entries⟩ := t
  simp [rename, h]

end Table

/-! ## Environments -/

/-- The environments have the same bindings, up to the name that changes. -/
structure Change.EnvironmentTwin (c : Change) (marked : Bool) (e e' : Environment) : Prop where
  enclosing : e'.enclosing = e.enclosing
  bindings : e'.bindings = e.bindings.rename (c.rename marked)
  fresh : marked = true → c.new ∉ e.bindings.names

namespace Change.EnvironmentTwin

variable {c : Change} {marked : Bool} {e e' : Environment} {name : String}

theorem apart (h : c.EnvironmentTwin marked e e') (hname : marked = true → name ≠ c.new) :
    e.bindings.Apart (c.rename marked) name := by
  intro key hkey hrename
  refine (rename_inj (fun hmarked heq => ?_) hname).1 hrename
  exact h.fresh hmarked (heq ▸ hkey)

theorem get?_eq (h : c.EnvironmentTwin marked e e') (name : String)
    (hname : marked = true → name ≠ c.new) :
    e'.bindings.get? (c.rename marked name) = e.bindings.get? name := by
  rw [h.bindings, Table.get?_rename (h.apart hname)]

theorem contains_eq (h : c.EnvironmentTwin marked e e') (name : String)
    (hname : marked = true → name ≠ c.new) :
    e'.bindings.contains (c.rename marked name) = e.bindings.contains name := by
  rw [h.bindings, Table.contains_rename (h.apart hname)]

theorem insert (h : c.EnvironmentTwin marked e e') (hname : marked = true → name ≠ c.new)
    (v : Value) :
    c.EnvironmentTwin marked { e with bindings := e.bindings.insert name v }
      { e' with bindings := e'.bindings.insert (c.rename marked name) v } := by
  refine ⟨h.enclosing, ?_, fun hmarked hmem => ?_⟩
  · show e'.bindings.insert _ v = _
    rw [h.bindings, Table.insert_rename (h.apart hname)]
  · rcases Table.mem_names_insert.1 hmem with heq | hmem
    · exact hname hmarked heq.symm
    · exact h.fresh hmarked hmem

/-- An environment without a mark is its own twin. -/
theorem self (e : Environment) : c.EnvironmentTwin false e e :=
  ⟨rfl, (Table.rename_id _ rename_false).symm, nofun⟩

end Change.EnvironmentTwin

/-! ## Marks along a chain -/

namespace Store

/-- The environment and those around it have the marks, and the chain then ends at the globals. -/
def Marked (s : Store) (M : Nat → Bool) : List Bool → Nat → Prop
  | [], env => env = globals
  | marked :: L, env => env < s.environments.size ∧ M env = marked ∧
      ∃ outer, (s.environment env).enclosing = some outer ∧ s.Marked M L outer

/-- The closures match: their declarations are alike where they stand, within the scopes that they
still have to be given. -/
structure Matches (c : Change) (M : Nat → Bool) (s : Store) (missing : List Bool) (f f' : Closure) :
    Prop where
  environment : f'.environment = f.environment
  isInitializer : f'.isInitializer = f.isInitializer
  declaration : ∃ L marked name name' params params' body body', s.Marked M L f.environment ∧
    f.declaration = .function name params body ∧ f'.declaration = .function name' params' body' ∧
    c.Alike name name' ∧ params.Forall₂ (c.Named marked) params' ∧
    Node.LikeAll c (marked :: (missing ++ L)) body body'

/-- The value means the same in both stores. -/
def Shares (c : Change) (M : Nat → Bool) (s s' : Store) : Value → Prop
  | .function id => ∃ f f', s.closure? id = some f ∧ s'.closure? id = some f' ∧
      Matches c M s [] f f'
  | _ => True

structure Twin (c : Change) (M : Nat → Bool) (s s' : Store) : Prop where
  size : s'.environments.size = s.environments.size
  environments : ∀ id, c.EnvironmentTwin (M id) (s.environment id) (s'.environment id)
  functions : s'.functions.size = s.functions.size
  classes : s'.classes = s.classes
  instances : s'.instances = s.instances
  natives : s'.natives = s.natives
  globals_lt : globals < s.environments.size
  globals_marked : M globals = false
  outermost : (s.environment globals).enclosing = none
  bindings : ∀ env name v, (s.environment env).bindings.get? name = some v → Shares c M s s' v
  fields : ∀ id i, s.instance? id = some i → ∀ name v, i.fields.get? name = some v →
    Shares c M s s' v
  methods : ∀ id cls, s.class? id = some cls → ∀ name k, cls.methods.get? name = some k →
    ∃ f f', s.closure? k = some f ∧ s'.closure? k = some f' ∧ Matches c M s [false] f f'

/-- Two stores and their marks went on to two later ones. -/
structure Onward (M : Nat → Bool) (s s' : Store) (M₁ : Nat → Bool) (s₁ s₁' : Store) : Prop where
  size : s.environments.size ≤ s₁.environments.size
  enclosing : ∀ id < s.environments.size,
    (s₁.environment id).enclosing = (s.environment id).enclosing
  marks : ∀ id < s.environments.size, M₁ id = M id
  has : ∀ id < s.environments.size, ∀ x, s.Has id x → s₁.Has id x
  closures : ∀ id f, s.closure? id = some f → s₁.closure? id = some f
  closures' : ∀ id f, s'.closure? id = some f → s₁'.closure? id = some f

variable {c : Change} {M M₁ M₂ : Nat → Bool} {s s' s₁ s₁' s₂ s₂' : Store} {L : List Bool}
  {env : Nat}

theorem Onward.refl (M : Nat → Bool) (s s' : Store) : Onward M s s' M s s' :=
  ⟨le_rfl, fun _ _ => rfl, fun _ _ => rfl, fun _ _ _ h => h, fun _ _ h => h, fun _ _ h => h⟩

/-- Other objects may change while environments and functions stay. -/
theorem Onward.of_eq (henvironments : s₁.environments = s.environments)
    (hfunctions : s₁.functions = s.functions) (hfunctions' : s₁'.functions = s'.functions) :
    Onward M s s' M s₁ s₁' := by
  have henv : s₁.environment = s.environment := by
    funext id
    simp [environment, henvironments]
  refine ⟨by rw [henvironments], fun _ _ => by rw [henv], fun _ _ => rfl, fun id _ x hx => ?_,
    fun id f hf => ?_, fun id f hf => ?_⟩
  · rwa [Has, henv]
  · rwa [closure?, hfunctions]
  · rwa [closure?, hfunctions']

theorem Onward.trans (h : Onward M s s' M₁ s₁ s₁') (h' : Onward M₁ s₁ s₁' M₂ s₂ s₂') :
    Onward M s s' M₂ s₂ s₂' := by
  refine ⟨h.size.trans h'.size, fun id hid => ?_, fun id hid => ?_,
    fun id hid x hx => h'.has id (hid.trans_le h.size) x (h.has id hid x hx),
    fun id f hf => h'.closures id f (h.closures id f hf),
    fun id f hf => h'.closures' id f (h.closures' id f hf)⟩
  · rw [h'.enclosing id (hid.trans_le h.size), h.enclosing id hid]
  · rw [h'.marks id (hid.trans_le h.size), h.marks id hid]

theorem Marked.onward (h : Onward M s s' M₁ s₁ s₁') :
    ∀ {L : List Bool} {env : Nat}, s.Marked M L env → s₁.Marked M₁ L env
  | [], _, hL => hL
  | marked :: L, env, hL => by
    obtain ⟨hlt, hmark, outer, houter, hrest⟩ := hL
    refine ⟨hlt.trans_le h.size, ?_, outer, ?_, hrest.onward h⟩
    · rw [h.marks env hlt, hmark]
    · rw [h.enclosing env hlt, houter]

theorem Matches.onward {missing : List Bool} {f f' : Closure} (h : Onward M s s' M₁ s₁ s₁')
    (hf : Matches c M s missing f f') : Matches c M₁ s₁ missing f f' := by
  obtain ⟨henv, hinit, L, marked, name, name', params, params', body, body', hL, hrest⟩ := hf
  exact ⟨henv, hinit, L, marked, name, name', params, params', body, body', hL.onward h, hrest⟩

theorem Shares.onward {v : Value} (h : Onward M s s' M₁ s₁ s₁') (hv : Shares c M s s' v) :
    Shares c M₁ s₁ s₁' v := by
  cases v with
  | function id =>
    obtain ⟨f, f', hf, hf', hmatches⟩ := hv
    exact ⟨f, f', h.closures id f hf, h.closures' id f' hf', hmatches.onward h⟩
  | _ => trivial

/-! ## Lookup -/

theorem Twin.ancestor_eq (h : Twin c M s s') (hops : Nat) (start : Option Nat) :
    s'.ancestor hops start = s.ancestor hops start := by
  induction hops generalizing start with
  | zero => simp [ancestor]
  | succ hops ih =>
    cases start with
    | none => simp [ancestor]
    | some env => simp [ancestor, ih, (h.environments env).enclosing]

theorem Twin.environmentAt_eq (h : Twin c M s s') (hops env : Nat) :
    s'.environmentAt hops env = s.environmentAt hops env := by
  simp only [environmentAt, h.ancestor_eq]

/-- The environment that is found has the mark of its distance. -/
theorem Marked.mark_eq (h : Twin c M s s') : ∀ {L : List Bool} {env : Nat}, s.Marked M L env →
    ∀ {hops found : Nat}, s.environmentAt hops env = .ok found →
    M found = Change.mark L (some hops)
  | [], env, hL, 0, found, hfound => by
    obtain rfl : env = found := by simpa [environmentAt, ancestor] using hfound
    rw [show env = globals from hL, h.globals_marked]
    rfl
  | marked :: L, env, hL, 0, found, hfound => by
    obtain rfl : env = found := by simpa [environmentAt, ancestor] using hfound
    exact hL.2.1
  | [], env, hL, hops + 1, found, hfound => by
    obtain rfl : env = globals := hL
    rw [environmentAt, ancestor, h.outermost] at hfound
    cases hops <;> simp [ancestor] at hfound
  | marked :: L, env, hL, hops + 1, found, hfound => by
    obtain ⟨-, -, outer, houter, hrest⟩ := hL
    rw [environmentAt, ancestor, houter] at hfound
    exact hrest.mark_eq h hfound

theorem Marked.lt (h : Twin c M s s') (hL : s.Marked M L env) : env < s.environments.size := by
  cases L with
  | nil =>
    rw [show env = globals from hL]
    exact h.globals_lt
  | cons marked L => exact hL.1

theorem Marked.headD_eq (h : Twin c M s s') (hL : s.Marked M L env) :
    M env = L.headD false := by
  cases L with
  | nil =>
    rw [show env = globals from hL, h.globals_marked]
    rfl
  | cons marked L => exact hL.2.1

/-- A global is found in the outermost environment or nowhere. -/
theorem find?_globals (h : (s.environment globals).enclosing = none) (name : String) :
    s.find? globals name =
      if (s.environment globals).bindings.contains name then some globals else none := by
  simp only [find?, findWithin, h]

theorem get_globals (h : (s.environment globals).enclosing = none) (name : Token) :
    s.get globals name = match (s.environment globals).bindings.get? name.lexeme with
      | some value => .ok value
      | none => .error ⟨name, .undefinedVariable name.lexeme⟩ := by
  rw [Store.get, find?_globals h]
  rcases hget : (s.environment globals).bindings.get? name.lexeme with _ | v <;>
    simp [Table.contains, hget]

theorem holder_globals (h : (s.environment globals).enclosing = none) (name : Token) :
    s.holder globals name = if (s.environment globals).bindings.contains name.lexeme then
      .ok globals else .error ⟨name, .undefinedVariable name.lexeme⟩ := by
  rw [holder, find?_globals h]
  split <;> rename_i hfound <;> split at hfound <;> simp_all

theorem Twin.outermost' (h : Twin c M s s') : (s'.environment globals).enclosing = none :=
  (h.environments globals).enclosing.trans h.outermost

theorem Twin.get?_globals (h : Twin c M s s') (name : String) :
    (s'.environment globals).bindings.get? name = (s.environment globals).bindings.get? name := by
  have hget := (h.environments globals).get?_eq name (by simp [h.globals_marked])
  rwa [h.globals_marked, Change.rename_false] at hget

theorem Twin.contains_globals (h : Twin c M s s') (name : String) :
    (s'.environment globals).bindings.contains name =
      (s.environment globals).bindings.contains name := by
  simp only [Table.contains, h.get?_globals]

/-! ## Operations -/

/-- What went on from twins are twins if all that is new in them is shared. -/
theorem Twin.of_onward (h : Twin c M s s') (honward : Onward M s s' M₁ s₁ s₁')
    (hsize : s₁'.environments.size = s₁.environments.size)
    (henvironments : ∀ id, c.EnvironmentTwin (M₁ id) (s₁.environment id) (s₁'.environment id))
    (hfunctions : s₁'.functions.size = s₁.functions.size) (hclasses : s₁'.classes = s₁.classes)
    (hinstances : s₁'.instances = s₁.instances) (hnatives : s₁'.natives = s₁.natives)
    (hbindings : ∀ env name v, (s₁.environment env).bindings.get? name = some v →
      (s.environment env).bindings.get? name = some v ∨ Shares c M₁ s₁ s₁' v)
    (hfields : ∀ id i, s₁.instance? id = some i → ∀ name v, i.fields.get? name = some v →
      Shares c M s s' v)
    (hmethods : ∀ id cls, s₁.class? id = some cls → ∀ name k, cls.methods.get? name = some k →
      ∃ f f', s.closure? k = some f ∧ s'.closure? k = some f' ∧ Matches c M s [false] f f') :
    Twin c M₁ s₁ s₁' := by
  refine ⟨hsize, henvironments, hfunctions, hclasses, hinstances, hnatives,
    h.globals_lt.trans_le honward.size, ?_, ?_, fun env name v hv => ?_,
    fun id i hi name v hv => (hfields id i hi name v hv).onward honward,
    fun id cls hcls name k hk => ?_⟩
  · rw [honward.marks _ h.globals_lt, h.globals_marked]
  · rw [honward.enclosing _ h.globals_lt, h.outermost]
  · rcases hbindings env name v hv with hold | hnew
    · exact (h.bindings env name v hold).onward honward
    · exact hnew
  · obtain ⟨f, f', hf, hf', hmatches⟩ := hmethods id cls hcls name k hk
    exact ⟨f, f', honward.closures k f hf, honward.closures' k f' hf', hmatches.onward honward⟩

theorem onward_define (M : Nat → Bool) (s s' : Store) (env : Nat) (name name' : String)
    (v : Value) : Onward M s s' M (s.define env name v) (s'.define env name' v) :=
  ⟨by simp, by simp, fun _ _ => rfl,
    fun id hid x hx => (has_define s env name v hid x).2 (.inl hx), fun _ _ h => h,
    fun _ _ h => h⟩

theorem Twin.define (h : Twin c M s s') (env : Nat) {name : String} {v : Value}
    (hname : M env = true → name ≠ c.new) (hv : Shares c M s s' v) :
    Twin c M (s.define env name v) (s'.define env (c.rename (M env) name) v) := by
  have honward := onward_define M s s' env name (c.rename (M env) name) v
  refine h.of_onward honward (by simp [h.size]) (fun id => ?_) h.functions h.classes h.instances
    h.natives (fun id x w hw => ?_) h.fields h.methods
  · rw [environment_define, environment_define, h.size]
    split
    · rename_i hid
      obtain ⟨rfl, -⟩ := hid
      exact (h.environments env).insert hname v
    · exact h.environments id
  · rw [environment_define] at hw
    split at hw
    · rw [Table.get?_insert] at hw
      split at hw
      · cases hw
        exact .inr (hv.onward honward)
      · exact .inl hw
    · exact .inl hw

/-- The marks with one for the next environment. -/
def marksWith (s : Store) (M : Nat → Bool) (marked : Bool) : Nat → Bool :=
  Function.update M s.environments.size marked

theorem onward_newEnvironment (M : Nat → Bool) (s s' : Store) (marked : Bool)
    (e e' : Environment) :
    Onward M s s' (s.marksWith M marked) (s.newEnvironment e).2 (s'.newEnvironment e').2 := by
  refine ⟨by simp [newEnvironment], fun id hid => ?_, fun id hid => ?_, fun id hid x hx => ?_,
    fun _ _ h => h, fun _ _ h => h⟩
  · rw [environment_newEnvironment, if_neg (by omega)]
  · rw [marksWith, Function.update_of_ne (by omega)]
  · exact ((grows_newEnvironment s 0 e).has id hid x).2 (.inl hx)

theorem Twin.newEnvironment (h : Twin c M s s') {marked : Bool} {e e' : Environment}
    (he : c.EnvironmentTwin marked e e')
    (hvalues : ∀ name v, e.bindings.get? name = some v → Shares c M s s' v) :
    Twin c (s.marksWith M marked) (s.newEnvironment e).2 (s'.newEnvironment e').2 := by
  have honward := onward_newEnvironment M s s' marked e e'
  refine h.of_onward honward (by simp [Store.newEnvironment, h.size]) (fun id => ?_) h.functions
    h.classes h.instances h.natives (fun id x w hw => ?_) h.fields h.methods
  · rw [environment_newEnvironment, environment_newEnvironment, h.size]
    split
    · rename_i hid
      rw [marksWith, hid, Function.update_self]
      exact he
    · rename_i hid
      rw [marksWith, Function.update_of_ne hid]
      exact h.environments id
  · rw [environment_newEnvironment] at hw
    split at hw
    · exact .inr ((hvalues x w hw).onward honward)
    · exact .inl hw

/-- A new environment has its mark in front of those around it. -/
theorem Marked.newEnvironment {marked : Bool} {e : Environment} {outer : Nat}
    (hL : s.Marked M L outer) (henclosing : e.enclosing = some outer) :
    (s.newEnvironment e).2.Marked (s.marksWith M marked) (marked :: L) s.environments.size := by
  refine ⟨by simp [Store.newEnvironment], Function.update_self .., outer, ?_,
    hL.onward (onward_newEnvironment M s s marked e e)⟩
  rw [environment_newEnvironment, if_pos rfl, henclosing]

theorem onward_newFunction (M : Nat → Bool) (s s' : Store) (f f' : Closure) :
    Onward M s s' M (s.newFunction f).2 (s'.newFunction f').2 := by
  have hkeep : ∀ (s : Store) (f : Closure) id g, s.closure? id = some g →
      (s.newFunction f).2.closure? id = some g :=
    fun s f id g hg => (grows_newFunction s 0 f).closures id g hg
  exact ⟨le_rfl, fun _ _ => rfl, fun _ _ => rfl, fun _ _ _ h => h, hkeep s f, hkeep s' f'⟩

theorem Twin.newFunction (h : Twin c M s s') (f f' : Closure) :
    Twin c M (s.newFunction f).2 (s'.newFunction f').2 :=
  h.of_onward (onward_newFunction M s s' f f') h.size h.environments
    (by simp [Store.newFunction, h.functions]) h.classes h.instances h.natives
    (fun _ _ _ => .inl) h.fields h.methods

/-- A new function is shared if its closures match. -/
theorem Twin.shares_newFunction (h : Twin c M s s') {f f' : Closure}
    (hf : Matches c M s [] f f') :
    Shares c M (s.newFunction f).2 (s'.newFunction f').2 (.function s.functions.size) := by
  refine ⟨f, f', ?_, ?_, hf.onward (onward_newFunction M s s' f f')⟩
  · rw [closure?_newFunction, if_pos rfl]
  · rw [closure?_newFunction, if_pos h.functions.symm]

theorem Twin.newClass (h : Twin c M s s') {cls : Class}
    (hmethods : ∀ name k, cls.methods.get? name = some k →
      ∃ f f', s.closure? k = some f ∧ s'.closure? k = some f' ∧ Matches c M s [false] f f') :
    Twin c M (s.newClass cls).2 (s'.newClass cls).2 := by
  refine h.of_onward (.of_eq rfl rfl rfl)
    h.size h.environments h.functions (by simp [Store.newClass, h.classes]) h.instances h.natives
    (fun _ _ _ => .inl) h.fields fun id d hd x k hk => ?_
  rw [class?_newClass] at hd
  split at hd
  · cases hd
    exact hmethods x k hk
  · exact h.methods id d hd x k hk

theorem Twin.newInstance (h : Twin c M s s') (cls : Nat) :
    Twin c M (s.newInstance ⟨cls, .empty⟩).2 (s'.newInstance ⟨cls, .empty⟩).2 := by
  refine h.of_onward (.of_eq rfl rfl rfl)
    h.size h.environments h.functions h.classes (by simp [Store.newInstance, h.instances])
    h.natives (fun _ _ _ => .inl) (fun id i hi x w hw => ?_) h.methods
  exact h.fields id i (instance?_of_newInstance hi hw) x w hw

theorem Twin.setField (h : Twin c M s s') {name : String} {v : Value} (hv : Shares c M s s' v)
    (inst : Nat) : Twin c M (s.setField inst name v) (s'.setField inst name v) := by
  refine h.of_onward (.of_eq rfl rfl rfl)
    h.size h.environments h.functions h.classes (by simp [Store.setField, h.instances])
    h.natives (fun _ _ _ => .inl) (fun id i hi x w hw => ?_) h.methods
  rcases field_of_setField hi hw with rfl | ⟨old, hold, hw⟩
  · exact hv
  · exact h.fields id old hold x w hw

/-! ## Methods and functions -/

/-- A method is found on both sides or on neither. -/
theorem Twin.method? (h : Twin c M s s') (cls : Nat) (name : String) :
    (s.method? cls name = none ∧ s'.method? cls name = none) ∨
      ∃ f f', s.method? cls name = some f ∧ s'.method? cls name = some f' ∧
        Matches c M s [false] f f' := by
  have hfind : s'.findMethod? cls name = s.findMethod? cls name := by
    simp only [findMethod?, h.classes, findMethodWithin_congr h.classes]
  rcases hk : s.findMethod? cls name with _ | k
  · exact .inl ⟨by simp [Store.method?, hk], by simp [Store.method?, hfind, hk]⟩
  · obtain ⟨id, d, hd, hmethod⟩ := mem_of_findMethodWithin hk
    obtain ⟨f, f', hf, hf', hmatches⟩ := h.methods id d hd name k hmethod
    exact .inr ⟨f, f', by simp [Store.method?, hk, hf], by simp [Store.method?, hfind, hk, hf'],
      hmatches⟩

theorem Matches.arity_eq {missing : List Bool} {f f' : Closure} (h : Matches c M s missing f f') :
    f'.arity = f.arity := by
  obtain ⟨-, -, L, marked, name, name', params, params', body, body', -, hf, hf', -, hparams, -⟩ :=
    h
  simp only [Closure.arity, hf, hf', Node.parameters, Except.map, hparams.length_eq]

theorem Matches.name_eq {missing : List Bool} {f f' : Closure} (h : Matches c M s missing f f') :
    f'.name = f.name := by
  obtain ⟨-, -, L, marked, name, name', params, params', body, body', -, hf, hf', hname, -⟩ := h
  simp [Closure.name, hf, hf', Node.name?, c.lexeme_eq hname]

theorem Twin.arity?_eq (h : Twin c M s s') {v : Value} (hv : Shares c M s s' v) :
    s'.arity? v = s.arity? v := by
  cases v with
  | function id =>
    obtain ⟨f, f', hf, hf', hmatches⟩ := hv
    simp [arity?, hf, hf', hmatches.arity_eq]
  | cls id =>
    rcases h.method? id "init" with ⟨hf, hf'⟩ | ⟨f, f', hf, hf', hmatches⟩
    · simp [arity?, hf, hf']
    · simp [arity?, hf, hf', hmatches.arity_eq]
  | native id => simp [arity?, native?, h.natives]
  | _ => rfl

/-- A shared value is printed alike. -/
theorem Twin.stringify_eq (h : Twin c M s s') {v : Value} (hv : Shares c M s s' v) :
    s'.stringify v = s.stringify v := by
  have hclass : ∀ id, s'.className id = s.className id := fun id => by
    simp [className, class?, h.classes]
  cases v with
  | function id =>
    obtain ⟨f, f', hf, hf', hmatches⟩ := hv
    simp [stringify, hf, hf', hmatches.name_eq]
  | cls id => simp [stringify, hclass]
  | inst id => simp [stringify, hclass, instance?, h.instances]
  | bool b => cases b <;> rfl
  | _ => rfl

/-- A property is the same field on both sides, the same method, or nothing on either. -/
theorem Twin.property (h : Twin c M s s') {name name' : Token} (hname : c.Alike name name')
    (inst : Nat) :
    (∃ v, s.property inst name = .ok (.inl v) ∧ s'.property inst name' = .ok (.inl v) ∧
        Shares c M s s' v) ∨
      (∃ f f', s.property inst name = .ok (.inr f) ∧ s'.property inst name' = .ok (.inr f') ∧
        Matches c M s [false] f f') ∨
      ∃ cause, s.property inst name = .error ⟨name, cause⟩ ∧
        s'.property inst name' = .error ⟨name', cause⟩ := by
  have hinst : s'.instance? inst = s.instance? inst := by simp [instance?, h.instances]
  simp only [Store.property, c.lexeme_eq hname, hinst]
  rcases hfield : ((s.instance? inst).getD default).fields.get? name.lexeme with _ | v
  · rcases h.method? ((s.instance? inst).getD default).cls name.lexeme with
      ⟨hf, hf'⟩ | ⟨f, f', hf, hf', hmatches⟩ <;> simp only [hf, hf']
    · exact .inr (.inr ⟨_, rfl, rfl⟩)
    · exact .inr (.inl ⟨f, f', rfl, rfl, hmatches⟩)
  · refine .inl ⟨v, rfl, rfl, ?_⟩
    obtain ⟨i, hi, hfield⟩ := exists_instance_of_field hfield
    exact h.fields inst i hi _ v hfield

/-- Binding a method on both sides gives one function. -/
theorem Twin.bind (h : Twin c M s s') {f f' : Closure} {receiver : Value}
    (hf : Matches c M s [false] f f') (hreceiver : Shares c M s s' receiver) :
    (s'.bind f' receiver).1 = (s.bind f receiver).1 ∧
      Onward M s s' (s.marksWith M false) (s.bind f receiver).2 (s'.bind f' receiver).2 ∧
      Twin c (s.marksWith M false) (s.bind f receiver).2 (s'.bind f' receiver).2 ∧
      Shares c (s.marksWith M false) (s.bind f receiver).2 (s'.bind f' receiver).2
        (.function (s.bind f receiver).1) := by
  let e : Environment := ⟨Table.empty.insert "this" receiver, some f.environment⟩
  let e' : Environment := ⟨Table.empty.insert "this" receiver, some f'.environment⟩
  have he : c.EnvironmentTwin false e e' := by
    have heq : e' = e := by simp only [e, e', hf.environment]
    rw [heq]
    exact .self e
  have hinner : Twin c (s.marksWith M false) (s.newEnvironment e).2 (s'.newEnvironment e').2 := by
    refine h.newEnvironment he fun name v hv => ?_
    simp only [e, Table.get?_insert, Table.get?_empty] at hv
    split at hv
    · cases hv
      exact hreceiver
    · cases hv
  have honward := onward_newEnvironment M s s' false e e'
  obtain ⟨-, hinit, L, marked, name, name', params, params', body, body', hL, hdecl, hdecl', hname,
    hparams, hbody⟩ := hf
  have hbound : Matches c (s.marksWith M false) (s.newEnvironment e).2 []
      { f with environment := s.environments.size }
      { f' with environment := s'.environments.size } :=
    ⟨h.size, hinit, false :: L, marked, name, name', params, params', body, body',
      hL.newEnvironment rfl, hdecl, hdecl', hname, hparams, hbody⟩
  exact ⟨h.functions, honward.trans (onward_newFunction ..), hinner.newFunction _ _,
    hinner.shares_newFunction hbound⟩

end Store

end Lox
