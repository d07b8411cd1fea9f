import Mathlib.Tactic
import Lox.Proofs.Shifted
import Lox.Proofs.Twins

/-!
# Stores with environments put in between

A store is padded when it has, on the way from an environment to the globals, further environments
that another store does not have there. Which environments stand for one another is said by a
relation, and where on the way the further ones are by a list: `true` for one that was put in,
`false` for one that is there in both stores (`Along`). Functions go by the environments around
them, and their code is shifted accordingly (`Matches`).

Values are the same in both stores. All operations lead from such stores to such stores (`Padded`),
and what a value means to both it goes on to mean (`Onward`).
-/

namespace Lox

namespace Padding

/-- The distance in the padded store, given that in the other. -/
def hops : List Bool → Nat → Nat
  | [], k => k
  | false :: _, 0 => 0
  | false :: L, k + 1 => hops L k + 1
  | true :: L, k => hops L k + 1

theorem liftHops_hops (L : List Bool) : liftHops (hops L) = hops (false :: L) := by
  funext k
  cases k <;> rfl

theorem hops_eq_id {L : List Bool} (h : ∀ b ∈ L, b = false) : hops L = id := by
  induction L with
  | nil => rfl
  | cons b L ih =>
    obtain ⟨rfl, hL⟩ := List.forall_mem_cons.1 h
    rw [← liftHops_hops, ih hL, liftHops_id]

theorem hops_pad {L : List Bool} (h : ∀ b ∈ L, b = false) : hops (true :: L) = (· + 1) := by
  funext k
  rw [hops, hops_eq_id h, id]

theorem hops_zero {L : List Bool} (h : L.head? ≠ some true) : hops L 0 = 0 := by
  cases L with
  | nil => rfl
  | cons b L =>
    cases b with
    | false => rfl
    | true => exact absurd rfl h

theorem le_hops (L : List Bool) (k : Nat) : k ≤ hops L k := by
  induction L generalizing k with
  | nil => exact le_rfl
  | cons b L ih =>
    have hrest := ih k
    cases b with
    | true =>
      rw [hops]
      omega
    | false =>
      cases k with
      | zero => exact Nat.zero_le _
      | succ k => exact Nat.succ_le_succ (ih k)

/-- One scope further in is also one scope further in without the padding, unless it is padding. -/
theorem exists_hops_eq {L : List Bool} {k i : Nat} (h : hops L k = i + 1) (hi : L[i]? ≠ some true) :
    ∃ j, k = j + 1 ∧ hops L j = i := by
  induction L generalizing k i with
  | nil => exact ⟨i, h, rfl⟩
  | cons b L ih =>
    have hinner : ∀ {k}, hops L k = i → i ≠ 0 → ∃ j, k = j + 1 ∧ hops L j + 1 = i := by
      intro k hk hne
      obtain ⟨i, rfl⟩ := Nat.exists_eq_succ_of_ne_zero hne
      obtain ⟨j, hj, hhops⟩ := ih hk hi
      exact ⟨j, hj, congrArg (· + 1) hhops⟩
    cases b with
    | true =>
      have hne : i ≠ 0 := by
        rintro rfl
        exact hi rfl
      exact hinner (Nat.succ.inj h) hne
    | false =>
      cases k with
      | zero => cases h
      | succ k =>
        have hk : hops L k = i := Nat.succ.inj h
        by_cases hzero : i = 0
        · have hle := le_hops L k
          exact ⟨0, by omega, hzero.symm⟩
        · obtain ⟨j, rfl, hhops⟩ := hinner hk hzero
          exact ⟨j + 1, rfl, hhops⟩

/-! ## Trees -/

/-- Where there is padding, no names are bound. -/
def Gaps (L : List Bool) (scopes : List (List String)) : Prop :=
  ∀ i : Nat, L[i]? = some true → scopes[i]? = some []

theorem Gaps.cons {L : List Bool} {scopes : List (List String)} (h : Gaps L scopes)
    (names : List String) : Gaps (false :: L) (names :: scopes)
  | 0, hi => by cases hi
  | i + 1, hi => h i hi

theorem Gaps.pad {L : List Bool} {scopes : List (List String)} (h : Gaps L scopes) :
    Gaps (true :: L) ([] :: scopes)
  | 0, _ => rfl
  | i + 1, hi => h i hi

theorem gaps_of_false {L : List Bool} (h : ∀ b ∈ L, b = false) (scopes : List (List String)) :
    Gaps L scopes := fun _ hi => absurd (h _ (List.mem_of_getElem? hi)) Bool.true_eq_false.mp

/-- No name is declared in padding. -/
theorem Gaps.bind {L : List Bool} {scopes : List (List String)} (h : Gaps L scopes)
    (hhead : L.head? ≠ some true) (name : String) : Gaps L (Site.bind name scopes) := by
  intro i hi
  cases i with
  | zero => exact absurd (List.head?_eq_getElem?.trans hi) hhead
  | succ i =>
    have hscope := h (i + 1) hi
    cases scopes with
    | nil => cases hscope
    | cons names scopes => exact hscope

theorem Gaps.after {L : List Bool} {site : Site} (h : Gaps L site.scopes)
    (hhead : L.head? ≠ some true) (n : Node) : Gaps L (site.after n).scopes := by
  unfold Site.after
  split
  · exact h
  · exact h.bind hhead _

/-! ## Environments -/

/-- The ways out from the environments are the same but for the padding of the first. -/
def Along (R : Nat → Nat → Prop) (s s' : Store) : List Bool → Nat → Nat → Prop
  | [], env, env' => env = Store.globals ∧ env' = Store.globals
  | false :: L, env, env' => R env env' ∧ ∃ outer outer',
      (s.environment env).enclosing = some outer ∧ (s'.environment env').enclosing = some outer' ∧
      Along R s s' L outer outer'
  | true :: L, env, env' => env < s.environments.size ∧ ∃ outer,
      (s.environment env).enclosing = some outer ∧ Along R s s' L outer env'

/-- The closures have the same code, shifted where they stand, within the scopes that they still
have to be given. They do not stand in padding themselves. -/
structure Matches (R : Nat → Nat → Prop) (s s' : Store) (missing : List Bool) (f f' : Closure) :
    Prop where
  isInitializer : f'.isInitializer = f.isInitializer
  declaration : ∃ L site name params body, Along R s s' L f.environment f'.environment ∧
    (missing ++ L).head? ≠ some true ∧
    f.declaration = .function name params (Node.shiftAll (hops (false :: (missing ++ L))) body) ∧
    f'.declaration = .function name params body ∧ Gaps (false :: (missing ++ L)) site.scopes ∧
    Node.ScopedAll site (Node.shiftAll (hops (false :: (missing ++ L))) body)

/-- The value means the same in both stores. -/
def Shares (R : Nat → Nat → Prop) (s s' : Store) : Value → Prop
  | .function id => ∃ f f', s.closure? id = some f ∧ s'.closure? id = some f' ∧
      Matches R s s' [] f f'
  | _ => True

/-- The methods have closures that match once they are bound. -/
def MethodsMatch (R : Nat → Nat → Prop) (s s' : Store) (table : Table Nat) : Prop :=
  ∀ name k, table.get? name = some k →
    ∃ f f', s.closure? k = some f ∧ s'.closure? k = some f' ∧ Matches R s s' [false] f f'

/-- The stores are the same but for the padding of the first. -/
structure Padded (R : Nat → Nat → Prop) (s s' : Store) : Prop where
  related : ∀ env env', R env env' → env < s.environments.size ∧ env' < s'.environments.size ∧
    (s'.environment env').bindings = (s.environment env).bindings
  unique : ∀ env env' other other', R env env' → R other other' → (other = env ↔ other' = env')
  globals : R Store.globals Store.globals
  outermost : (s.environment Store.globals).enclosing = none
  outermost' : (s'.environment Store.globals).enclosing = none
  functions : s'.functions.size = s.functions.size
  classes : s'.classes = s.classes
  instances : s'.instances = s.instances
  natives : s'.natives = s.natives
  bindings : ∀ env env' name v, R env env' → (s.environment env).bindings.get? name = some v →
    Shares R s s' v
  fields : ∀ id i, s.instance? id = some i → ∀ name v, i.fields.get? name = some v →
    Shares R s s' v
  methods : ∀ id cls, s.class? id = some cls → MethodsMatch R s s' cls.methods

/-- The store has all that the other had, and the ways out are the same. -/
structure Kept (s s₁ : Store) : Prop where
  size : s.environments.size ≤ s₁.environments.size
  enclosing : ∀ id < s.environments.size,
    (s₁.environment id).enclosing = (s.environment id).enclosing
  has : ∀ id < s.environments.size, ∀ x, s.Has id x → s₁.Has id x
  closures : ∀ id f, s.closure? id = some f → s₁.closure? id = some f

/-- The stores went on to two later ones. -/
structure Onward (R : Nat → Nat → Prop) (s s' : Store) (R₁ : Nat → Nat → Prop) (s₁ s₁' : Store) :
    Prop where
  left : Kept s s₁
  right : Kept s' s₁'
  links : ∀ env env', R env env' → R₁ env env'

variable {R R₁ R₂ : Nat → Nat → Prop} {s s' s₁ s₁' s₂ s₂' : Store} {L : List Bool} {env env' : Nat}

namespace Kept

theorem refl (s : Store) : Kept s s := ⟨le_rfl, fun _ _ => rfl, fun _ _ _ h => h, fun _ _ h => h⟩

theorem trans (h : Kept s s₁) (h' : Kept s₁ s₂) : Kept s s₂ := by
  refine ⟨h.size.trans h'.size, fun id hid => ?_,
    fun id hid x hx => h'.has id (hid.trans_le h.size) x (h.has id hid x hx),
    fun id f hf => h'.closures id f (h.closures id f hf)⟩
  rw [h'.enclosing id (hid.trans_le h.size), h.enclosing id hid]

/-- Other objects may change while environments and functions stay. -/
theorem of_eq (henvironments : s₁.environments = s.environments)
    (hfunctions : s₁.functions = s.functions) : Kept s s₁ := by
  have henv : s₁.environment = s.environment := by
    funext id
    simp [Store.environment, henvironments]
  refine ⟨by rw [henvironments], fun _ _ => by rw [henv], fun id _ x hx => ?_, fun id f hf => ?_⟩
  · rwa [Store.Has, henv]
  · rwa [Store.closure?, hfunctions]

theorem define (s : Store) (env : Nat) (name : String) (v : Value) :
    Kept s (s.define env name v) :=
  ⟨by simp, by simp, fun id hid x hx => (Store.has_define s env name v hid x).2 (.inl hx),
    fun _ _ h => h⟩

theorem newEnvironment (s : Store) (e : Environment) : Kept s (s.newEnvironment e).2 := by
  refine ⟨by simp [Store.newEnvironment], fun id hid => ?_, fun id hid x hx => ?_, fun _ _ h => h⟩
  · rw [Store.environment_newEnvironment, if_neg (by omega)]
  · exact ((Store.grows_newEnvironment s 0 e).has id hid x).2 (.inl hx)

theorem newFunction (s : Store) (f : Closure) : Kept s (s.newFunction f).2 :=
  ⟨le_rfl, fun _ _ => rfl, fun _ _ _ h => h, (Store.grows_newFunction s 0 f).closures⟩

end Kept

theorem Onward.refl (R : Nat → Nat → Prop) (s s' : Store) : Onward R s s' R s s' :=
  ⟨.refl s, .refl s', fun _ _ h => h⟩

theorem Onward.trans (h : Onward R s s' R₁ s₁ s₁') (h' : Onward R₁ s₁ s₁' R₂ s₂ s₂') :
    Onward R s s' R₂ s₂ s₂' :=
  ⟨h.left.trans h'.left, h.right.trans h'.right,
    fun env env' hR => h'.links env env' (h.links env env' hR)⟩

/-! ## The ways out -/

theorem Along.lt (h : Padded R s s') : ∀ {L : List Bool} {env env' : Nat},
    Along R s s' L env env' → env < s.environments.size ∧ env' < s'.environments.size
  | [], env, env', hL => by
    obtain ⟨rfl, rfl⟩ := hL
    exact ⟨(h.related _ _ h.globals).1, (h.related _ _ h.globals).2.1⟩
  | false :: L, env, env', hL => ⟨(h.related _ _ hL.1).1, (h.related _ _ hL.1).2.1⟩
  | true :: L, env, env', hL => by
    obtain ⟨hlt, outer, -, hrest⟩ := hL
    exact ⟨hlt, (hrest.lt h).2⟩

theorem Along.onward (h : Padded R s s') (honward : Onward R s s' R₁ s₁ s₁') :
    ∀ {L : List Bool} {env env' : Nat}, Along R s s' L env env' → Along R₁ s₁ s₁' L env env'
  | [], _, _, hL => hL
  | false :: L, env, env', hL => by
    obtain ⟨hR, outer, outer', houter, houter', hrest⟩ := hL
    obtain ⟨hlt, hlt', -⟩ := h.related _ _ hR
    refine ⟨honward.links _ _ hR, outer, outer', ?_, ?_, hrest.onward h honward⟩
    · rw [honward.left.enclosing env hlt, houter]
    · rw [honward.right.enclosing env' hlt', houter']
  | true :: L, env, env', hL => by
    obtain ⟨hlt, outer, houter, hrest⟩ := hL
    refine ⟨hlt.trans_le honward.left.size, outer, ?_, hrest.onward h honward⟩
    rw [honward.left.enclosing env hlt, houter]

theorem Matches.onward (h : Padded R s s') (honward : Onward R s s' R₁ s₁ s₁')
    {missing : List Bool} {f f' : Closure} (hf : Matches R s s' missing f f') :
    Matches R₁ s₁ s₁' missing f f' := by
  obtain ⟨hinit, L, site, name, params, body, hL, hrest⟩ := hf
  exact ⟨hinit, L, site, name, params, body, hL.onward h honward, hrest⟩

theorem Shares.onward (h : Padded R s s') (honward : Onward R s s' R₁ s₁ s₁') {v : Value}
    (hv : Shares R s s' v) : Shares R₁ s₁ s₁' v := by
  cases v with
  | function id =>
    obtain ⟨f, f', hf, hf', hmatches⟩ := hv
    exact ⟨f, f', honward.left.closures id f hf, honward.right.closures id f' hf',
      hmatches.onward h honward⟩
  | _ => trivial

theorem MethodsMatch.onward (h : Padded R s s') (honward : Onward R s s' R₁ s₁ s₁')
    {table : Table Nat} (htable : MethodsMatch R s s' table) : MethodsMatch R₁ s₁ s₁' table := by
  intro name k hk
  obtain ⟨f, f', hf, hf', hmatches⟩ := htable name k hk
  exact ⟨f, f', honward.left.closures k f hf, honward.right.closures k f' hf',
    hmatches.onward h honward⟩

theorem environmentAt_globals (h : (s.environment Store.globals).enclosing = none) (k : Nat) :
    s.environmentAt (k + 1) Store.globals = .error .noEnvironment := by
  rw [Store.environmentAt, Store.ancestor, h]
  cases k <;> rfl

/-- At the distances that stand for one another there are environments that do, or none. -/
theorem Along.environmentAt (h : Padded R s s') : ∀ {L : List Bool} {env env' : Nat},
    Along R s s' L env env' → ∀ k : Nat,
      (∃ found found', s.environmentAt (hops L k) env = .ok found ∧
        s'.environmentAt k env' = .ok found' ∧ R found found') ∨
      (s.environmentAt (hops L k) env = .error .noEnvironment ∧
        s'.environmentAt k env' = .error .noEnvironment)
  | [], env, env', hL, k => by
    obtain ⟨rfl, rfl⟩ := hL
    cases k with
    | zero => exact .inl ⟨_, _, rfl, rfl, h.globals⟩
    | succ k => exact .inr ⟨environmentAt_globals h.outermost k, environmentAt_globals h.outermost' k⟩
  | false :: L, env, env', hL, 0 => .inl ⟨env, env', rfl, rfl, hL.1⟩
  | false :: L, env, env', hL, k + 1 => by
    obtain ⟨-, outer, outer', houter, houter', hrest⟩ := hL
    rw [hops, Store.environmentAt_succ houter, Store.environmentAt_succ houter']
    exact hrest.environmentAt h k
  | true :: L, env, env', hL, k => by
    obtain ⟨-, outer, houter, hrest⟩ := hL
    rw [hops, Store.environmentAt_succ houter]
    exact hrest.environmentAt h k

/-- Outside of padding the environments themselves stand for one another. -/
theorem Along.related (h : Padded R s s') (hL : Along R s s' L env env')
    (hhead : L.head? ≠ some true) : R env env' := by
  cases L with
  | nil =>
    obtain ⟨rfl, rfl⟩ := hL
    exact h.globals
  | cons b L =>
    cases b with
    | false => exact hL.1
    | true => exact absurd rfl hhead

theorem Padded.get?_eq (h : Padded R s s') (hR : R env env') (name : String) :
    (s'.environment env').bindings.get? name = (s.environment env).bindings.get? name := by
  rw [(h.related _ _ hR).2.2]

/-! ## Operations -/

/-- What went on from padded stores is padded if all that is new is shared. -/
theorem Padded.of_onward (h : Padded R s s') (honward : Onward R s s' R₁ s₁ s₁')
    (hrelated : ∀ env env', R₁ env env' → env < s₁.environments.size ∧
      env' < s₁'.environments.size ∧ (s₁'.environment env').bindings = (s₁.environment env).bindings)
    (hunique : ∀ env env' other other', R₁ env env' → R₁ other other' →
      (other = env ↔ other' = env'))
    (hfunctions : s₁'.functions.size = s₁.functions.size) (hclasses : s₁'.classes = s₁.classes)
    (hinstances : s₁'.instances = s₁.instances) (hnatives : s₁'.natives = s₁.natives)
    (hbindings : ∀ env env' name v, R₁ env env' →
      (s₁.environment env).bindings.get? name = some v →
      (R env env' ∧ (s.environment env).bindings.get? name = some v) ∨ Shares R₁ s₁ s₁' v)
    (hfields : ∀ id i, s₁.instance? id = some i → ∀ name v, i.fields.get? name = some v →
      Shares R s s' v)
    (hmethods : ∀ id cls, s₁.class? id = some cls → MethodsMatch R s s' cls.methods) :
    Padded R₁ s₁ s₁' := by
  obtain ⟨hlt, hlt', -⟩ := h.related _ _ h.globals
  refine ⟨hrelated, hunique, honward.links _ _ h.globals, ?_, ?_, hfunctions, hclasses, hinstances,
    hnatives, fun env env' name v hR hv => ?_,
    fun id i hi name v hv => (hfields id i hi name v hv).onward h honward,
    fun id cls hcls => (hmethods id cls hcls).onward h honward⟩
  · rw [honward.left.enclosing _ hlt, h.outermost]
  · rw [honward.right.enclosing _ hlt', h.outermost']
  · rcases hbindings env env' name v hR hv with ⟨hold, hget⟩ | hnew
    · exact (h.bindings env env' name v hold hget).onward h honward
    · exact hnew

theorem onward_define (R : Nat → Nat → Prop) (s s' : Store) (env env' : Nat) (name : String)
    (v : Value) : Onward R s s' R (s.define env name v) (s'.define env' name v) :=
  ⟨.define .., .define .., fun _ _ h => h⟩

theorem Padded.define (h : Padded R s s') (hR : R env env') {name : String} {v : Value}
    (hv : Shares R s s' v) : Padded R (s.define env name v) (s'.define env' name v) := by
  have honward := onward_define R s s' env env' name v
  refine h.of_onward honward (fun other other' hother => ?_) h.unique h.functions h.classes
    h.instances h.natives (fun other other' x w hother hw => ?_) h.fields h.methods
  · obtain ⟨hlt, hlt', hsame⟩ := h.related _ _ hother
    refine ⟨by simpa using hlt, by simpa using hlt', ?_⟩
    have hiff := h.unique env env' other other' hR hother
    rw [Store.environment_define, Store.environment_define]
    by_cases heq : env = other
    · have heq' : env' = other' := (hiff.1 heq.symm).symm
      rw [if_pos ⟨heq', hlt'⟩, if_pos ⟨heq, hlt⟩, hsame]
    · have hne : ¬ env' = other' := fun heq' => heq (hiff.2 heq'.symm).symm
      rw [if_neg fun hand => hne hand.1, if_neg fun hand => heq hand.1, hsame]
  · rw [Store.environment_define] at hw
    split at hw
    · rw [Table.get?_insert] at hw
      split at hw
      · cases hw
        exact .inr (hv.onward h honward)
      · exact .inl ⟨hother, hw⟩
    · exact .inl ⟨hother, hw⟩

/-- The relation with one more pair of environments. -/
def extend (R : Nat → Nat → Prop) (s s' : Store) (env env' : Nat) : Prop :=
  R env env' ∨ env = s.environments.size ∧ env' = s'.environments.size

theorem onward_newEnvironment (R : Nat → Nat → Prop) (s s' : Store) (e e' : Environment) :
    Onward R s s' (extend R s s') (s.newEnvironment e).2 (s'.newEnvironment e').2 :=
  ⟨.newEnvironment .., .newEnvironment .., fun _ _ h => .inl h⟩

theorem Padded.newEnvironment (h : Padded R s s') (table : Table Value) (outer outer' : Nat)
    (hvalues : ∀ name v, table.get? name = some v → Shares R s s' v) :
    Padded (extend R s s') (s.newEnvironment ⟨table, some outer⟩).2
      (s'.newEnvironment ⟨table, some outer'⟩).2 := by
  have honward := onward_newEnvironment R s s' ⟨table, some outer⟩ ⟨table, some outer'⟩
  have hold : ∀ {env env'}, R env env' → env < s.environments.size ∧ env' < s'.environments.size :=
    fun hR => ⟨(h.related _ _ hR).1, (h.related _ _ hR).2.1⟩
  refine h.of_onward honward (fun env env' hR => ?_) (fun env env' other other' hR hother => ?_)
    h.functions h.classes h.instances h.natives (fun env env' name v hR hv => ?_) h.fields h.methods
  · rw [Store.environment_newEnvironment, Store.environment_newEnvironment]
    rcases hR with hR | ⟨rfl, rfl⟩
    · obtain ⟨hlt, hlt', hsame⟩ := h.related _ _ hR
      rw [if_neg (by omega), if_neg (by omega)]
      exact ⟨by simp [Store.newEnvironment]; omega, by simp [Store.newEnvironment]; omega, hsame⟩
    · simp [Store.newEnvironment]
  · rcases hR with hR | ⟨rfl, rfl⟩ <;> rcases hother with hother | ⟨rfl, rfl⟩
    · exact h.unique _ _ _ _ hR hother
    · have := hold hR
      omega
    · have := hold hother
      omega
    · simp
  · rw [Store.environment_newEnvironment] at hv
    rcases hR with hR | ⟨rfl, rfl⟩
    · rw [if_neg (by have := hold hR; omega)] at hv
      exact .inl ⟨hR, hv⟩
    · rw [if_pos rfl] at hv
      exact .inr ((hvalues name v hv).onward h honward)

/-- A new environment on both sides. -/
theorem Along.newEnvironment (h : Padded R s s') {outer outer' : Nat} {e e' : Environment}
    (hL : Along R s s' L outer outer') (he : e.enclosing = some outer)
    (he' : e'.enclosing = some outer') :
    Along (extend R s s') (s.newEnvironment e).2 (s'.newEnvironment e').2 (false :: L)
      s.environments.size s'.environments.size := by
  refine ⟨.inr ⟨rfl, rfl⟩, outer, outer', ?_, ?_,
    hL.onward h (onward_newEnvironment R s s' e e')⟩
  · rw [Store.environment_newEnvironment, if_pos rfl, he]
  · rw [Store.environment_newEnvironment, if_pos rfl, he']

theorem onward_pad (R : Nat → Nat → Prop) (s s' : Store) (e : Environment) :
    Onward R s s' R (s.newEnvironment e).2 s' :=
  ⟨.newEnvironment .., .refl _, fun _ _ h => h⟩

/-- A new environment of the first store alone is padding. -/
theorem Padded.pad (h : Padded R s s') (e : Environment) :
    Padded R (s.newEnvironment e).2 s' := by
  have henv : ∀ {env env'}, R env env' →
      (s.newEnvironment e).2.environment env = s.environment env := by
    intro env env' hR
    have hlt := (h.related _ _ hR).1
    rw [Store.environment_newEnvironment, if_neg (by omega)]
  refine h.of_onward (onward_pad R s s' e) (fun env env' hR => ?_) h.unique h.functions h.classes
    h.instances h.natives (fun env env' name v hR hv => ?_) h.fields h.methods
  · obtain ⟨hlt, hlt', hsame⟩ := h.related _ _ hR
    rw [henv hR]
    exact ⟨by simp [Store.newEnvironment]; omega, hlt', hsame⟩
  · rw [henv hR] at hv
    exact .inl ⟨hR, hv⟩

theorem Along.pad (h : Padded R s s') {outer : Nat} {e : Environment}
    (hL : Along R s s' L outer env') (he : e.enclosing = some outer) :
    Along R (s.newEnvironment e).2 s' (true :: L) s.environments.size env' := by
  refine ⟨by simp [Store.newEnvironment], outer, ?_, hL.onward h (onward_pad R s s' e)⟩
  rw [Store.environment_newEnvironment, if_pos rfl, he]

theorem onward_newFunction (R : Nat → Nat → Prop) (s s' : Store) (f f' : Closure) :
    Onward R s s' R (s.newFunction f).2 (s'.newFunction f').2 :=
  ⟨.newFunction .., .newFunction .., fun _ _ h => h⟩

theorem Padded.newFunction (h : Padded R s s') (f f' : Closure) :
    Padded R (s.newFunction f).2 (s'.newFunction f').2 :=
  h.of_onward (onward_newFunction R s s' f f') h.related h.unique
    (by simp [Store.newFunction, h.functions]) h.classes h.instances h.natives
    (fun _ _ _ _ hR hv => .inl ⟨hR, hv⟩) h.fields h.methods

theorem Padded.newClass (h : Padded R s s') {cls : Class}
    (hmethods : MethodsMatch R s s' cls.methods) :
    Padded R (s.newClass cls).2 (s'.newClass cls).2 := by
  refine h.of_onward ⟨.of_eq rfl rfl, .of_eq rfl rfl, fun _ _ h => h⟩ h.related h.unique
    h.functions (by simp [Store.newClass, h.classes]) h.instances h.natives
    (fun _ _ _ _ hR hv => .inl ⟨hR, hv⟩) h.fields fun id d hd => ?_
  rw [Store.class?_newClass] at hd
  split at hd
  · cases hd
    exact hmethods
  · exact h.methods id d hd

theorem Padded.newInstance (h : Padded R s s') (cls : Nat) :
    Padded R (s.newInstance ⟨cls, .empty⟩).2 (s'.newInstance ⟨cls, .empty⟩).2 := by
  refine h.of_onward ⟨.of_eq rfl rfl, .of_eq rfl rfl, fun _ _ h => h⟩ h.related h.unique
    h.functions h.classes (by simp [Store.newInstance, h.instances]) h.natives
    (fun _ _ _ _ hR hv => .inl ⟨hR, hv⟩) (fun id i hi x w hw => ?_) h.methods
  exact h.fields id i (Store.instance?_of_newInstance hi hw) x w hw

theorem Padded.setField (h : Padded R s s') {name : String} {v : Value} (hv : Shares R s s' v)
    (inst : Nat) : Padded R (s.setField inst name v) (s'.setField inst name v) := by
  refine h.of_onward ⟨.of_eq rfl rfl, .of_eq rfl rfl, fun _ _ h => h⟩ h.related h.unique
    h.functions h.classes (by simp [Store.setField, h.instances]) h.natives
    (fun _ _ _ _ hR hv => .inl ⟨hR, hv⟩) (fun id i hi x w hw => ?_) h.methods
  rcases Store.field_of_setField hi hw with rfl | ⟨old, hold, hw⟩
  · exact hv
  · exact h.fields id old hold x w hw

/-! ## Methods and functions -/

/-- A method is found on both sides or on neither. -/
theorem Padded.method? (h : Padded R s s') (cls : Nat) (name : String) :
    (s.method? cls name = none ∧ s'.method? cls name = none) ∨
      ∃ f f', s.method? cls name = some f ∧ s'.method? cls name = some f' ∧
        Matches R s s' [false] f f' := by
  have hfind : s'.findMethod? cls name = s.findMethod? cls name := by
    simp only [Store.findMethod?, h.classes, Store.findMethodWithin_congr h.classes]
  rcases hk : s.findMethod? cls name with _ | k
  · exact .inl ⟨by simp [Store.method?, hk], by simp [Store.method?, hfind, hk]⟩
  · obtain ⟨id, d, hd, hmethod⟩ := Store.mem_of_findMethodWithin hk
    obtain ⟨f, f', hf, hf', hmatches⟩ := h.methods id d hd name k hmethod
    exact .inr ⟨f, f', by simp [Store.method?, hk, hf], by simp [Store.method?, hfind, hk, hf'],
      hmatches⟩

theorem Matches.arity_eq {missing : List Bool} {f f' : Closure} (h : Matches R s s' missing f f') :
    f'.arity = f.arity := by
  obtain ⟨-, L, site, name, params, body, -, -, hf, hf', -⟩ := h
  simp only [Closure.arity, hf, hf', Node.parameters]

theorem Matches.name_eq {missing : List Bool} {f f' : Closure} (h : Matches R s s' missing f f') :
    f'.name = f.name := by
  obtain ⟨-, L, site, name, params, body, -, -, hf, hf', -⟩ := h
  simp only [Closure.name, hf, hf', Node.name?]

theorem Padded.arity?_eq (h : Padded R s s') {v : Value} (hv : Shares R s s' v) :
    s'.arity? v = s.arity? v := by
  cases v with
  | function id =>
    obtain ⟨f, f', hf, hf', hmatches⟩ := hv
    simp [Store.arity?, hf, hf', hmatches.arity_eq]
  | cls id =>
    rcases h.method? id "init" with ⟨hf, hf'⟩ | ⟨f, f', hf, hf', hmatches⟩
    · simp [Store.arity?, hf, hf']
    · simp [Store.arity?, hf, hf', hmatches.arity_eq]
  | native id => simp [Store.arity?, Store.native?, h.natives]
  | _ => rfl

/-- A shared value is printed alike. -/
theorem Padded.stringify_eq (h : Padded R s s') {v : Value} (hv : Shares R s s' v) :
    s'.stringify v = s.stringify v := by
  have hclass : ∀ id, s'.className id = s.className id := fun id => by
    simp [Store.className, Store.class?, h.classes]
  cases v with
  | function id =>
    obtain ⟨f, f', hf, hf', hmatches⟩ := hv
    simp [Store.stringify, hf, hf', hmatches.name_eq]
  | cls id => simp [Store.stringify, hclass]
  | inst id => simp [Store.stringify, hclass, Store.instance?, h.instances]
  | bool b => cases b <;> rfl
  | _ => rfl

/-- A property is the same field on both sides, the same method, or nothing on either. -/
theorem Padded.property (h : Padded R s s') (inst : Nat) (name : Token) :
    (∃ v, s.property inst name = .ok (.inl v) ∧ s'.property inst name = .ok (.inl v) ∧
        Shares R s s' v) ∨
      (∃ f f', s.property inst name = .ok (.inr f) ∧ s'.property inst name = .ok (.inr f') ∧
        Matches R s s' [false] f f') ∨
      ∃ e, s.property inst name = .error e ∧ s'.property inst name = .error e := by
  have hinst : s'.instance? inst = s.instance? inst := by simp [Store.instance?, h.instances]
  simp only [Store.property, hinst]
  rcases hfield : ((s.instance? inst).getD default).fields.get? name.lexeme with _ | v
  · rcases h.method? ((s.instance? inst).getD default).cls name.lexeme with
      ⟨hf, hf'⟩ | ⟨f, f', hf, hf', hmatches⟩ <;> simp only [hf, hf']
    · exact .inr (.inr ⟨_, rfl, rfl⟩)
    · exact .inr (.inl ⟨f, f', rfl, rfl, hmatches⟩)
  · refine .inl ⟨v, rfl, rfl, ?_⟩
    obtain ⟨i, hi, hfield⟩ := Store.exists_instance_of_field hfield
    exact h.fields inst i hi _ v hfield

/-- Binding a method on both sides gives one function. -/
theorem Padded.bind (h : Padded R s s') {f f' : Closure} {receiver : Value}
    (hf : Matches R s s' [false] f f') (hreceiver : Shares R s s' receiver) :
    (s'.bind f' receiver).1 = (s.bind f receiver).1 ∧
      Onward R s s' (extend R s s') (s.bind f receiver).2 (s'.bind f' receiver).2 ∧
      Padded (extend R s s') (s.bind f receiver).2 (s'.bind f' receiver).2 ∧
      Shares (extend R s s') (s.bind f receiver).2 (s'.bind f' receiver).2
        (.function (s.bind f receiver).1) := by
  let e : Environment := ⟨Table.empty.insert "this" receiver, some f.environment⟩
  let e' : Environment := ⟨Table.empty.insert "this" receiver, some f'.environment⟩
  let g : Closure := { f with environment := s.environments.size }
  let g' : Closure := { f' with environment := s'.environments.size }
  have hinner : Padded (extend R s s') (s.newEnvironment e).2 (s'.newEnvironment e').2 := by
    refine h.newEnvironment _ _ _ fun name v hv => ?_
    rw [Table.get?_insert] at hv
    split at hv
    · cases hv
      exact hreceiver
    · simp at hv
  obtain ⟨hinit, L, site, name, params, body, hL, -, hdecl, hdecl', hgaps, hbody⟩ := hf
  have hbound : Matches (extend R s s') (s.newEnvironment e).2 (s'.newEnvironment e').2 [] g g' :=
    ⟨hinit, false :: L, site, name, params, body, hL.newEnvironment h rfl rfl, by simp, hdecl,
      hdecl', hgaps, hbody⟩
  have honward := onward_newFunction (extend R s s') (s.newEnvironment e).2
    (s'.newEnvironment e').2 g g'
  refine ⟨h.functions, (onward_newEnvironment R s s' e e').trans honward, hinner.newFunction g g',
    g, g', ?_, ?_, hbound.onward hinner honward⟩
  · exact (Store.closure?_newFunction _ _ _).trans (if_pos rfl)
  · exact (Store.closure?_newFunction _ _ _).trans (if_pos h.functions.symm)

end Padding

end Lox
