import Mathlib.Tactic
import Lox.Proofs.CallFrame
import Lox.Proofs.Execution

/-!
# Receivers stand alone

The environment that is made when a method is bound holds the receiver and nothing else. A store is
`Tidy` when that is so of every environment in which `this` is bound, and its functions are of trees
that are `Tame`: they declare and set proper names only, and the initializers among them return no
values. What is resolved is tame (`Node.Scoped.tame`).

A computation is `Calm` when it leads from tidy machines to tidy machines and leaves all in the
store where it was. There is a rule for each operation, and none of them asks where the code
stands. So what is left to do of a tame tree, once a part of it was run, is calm by itself.
-/

namespace Lox

/-! ## Trees -/

mutual

/-- Nothing but proper names is declared or set in the tree, and its initializers return no values.
If its returns are to be bare, those outside of its functions have no values either. -/
def Node.Tame : (bare : Bool) → Node → Prop
  | bare, .assign target value => target.name.IsName ∧ value.Tame bare
  | bare, .binary left _ right => left.Tame bare ∧ right.Tame bare
  | bare, .call callee _ arguments => callee.Tame bare ∧ Node.TameAll bare arguments
  | bare, .property object _ => object.Tame bare
  | bare, .group inner => inner.Tame bare
  | _, .literal _ => True
  | bare, .logical left _ right => left.Tame bare ∧ right.Tame bare
  | bare, .setProperty object _ value => object.Tame bare ∧ value.Tame bare
  | _, .superMethod _ _ => True
  | _, .receiver _ => True
  | bare, .unary _ right => right.Tame bare
  | _, .ident _ => True
  | bare, .block statements => Node.TameAll bare statements
  | bare, .classDecl name superclass methods =>
    name.IsName ∧ Node.TameOption bare superclass ∧ Node.TameMethods methods
  | bare, .expression value => value.Tame bare
  | _, .function name params body =>
    name.IsName ∧ (∀ param ∈ params, param.IsName) ∧ Node.TameAll false body
  | bare, .conditional condition thenBranch elseBranch =>
    condition.Tame bare ∧ thenBranch.Tame bare ∧ Node.TameOption bare elseBranch
  | bare, .print value => value.Tame bare
  | bare, .returning _ value => (bare = true → value = none) ∧ Node.TameOption bare value
  | bare, .varDecl name initializer => name.IsName ∧ Node.TameOption bare initializer
  | bare, .loop condition body => condition.Tame bare ∧ body.Tame bare
  | _, .misfit _ => False

def Node.TameAll : (bare : Bool) → List Node → Prop
  | _, [] => True
  | bare, n :: rest => n.Tame bare ∧ Node.TameAll bare rest

/-- The methods of a class. The returns of an initializer are bare. -/
def Node.TameMethods : List Node → Prop
  | [] => True
  | .function name params body :: rest =>
    (name.IsName ∧ (∀ param ∈ params, param.IsName) ∧
      Node.TameAll (name.lexeme = "init") body) ∧ Node.TameMethods rest
  | _ :: _ => False

def Node.TameOption : (bare : Bool) → Option Node → Prop
  | _, none => True
  | bare, some n => n.Tame bare

end

/-- Whether the returns at the site have to be bare. -/
def Site.bare (site : Site) : Bool := site.inFunction = .initializer

theorem Site.bare_after (site : Site) (n : Node) : (site.after n).bare = site.bare := by
  rw [bare, bare, (after_context site n).2.2.2.1]

theorem Site.bare_initializer (site : Site) (name : String) :
    (site.initializer name).bare = site.bare := by
  unfold initializer
  split <;> rfl

theorem Site.bare_method (site : Site) (name : Token) (params : List Token) :
    (site.body (Resolver.methodContext name) params).bare = decide (name.lexeme = "init") := by
  unfold bare body Resolver.methodContext
  split <;> simp [*]

mutual

/-- What is resolved is tame. -/
theorem Node.Scoped.tame : ∀ {n : Node} {site : Site}, n.Scoped site → n.Tame site.bare
  | .assign .., _, h => ⟨h.1, h.2.2.2.tame⟩
  | .binary .., _, h => ⟨h.2.1.2.tame, h.2.2.2.tame⟩
  | .call .., _, h => ⟨h.2.1.2.tame, h.2.2.tame⟩
  | .property .., _, h => h.2.2.tame
  | .group .., _, h => h.2.tame
  | .literal .., _, _ => trivial
  | .logical .., _, h => ⟨h.2.1.2.tame, h.2.2.2.tame⟩
  | .setProperty .., _, h => ⟨h.2.1.2.tame, h.2.2.2.tame⟩
  | .superMethod .., _, _ => trivial
  | .receiver .., _, _ => trivial
  | .unary .., _, h => h.2.2.tame
  | .ident .., _, _ => trivial
  | .block statements, site, h =>
    have hstatements : Node.ScopedAll (site.inside []) statements := h
    hstatements.tame
  | .classDecl _ none _, _, h => ⟨h.1.toIsName, trivial, h.2.tame⟩
  | .classDecl _ (some _) _, _, h => ⟨h.1.toIsName, h.2.1.2.2.tame, h.2.2.tame⟩
  | .expression .., _, h => h.2.tame
  | .function .., _, h => ⟨h.1.toIsName, h.2.1, Node.ScopedAll.tame h.2.2⟩
  | .conditional .., _, h => ⟨h.1.2.tame, h.2.1.2.tame, h.2.2.tame⟩
  | .print .., _, h => h.2.tame
  | .returning .., _, h => ⟨fun hbare => h.2.1 (of_decide_eq_true hbare), h.2.2.tame⟩
  | .varDecl name _, site, h => by
    have hinitializer := h.2.tame
    rw [site.bare_initializer] at hinitializer
    exact ⟨h.1.toIsName, hinitializer⟩
  | .loop .., _, h => ⟨h.1.2.tame, h.2.2.tame⟩
  | .misfit _, _, h => h.elim

theorem Node.ScopedEach.tame : ∀ {ns : List Node} {site : Site},
    Node.ScopedEach site ns → Node.TameAll site.bare ns
  | [], _, _ => trivial
  | _ :: _, _, h => ⟨h.1.2.tame, h.2.tame⟩

theorem Node.ScopedAll.tame : ∀ {ns : List Node} {site : Site},
    Node.ScopedAll site ns → Node.TameAll site.bare ns
  | [], _, _ => trivial
  | n :: _, site, h => by
    have hrest := h.2.tame
    rw [site.bare_after] at hrest
    exact ⟨h.1.tame, hrest⟩

theorem Node.ScopedMethods.tame : ∀ {ns : List Node} {site : Site},
    Node.ScopedMethods site ns → Node.TameMethods ns
  | [], _, _ => trivial
  | n :: _, site, h => by
    cases n with
    | function name params body =>
      have hbody := h.1.2.2.tame
      rw [site.bare_method] at hbody
      exact ⟨⟨h.1.1, h.1.2.1, hbody⟩, h.2.tame⟩
    | _ => exact h.elim

theorem Node.ScopedOption.tame : ∀ {n : Option Node} {site : Site},
    Node.ScopedOption site n → Node.TameOption site.bare n
  | none, _, _ => trivial
  | some _, _, h => h.2.tame

end

/-! ## Stores -/

/-- The function is of a tame tree, with bare returns if it is an initializer. -/
def Closure.Tame (f : Closure) : Prop :=
  ∃ name params body, f.declaration = .function name params body ∧
    (∀ param ∈ params, param.IsName) ∧ Node.TameAll f.isInitializer body

theorem Closure.Tame.parameters {f : Closure} (h : f.Tame) :
    ∃ params, f.declaration.parameters = .ok params ∧ (∀ param ∈ params, param.IsName) ∧
      Node.TameAll f.isInitializer f.declaration.body := by
  obtain ⟨name, params, body, hdecl, hparams, hbody⟩ := h
  rw [hdecl]
  exact ⟨params, rfl, hparams, hbody⟩

namespace Store

/-- The environment binds `this` to the value and binds nothing else. -/
def HoldsOnly (s : Store) (env : Nat) (this : Value) : Prop :=
  (s.environment env).bindings = Table.empty.insert "this" this

structure Tidy (s : Store) : Prop where
  receivers : ∀ env this, (s.environment env).bindings.get? "this" = some this →
    s.HoldsOnly env this
  closures : ∀ id f, s.closure? id = some f → f.Tame
  initializers : ∀ cls c k, s.class? cls = some c → c.methods.get? "init" = some k →
    ∃ f, s.closure? k = some f ∧ f.isInitializer = true

variable {s s' : Store} {env : Nat} {name : String}

theorem tidy_initial : initial.Tidy := by
  refine ⟨fun env this hthis => ?_, (by rintro _ _ ⟨⟩), (by rintro _ _ _ ⟨⟩)⟩
  obtain ⟨inst, cls, hreceives⟩ := sound_initial.framed.receivers env this hthis
  obtain ⟨i, hi, -⟩ := hreceives.isA
  cases hi

/-- Where a proper name is bound there is no receiver. -/
theorem Tidy.free (h : s.Tidy) (hhas : s.Has env name) (hname : name ≠ "this") :
    (s.environment env).bindings.get? "this" = none := by
  rcases hthis : (s.environment env).bindings.get? "this" with _ | this
  · rfl
  · have honly := h.receivers env this hthis
    rw [Has, honly, Table.contains_insert, decide_eq_false hname] at hhas
    cases hhas

theorem Tidy.define (h : s.Tidy) (hname : name ≠ "this")
    (hfree : (s.environment env).bindings.get? "this" = none) (v : Value) :
    (s.define env name v).Tidy := by
  refine ⟨fun id this hthis => ?_, h.closures, h.initializers⟩
  rw [environment_define] at hthis
  rw [HoldsOnly, environment_define]
  split at hthis
  · rename_i hid
    obtain ⟨rfl, -⟩ := hid
    rw [Table.get?_insert, if_neg hname.symm, hfree] at hthis
    cases hthis
  · rename_i hid
    rw [if_neg hid]
    exact h.receivers id this hthis

theorem Tidy.newEnvironment (h : s.Tidy) {e : Environment}
    (he : ∀ this, e.bindings.get? "this" = some this →
      e.bindings = Table.empty.insert "this" this) : (s.newEnvironment e).2.Tidy := by
  refine ⟨fun id this hthis => ?_, h.closures, h.initializers⟩
  rw [environment_newEnvironment] at hthis
  rw [HoldsOnly, environment_newEnvironment]
  split at hthis
  · rename_i hid
    rw [if_pos hid]
    exact he this hthis
  · rename_i hid
    rw [if_neg hid]
    exact h.receivers id this hthis

theorem Tidy.newFunction (h : s.Tidy) {f : Closure} (hf : f.Tame) : (s.newFunction f).2.Tidy := by
  refine ⟨h.receivers, fun id g hg => ?_, fun cls c k hc hk => ?_⟩
  · rw [closure?_newFunction] at hg
    split at hg
    · cases hg
      exact hf
    · exact h.closures id g hg
  · obtain ⟨g, hg, hinit⟩ := h.initializers cls c k hc hk
    exact ⟨g, (stable_newFunction s f).closures k g hg, hinit⟩

theorem Tidy.newClass (h : s.Tidy) {c : Class} (hc : ∀ k, c.methods.get? "init" = some k →
    ∃ f, s.closure? k = some f ∧ f.isInitializer = true) : (s.newClass c).2.Tidy := by
  refine ⟨h.receivers, h.closures, fun cls d k hd hk => ?_⟩
  rw [class?_newClass] at hd
  split at hd
  · cases hd
    exact hc k hk
  · exact h.initializers cls d k hd hk

/-- Instances make no difference. -/
theorem Tidy.of_eq (h : s.Tidy) (henvironments : s'.environments = s.environments)
    (hfunctions : s'.functions = s.functions) (hclasses : s'.classes = s.classes) : s'.Tidy := by
  obtain ⟨environments, functions, classes, instances, natives⟩ := s'
  cases henvironments
  cases hfunctions
  cases hclasses
  exact ⟨h.receivers, h.closures, h.initializers⟩

theorem stable_bind (s : Store) (f : Closure) (receiver : Value) :
    s.Stable (s.bind f receiver).2 :=
  (stable_newEnvironment s _).trans (stable_newFunction _ _)

/-- A receiver gets an environment that holds nothing else. -/
theorem holdsOnly_bind (s : Store) (f : Closure) (receiver : Value) :
    (s.bind f receiver).2.HoldsOnly s.environments.size receiver := by
  show ((s.newEnvironment ⟨Table.empty.insert "this" receiver, some f.environment⟩).2.environment
    s.environments.size).bindings = _
  rw [environment_newEnvironment, if_pos rfl]

theorem Tidy.bind (h : s.Tidy) {f : Closure} (hf : f.Tame) (receiver : Value) :
    (s.bind f receiver).2.Tidy := by
  refine Tidy.newFunction (h.newEnvironment fun this hthis => ?_) hf
  rw [Table.get?_insert, if_pos rfl] at hthis
  cases hthis
  rfl

theorem Tidy.method? (h : s.Tidy) {cls : Nat} {f : Closure} (hf : s.method? cls name = some f) :
    f.Tame := by
  obtain ⟨k, -, hk⟩ := Option.bind_eq_some_iff.1 hf
  exact h.closures k f hk

end Store

/-! ## Machines -/

/-- The store is tidy, and the machine runs in an environment without a receiver. -/
structure Machine.Tidy (m : Machine) : Prop where
  store : m.store.Tidy
  environment : m.environment < m.store.environments.size
  free : (m.store.environment m.environment).bindings.get? "this" = none

namespace Machine

variable {m : Machine}

theorem Tidy.later (h : m.Tidy) {s : Store} (hstable : m.store.Stable s) (hs : s.Tidy) :
    ({ m with store := s } : Machine).Tidy :=
  ⟨hs, h.environment.trans_le hstable.size, (hstable.this _ h.environment).trans h.free⟩

theorem tidy_nest (h : m.store.Tidy) {e : Environment}
    (he : e.bindings.get? "this" = none) : (m.nest e).Tidy := by
  refine ⟨h.newEnvironment fun this hthis => ?_, ?_, ?_⟩
  · rw [he] at hthis
    cases hthis
  · simp [nest, Store.newEnvironment]
  · rw [environment_nest]
    exact he

theorem tidy_instantiate (h : m.Tidy) (cls : Nat) {f : Closure} (hf : f.Tame) :
    m.store.Stable (m.instantiate cls f).store ∧ (m.instantiate cls f).Tidy := by
  have hmade : (m.store.newInstance ⟨cls, .empty⟩).2.Tidy := h.store.of_eq rfl rfl rfl
  have hstable : m.store.Stable (m.instantiate cls f).store :=
    (Store.stable_newInstance m.store _).trans (Store.stable_bind _ _ _)
  exact ⟨hstable, h.later hstable (hmade.bind hf _)⟩

end Machine

/-! ## Calm computations -/

namespace Eval

variable {α β : Type} {bare : Bool} {m : Machine}

/-- From the machine the computation leads to a tidy one, whose store has all that was there. If its
returns are to be bare, it returns nothing but nil. -/
structure CalmFrom (bare : Bool) (x : Eval α) (m : Machine) : Prop where
  tidy : (machineAfter (x m)).Tidy
  stable : m.store.Stable (machineAfter (x m)).store
  returns : bare = true → ∀ v m', x m = .error (.returning v) m' → v = .nil

def Calm (bare : Bool) (x : Eval α) : Prop := ∀ m, m.Tidy → CalmFrom bare x m

theorem CalmFrom.of_ok {x : Eval α} {a : α} {m' : Machine} (h : CalmFrom bare x m)
    (hx : x m = .ok a m') : m'.Tidy ∧ m.store.Stable m'.store := by
  have htidy := h.tidy
  have hstable := h.stable
  rw [hx] at htidy hstable
  exact ⟨htidy, hstable⟩

theorem CalmFrom.of_error {x : Eval α} {signal : Signal} {m' : Machine} (h : CalmFrom bare x m)
    (hx : x m = .error signal m') : m'.Tidy ∧ m.store.Stable m'.store := by
  have htidy := h.tidy
  have hstable := h.stable
  rw [hx] at htidy hstable
  exact ⟨htidy, hstable⟩

theorem calmFrom_ok {x : Eval α} {a : α} {s : Store} (hx : x m = .ok a { m with store := s })
    (hm : m.Tidy) (hstable : m.store.Stable s) (hs : s.Tidy) : CalmFrom bare x m := by
  refine ⟨?_, ?_, fun _ v m' herror => ?_⟩
  · rw [hx]
    exact hm.later hstable hs
  · rw [hx]
    exact hstable
  · rw [hx] at herror
    cases herror

theorem calmFrom_error {x : Eval α} {signal : Signal} (hx : x m = .error signal m) (hm : m.Tidy)
    (hsignal : ∀ v, signal ≠ .returning v) : CalmFrom bare x m := by
  refine ⟨?_, ?_, fun _ v m' herror => ?_⟩
  · rw [hx]
    exact hm
  · rw [hx]
    exact .refl _
  · rw [hx] at herror
    cases herror
    exact absurd rfl (hsignal v)

/-- A computation that goes on as another one from a later machine. -/
theorem CalmFrom.of_eq {x y : Eval α} {m' : Machine} (h : x m = y m')
    (hstable : m.store.Stable m'.store) (hy : CalmFrom bare y m') : CalmFrom bare x m := by
  refine ⟨?_, ?_, ?_⟩
  · rw [h]
    exact hy.tidy
  · rw [h]
    exact hstable.trans hy.stable
  · rw [h]
    exact hy.returns

theorem CalmFrom.unasked {x : Eval α} (h : CalmFrom bare x m) : CalmFrom false x m :=
  ⟨h.tidy, h.stable, fun hbare => absurd hbare Bool.false_ne_true⟩

theorem CalmFrom.bind {x : Eval α} {k : α → Eval β} (hx : CalmFrom bare x m)
    (hk : ∀ a m', m'.Tidy → m.store.Stable m'.store → x m = .ok a m' → CalmFrom bare (k a) m') :
    CalmFrom bare (x >>= k) m := by
  rcases hrun : x m with ⟨a, m'⟩ | ⟨signal, m'⟩
  · obtain ⟨htidy, hstable⟩ := hx.of_ok hrun
    exact .of_eq (bind_ok hrun) hstable (hk a m' htidy hstable hrun)
  · obtain ⟨htidy, hstable⟩ := hx.of_error hrun
    have herror : (x >>= k) m = .error signal m' := bind_error hrun
    refine ⟨?_, ?_, fun hbare v m'' hreturning => ?_⟩
    · rw [herror]
      exact htidy
    · rw [herror]
      exact hstable
    · rw [herror] at hreturning
      cases hreturning
      exact hx.returns hbare v m' hrun

theorem Calm.bind {x : Eval α} {k : α → Eval β} (hx : Calm bare x) (hk : ∀ a, Calm bare (k a)) :
    Calm bare (x >>= k) :=
  fun m hm => (hx m hm).bind fun a m' hm' _ _ => hk a m' hm'

/-- Where nothing is returned but nil it does not matter whether that is asked for. -/
theorem Calm.mono {x : Eval α} (h : Calm true x) : Calm bare x :=
  fun m hm => ⟨(h m hm).tidy, (h m hm).stable, fun _ => (h m hm).returns rfl⟩

theorem calm_pure (a : α) : Calm bare (pure a : Eval α) :=
  fun _ hm => calmFrom_ok rfl hm (.refl _) hm.store

theorem calm_throw {signal : Signal} (hsignal : ∀ v, signal ≠ .returning v) :
    Calm bare (throw signal : Eval α) :=
  fun _ hm => calmFrom_error rfl hm hsignal

theorem calm_returning {v : Value} (h : bare = true → v = .nil) :
    Calm bare (throw (.returning v) : Eval α) := by
  refine fun m hm => ⟨hm, .refl _, fun hbare w m' herror => ?_⟩
  cases herror
  exact h hbare

theorem calm_fault (f : Fault) : Calm bare (fault f : Eval α) :=
  calm_throw fun _ => Signal.noConfusion

theorem CalmFrom.get {k : Machine → Eval β} (hk : CalmFrom bare (k m) m) :
    CalmFrom bare (get >>= k) m :=
  have hrun : (MonadState.get >>= k : Eval β) m = k m m := rfl
  .of_eq hrun (.refl _) hk

theorem calm_get {k : Machine → Eval β} (hk : ∀ m, Calm bare (k m)) : Calm bare (get >>= k) :=
  fun m hm => .get (hk m m hm)

theorem calm_checkToken (token : Token) : Calm bare (checkToken token) := by
  unfold checkToken
  split
  · exact calm_fault _
  · exact calm_pure _

theorem calm_fail (token : Token) (cause : RuntimeError.Cause) :
    Calm bare (fail token cause : Eval α) :=
  (calm_checkToken token).bind fun _ => calm_throw fun _ => Signal.noConfusion

theorem calm_ofExcept {result : Except Signal α}
    (h : ∀ signal, result = .error signal → ∀ v, signal ≠ .returning v) :
    Calm bare (ofExcept result) := by
  rcases result with signal | a
  · exact fun _ hm => calmFrom_error rfl hm (h signal rfl)
  · exact calm_pure a

theorem calm_operator {result : Except Signal Value} (h : EndsPlainly result) :
    Calm bare (ofExcept result) := by
  refine calm_ofExcept fun signal hsignal => ?_
  rw [hsignal] at h
  exact h

theorem calm_alloc {make : Store → Nat × Store}
    (h : ∀ s : Store, s.Tidy → s.Stable (make s).2 ∧ (make s).2.Tidy) :
    Calm bare (alloc make) :=
  fun m hm => calmFrom_ok rfl hm (h m.store hm.store).1 (h m.store hm.store).2

theorem calm_print (text : String) : Calm bare (print text) :=
  fun _ hm => ⟨⟨hm.store, hm.environment, hm.free⟩, .refl _, fun _ _ _ h => by cases h⟩

/-- The way back is to an environment that was there and has no receiver. -/
theorem CalmFrom.within {inner : Nat} {x : Eval α} (hm : m.Tidy)
    (hx : CalmFrom bare x { m with environment := inner }) :
    CalmFrom bare (within inner x) m := by
  have hback : ∀ m' : Machine, m'.Tidy → m.store.Stable m'.store →
      ({ m' with environment := m.environment } : Machine).Tidy := fun m' hm' hstable =>
    ⟨hm'.store, hm.environment.trans_le hstable.size,
      (hstable.this _ hm.environment).trans hm.free⟩
  rcases hrun : x { m with environment := inner } with ⟨a, m'⟩ | ⟨signal, m'⟩
  · obtain ⟨htidy, hstable⟩ := hx.of_ok hrun
    have hwithin : Eval.within inner x m = .ok a { m' with environment := m.environment } := by
      simp [Eval.within, hrun]
    refine ⟨?_, ?_, fun _ v m'' herror => ?_⟩
    · rw [hwithin]
      exact hback m' htidy hstable
    · rw [hwithin]
      exact hstable
    · rw [hwithin] at herror
      cases herror
  · obtain ⟨htidy, hstable⟩ := hx.of_error hrun
    have hwithin := within_error hrun
    refine ⟨?_, ?_, fun hbare v m'' herror => ?_⟩
    · rw [hwithin]
      exact hback m' htidy hstable
    · rw [hwithin]
      exact hstable
    · rw [hwithin] at herror
      cases herror
      exact hx.returns hbare v m' hrun

/-- What is caught is not returned any further. -/
theorem CalmFrom.catchReturn {x : Eval Value} (h : CalmFrom bare x m) :
    CalmFrom true (catchReturn x) m := by
  have hafter : machineAfter (Eval.catchReturn x m) = machineAfter (x m) := by
    unfold Eval.catchReturn
    rcases x m with ⟨v, m'⟩ | ⟨signal, m'⟩
    · rfl
    · cases signal <;> rfl
  refine ⟨?_, ?_, fun _ v m' herror => ?_⟩
  · rw [hafter]
    exact h.tidy
  · rw [hafter]
    exact h.stable
  · unfold Eval.catchReturn at herror
    split at herror
    · cases herror
    · rename_i hnot
      exact absurd herror (hnot v m')

/-! ## Operations -/

theorem calm_define {name : Token} (hname : name.IsName) (v : Value) :
    Calm bare (define name v) := by
  refine (calm_checkToken name).bind fun _ m hm => ?_
  exact calmFrom_ok rfl hm (Store.stable_define hname.ne_this hname.ne_super _ _ _)
    (hm.store.define hname.ne_this hm.free v)

theorem calm_getAt (hops : Nat) (name : String) : Calm bare (getAt hops name) := by
  intro m hm
  rcases hget : m.store.getAt hops m.environment name with f | v
  · exact calmFrom_error (by simp [getAt, hget]; rfl) hm fun _ => Signal.noConfusion
  · exact calmFrom_ok (by simp [getAt, hget]; rfl) hm (.refl _) hm.store

theorem calm_lookup (mode : Mode) (r : Reference) : Calm bare (lookup mode r) := by
  refine (calm_checkToken r.name).bind fun _ => ?_
  split
  · exact calm_getAt _ _
  · intro m hm
    rcases hget : m.store.get Store.globals r.name with e | v
    · exact calmFrom_error (by simp [hget]; rfl) hm fun _ => Signal.noConfusion
    · exact calmFrom_ok (by simp [hget]; rfl) hm (.refl _) hm.store

/-- The environment that holds a binding has the name. -/
theorem has_of_holder {mode : Mode} {r : Reference} {found : Nat}
    (h : holder mode r m = .ok found) : m.store.Has found r.name.lexeme := by
  unfold holder at h
  split at h
  · rename_i hops
    unfold Store.holderAt at h
    split at h
    · cases h
    · split at h
      · cases h
        assumption
      · cases h
  · unfold Store.holder at h
    split at h
    · rename_i hfind
      cases h
      exact Store.has_of_findWithin hfind
    · cases h

theorem holder_not_returning {mode : Mode} {r : Reference} {signal : Signal}
    (h : holder mode r m = .error signal) (v : Value) : signal ≠ .returning v := by
  unfold holder at h
  split at h
  · rename_i hops _
    rcases hfound : m.store.holderAt hops m.environment r.name.lexeme with f | found <;>
      rw [hfound] at h <;> cases h
    exact Signal.noConfusion
  · rcases hfound : m.store.holder Store.globals r.name with e | found <;>
      rw [hfound] at h <;> cases h
    exact Signal.noConfusion

theorem calm_assign (mode : Mode) {r : Reference} (hname : r.name.IsName) (v : Value) :
    Calm bare (assign mode r v) := by
  refine (calm_checkToken r.name).bind fun _ m hm => ?_
  rcases hholder : holder mode r m with signal | found
  · exact calmFrom_error (by simp [hholder]) hm (holder_not_returning hholder)
  · exact calmFrom_ok (by simp [hholder]; rfl) hm
      (Store.stable_define hname.ne_this hname.ne_super _ found v)
      (hm.store.define hname.ne_this (hm.store.free (has_of_holder hholder) hname.ne_this) v)

theorem calm_assignNearest {name : Token} (hname : name.IsName) (v : Value) :
    Calm bare (assignNearest name v) := by
  intro m hm
  rcases hfind : m.store.find? m.environment name.lexeme with _ | found
  · exact calmFrom_error (by simp [assignNearest, Store.holder, hfind]; rfl) hm
      fun _ => Signal.noConfusion
  · exact calmFrom_ok (by simp [assignNearest, Store.holder, hfind]; rfl) hm
      (Store.stable_define hname.ne_this hname.ne_super _ found v)
      (hm.store.define hname.ne_this
        (hm.store.free (Store.has_of_findWithin hfind) hname.ne_this) v)

theorem calm_getProperty (inst : Nat) (name : Token) : Calm bare (getProperty inst name) := by
  refine (calm_checkToken name).bind fun _ m hm => ?_
  rcases hproperty : m.store.property inst name with e | v | f
  · exact calmFrom_error (by simp [hproperty]; rfl) hm fun _ => Signal.noConfusion
  · exact calmFrom_ok (by simp [hproperty]; rfl) hm (.refl _) hm.store
  · have hf : f.Tame := by
      unfold Store.property at hproperty
      simp only at hproperty
      split at hproperty
      · cases hproperty
      · split at hproperty
        · rename_i hmethod
          cases hproperty
          exact hm.store.method? hmethod
        · cases hproperty
    exact calmFrom_ok (by simp [hproperty]; rfl) hm (Store.stable_bind _ f (.inst inst))
      (hm.store.bind hf (.inst inst))

theorem calm_setProperty (inst : Nat) (name : Token) (v : Value) :
    Calm bare (setProperty inst name v) := by
  refine (calm_checkToken name).bind fun _ m hm => ?_
  exact calmFrom_ok rfl hm (Store.stable_setField _ inst name.lexeme v)
    (hm.store.of_eq rfl rfl rfl)

theorem calm_checkInitialized (n : Node) (v : Value) : Calm bare (checkInitialized n v) := by
  unfold checkInitialized
  split
  · exact calm_fail _ _
  · exact calm_pure _

theorem calm_newFunction {f : Closure} (hf : f.Tame) : Calm bare (alloc (·.newFunction f)) :=
  calm_alloc fun s hs => ⟨Store.stable_newFunction s f, hs.newFunction hf⟩

theorem calm_bind {f : Closure} (hf : f.Tame) (receiver : Value) :
    Calm bare (alloc (·.bind f receiver)) :=
  calm_alloc fun s hs => ⟨Store.stable_bind s f receiver, hs.bind hf receiver⟩

theorem calm_declareFunction {name : Token} {params : List Token} {body : List Node}
    (h : (Node.function name params body).Tame bare) :
    Calm bare (declareFunction name (.function name params body)) :=
  calm_get fun _ => (calm_newFunction ⟨name, params, body, rfl, h.2⟩).bind fun _ =>
    calm_define h.1 _

theorem calm_superclass (parent : Node) (v : Value) : Calm bare (superclass parent v) := by
  unfold superclass
  split
  · exact calm_pure _
  · split
    · exact calm_fail _ _
    · exact calm_fault _

theorem calm_superMethod (mode : Mode) (keyword : Reference) (method : Token) :
    Calm bare (superMethod mode keyword method) := by
  unfold superMethod
  split
  · exact calm_fault _
  · refine (calm_getAt _ _).bind fun parent => (calm_getAt _ _).bind fun receiver => ?_
    split
    · rename_i id
      refine (calm_checkToken _).bind fun _ m hm => .get ?_
      split
      · rename_i f hf
        exact ((calm_bind (hm.store.method? hf) receiver).bind fun _ => calm_pure _) m hm
      · exact calm_fail _ _ m hm
    · exact calm_fault _

theorem calm_callNative (n : Native) (arguments : List Value) :
    Calm bare (callNative n arguments) := by
  unfold callNative
  split
  · exact fun _ hm =>
      ⟨⟨hm.store, hm.environment, hm.free⟩, .refl _, fun _ _ _ h => by cases h⟩
  · exact calm_pure _

/-! ## Class declarations -/

/-- An initializer among the methods is one in the store. -/
def FlagsInitializer (s : Store) (table : Table Nat) : Prop :=
  ∀ k, table.get? "init" = some k → ∃ f, s.closure? k = some f ∧ f.isInitializer = true

theorem methodName_function {name : Token} (hname : name.IsName) (params : List Token)
    (body : List Node) : methodName (.function name params body) = pure name.lexeme := by
  simp only [methodName, Node.name?, checkToken_eq hname.present, pure_bind]

/-- The methods of a class are made, and the initializer among them is one. -/
theorem makeMethods_tidy (inner : Nat) : ∀ {methods : List Node} {table : Table Nat} {m : Machine},
    Node.TameMethods methods → m.Tidy → FlagsInitializer m.store table →
    ∃ made s, makeMethods inner methods table m = .ok made { m with store := s } ∧
      m.store.Stable s ∧ s.Tidy ∧ FlagsInitializer s made
  | [], table, m, _, hm, htable => ⟨table, m.store, rfl, .refl _, hm.store, htable⟩
  | n :: rest, table, m, h, hm, htable => by
    cases n with
    | function name params body =>
      obtain ⟨⟨hname, hparams, hbody⟩, hrest⟩ := h
      let f : Closure := ⟨.function name params body, inner, name.lexeme = "init"⟩
      have hstable := Store.stable_newFunction m.store f
      have htidy : (m.store.newFunction f).2.Tidy :=
        hm.store.newFunction ⟨name, params, body, rfl, hparams, hbody⟩
      have htable' : FlagsInitializer (m.store.newFunction f).2
          (table.insert name.lexeme m.store.functions.size) := by
        intro k hk
        rw [Table.get?_insert] at hk
        split at hk
        · rename_i hinit
          cases hk
          exact ⟨f, (Store.closure?_newFunction _ _ _).trans (if_pos rfl),
            decide_eq_true hinit.symm⟩
        · obtain ⟨g, hg, hflag⟩ := htable k hk
          exact ⟨g, hstable.closures k g hg, hflag⟩
      obtain ⟨made, s, hmade, hstable', hs, hflags⟩ :=
        makeMethods_tidy inner hrest (hm.later hstable htidy) htable'
      refine ⟨made, s, ?_, hstable.trans hstable', hs, hflags⟩
      rw [makeMethods, methodName_function hname, pure_bind]
      exact hmade
    | _ => exact h.elim

theorem methodEnvironment_tidy (parent : Option Nat) (hm : m.Tidy) :
    ∃ inner s, methodEnvironment parent m = .ok inner { m with store := s } ∧
      m.store.Stable s ∧ s.Tidy ∧ ({ m with store := s, environment := inner } : Machine).Tidy := by
  cases parent with
  | none => exact ⟨m.environment, m.store, rfl, .refl _, hm.store, hm⟩
  | some parent =>
    have hnest := Machine.tidy_nest (m := m) hm.store
      (e := ⟨Table.empty.insert "super" (.cls parent), some m.environment⟩) (by simp)
    exact ⟨_, _, rfl, Store.stable_newEnvironment _ _, hnest.store, hnest⟩

theorem calm_declareClass {name : Token} {methods : List Node} (hname : name.IsName)
    (hmethods : Node.TameMethods methods) (parent : Option Nat) :
    Calm bare (declareClass name parent methods) := by
  refine (calm_define hname .nil).bind fun _ m hm => ?_
  obtain ⟨inner, s, hinner, hstable, hs, hentered⟩ := methodEnvironment_tidy parent hm
  have hempty : FlagsInitializer s .empty := fun _ hk => by cases hk
  obtain ⟨made, s', hmade, hstable', hs', hflags⟩ :=
    makeMethods_tidy inner hmethods hentered hempty
  have hsame : m.store.Stable s' := hstable.trans hstable'
  have halloc : CalmFrom bare (alloc (·.newClass ⟨name.lexeme, parent, made⟩))
      { m with store := s' } :=
    calmFrom_ok rfl (hm.later hsame hs') (Store.stable_newClass s' _) (hs'.newClass hflags)
  have htail := halloc.bind fun id m' hm' _ _ => calm_assignNearest hname (.cls id) m' hm'
  refine .of_eq ?_ hsame htail
  show (methodEnvironment parent >>= _) m = _
  rw [bind_ok hinner]
  show (makeMethods inner methods .empty >>= _) { m with store := s, environment := inner } = _
  rw [bind_ok hmade]
  rfl

/-! ## Nodes and calls -/

theorem calm_readReceiver (environment : Nat) :
    Calm bare (within environment (getAt 0 "this")) := by
  intro m hm
  rcases hget : m.store.getAt 0 environment "this" with f | v
  · exact calmFrom_error (by simp [within, getAt, hget]; rfl) hm fun _ => Signal.noConfusion
  · exact calmFrom_ok (by simp [within, getAt, hget]; rfl) hm (.refl _) hm.store

/-- A class that has no initializer just makes an instance. -/
theorem call_plainClass {mode : Mode} {depth cls : Nat} {values : List Value}
    (hf : m.store.method? cls "init" = none) :
    call mode (depth + 1) (.cls cls) values m =
      .ok (.inst m.store.instances.size)
        { m with store := (m.store.newInstance ⟨cls, .empty⟩).2 } := by
  have hmethod : (m.store.newInstance ⟨cls, .empty⟩).2.method? cls "init" = none := by
    rw [Store.method?_congr m.store (m.store.newInstance ⟨cls, .empty⟩).2 rfl rfl, hf]
  refine (bind_ok (c := alloc _) rfl).trans ((bind_ok (c := get) rfl).trans ?_)
  rw [hmethod]
  rfl

theorem free_parameters {params : List Token} (h : ∀ param ∈ params, param.IsName)
    (values : List Value) : (parameterBindings params values).get? "this" = none := by
  by_contra hsome
  obtain ⟨v, hv⟩ := Option.ne_none_iff_exists'.1 hsome
  obtain ⟨param, hparam, hlexeme⟩ := List.mem_map.1 (parameterBindings_get? hv).1
  exact (h param hparam).ne_this hlexeme

theorem present_parameters {params : List Token} (h : ∀ param ∈ params, param.IsName)
    (values : List Value) :
    ((params.zip values).any fun (param, _) => param.isMissing) = false := by
  rw [List.any_eq_false]
  rintro ⟨param, value⟩ hpair
  simp [(h param (List.of_mem_zip hpair).1).present]

/-- Tame nodes are calm at the depth, and so is every call. -/
structure Calms (mode : Mode) (depth : Nat) : Prop where
  node : ∀ {bare : Bool} {n : Node}, n.Tame bare → Calm bare (eval mode depth n)
  call : ∀ (v : Value) (values : List Value), Calm true (call mode depth v values)

section Parts

variable {mode : Mode} {depth : Nat} (IH : Calms mode depth)
include IH

theorem Calms.statements : ∀ {ns : List Node}, Node.TameAll bare ns →
    Calm bare (inOrder (eval mode depth) ns)
  | [], _ => calm_pure ()
  | _ :: _, h => (IH.node h.1).bind fun _ => Calms.statements h.2

theorem Calms.each : ∀ {ns : List Node}, Node.TameAll bare ns →
    Calm bare (ns.mapM (eval mode depth))
  | [], _ => by
    rw [List.mapM_nil]
    exact calm_pure []
  | _ :: _, h => by
    rw [List.mapM_cons]
    exact (IH.node h.1).bind fun _ => (Calms.each h.2).bind fun _ => calm_pure _

theorem Calms.turns {condition body : Node} (hcondition : condition.Tame bare)
    (hbody : body.Tame bare) : ∀ count : Nat,
    Calm bare (repeatWhile (eval mode depth condition) (eval mode depth body) count)
  | 0 => calm_throw fun _ => Signal.noConfusion
  | count + 1 => by
    refine (IH.node hcondition).bind fun v => ?_
    split
    · exact (IH.node hbody).bind fun _ => Calms.turns hcondition hbody count
    · exact calm_pure ()

/-- What a call expression does once its arguments have their values. -/
theorem Calms.callee (v : Value) (paren : Token) (values : List Value) :
    Calm bare (do
      match (← get).store.arity? v with
      | .error f => fault f
      | .ok none => fail paren .notCallable
      | .ok (some arity) =>
        if values.length ≠ arity then fail paren (.wrongArity arity values.length)
        Eval.call mode depth v values : Eval Value) := by
  refine calm_get fun m => ?_
  rcases m.store.arity? v with f | _ | arity <;> simp only
  · exact calm_fault f
  · exact calm_fail _ _
  · split
    · exact (calm_fail _ _).bind fun _ => (IH.call v values).mono
    · exact (IH.call v values).mono

/-- A node whose first part was run goes on calmly. -/
theorem Calms.first {n part : Node} (hfirst : n.first? = some part) (hn : n.Tame bare) :
    part.Tame bare ∧ ∃ k : Value → Eval Value,
      eval mode (depth + 1) n = eval mode depth part >>= k ∧ ∀ v, Calm bare (k v) := by
  cases n with
  | assign target value =>
    cases hfirst
    exact ⟨hn.2, _, rfl, fun v => (calm_assign mode hn.1 v).bind fun _ => calm_pure v⟩
  | unary operator right =>
    cases hfirst
    exact ⟨hn, _, rfl, fun v => calm_operator (unary_endsPlainly operator v)⟩
  | binary left operator right =>
    cases hfirst
    exact ⟨hn.1, _, rfl, fun v => (IH.node hn.2).bind fun w =>
      calm_operator (binary_endsPlainly operator v w)⟩
  | logical left operator right =>
    cases hfirst
    refine ⟨hn.1, _, rfl, fun v => (calm_checkToken operator).bind fun _ => ?_⟩
    split
    · exact calm_pure v
    · exact IH.node hn.2
  | call callee paren arguments =>
    cases hfirst
    exact ⟨hn.1, _, rfl, fun v => (IH.each hn.2).bind fun values => IH.callee v paren values⟩
  | property object name =>
    cases hfirst
    refine ⟨hn, _, rfl, fun v => ?_⟩
    cases v with
    | inst id => exact calm_getProperty id name
    | _ => exact calm_fail _ _
  | setProperty object name value =>
    cases hfirst
    refine ⟨hn.1, _, rfl, fun v => ?_⟩
    cases v with
    | inst id =>
      exact (IH.node hn.2).bind fun w => (calm_setProperty id name w).bind fun _ => calm_pure w
    | _ => exact calm_fail _ _
  | group inner =>
    cases hfirst
    exact ⟨hn, pure, (bind_pure _).symm, calm_pure⟩
  | expression value =>
    cases hfirst
    exact ⟨hn, _, rfl, fun v => (calm_checkInitialized part v).bind fun _ => calm_pure _⟩
  | print value =>
    cases hfirst
    exact ⟨hn, _, rfl, fun v => (calm_checkInitialized part v).bind fun _ =>
      calm_get fun _ => (calm_print _).bind fun _ => calm_pure _⟩
  | conditional condition thenBranch elseBranch =>
    cases hfirst
    refine ⟨hn.1, _, rfl, fun v => ?_⟩
    split
    · exact (IH.node hn.2.1).bind fun _ => calm_pure _
    · cases elseBranch with
      | none => exact calm_pure _
      | some branch => exact (IH.node hn.2.2).bind fun _ => calm_pure _
  | returning keyword value =>
    cases value with
    | none => cases hfirst
    | some value =>
      cases hfirst
      exact ⟨hn.2, _, rfl, fun v => calm_returning fun hbare => by cases hn.1 hbare⟩
  | classDecl name parent methods =>
    cases parent with
    | none => cases hfirst
    | some parent =>
      cases hfirst
      exact ⟨hn.2.1, _, rfl, fun v => (calm_superclass part v).bind fun id =>
        (calm_declareClass hn.1 hn.2.2 (some id)).bind fun _ => calm_pure _⟩
  | _ => cases hfirst

theorem Calms.block {statements : List Node} (h : Node.TameAll bare statements) :
    Calm bare (eval mode (depth + 1) (.block statements)) := by
  intro m hm
  have hstable := Store.stable_newEnvironment m.store ⟨.empty, some m.environment⟩
  have hnest : (m.nest ⟨.empty, some m.environment⟩).Tidy := Machine.tidy_nest hm.store rfl
  refine .of_eq (eval_block depth statements m) hstable ?_
  have hwithin := CalmFrom.within (hm.later hstable hnest.store) (IH.statements h _ hnest)
  exact hwithin.bind fun _ m' hm' _ _ => calm_pure _ m' hm'

theorem Calms.nodeStep {n : Node} (hn : n.Tame bare) : Calm bare (eval mode (depth + 1) n) := by
  rcases hfirst : n.first? with _ | part
  · cases n with
    | literal value => exact calm_pure _
    | ident r => exact calm_lookup mode r
    | receiver r => exact calm_lookup mode r
    | superMethod keyword method => exact calm_superMethod mode keyword method
    | block statements => exact IH.block hn
    | function name params body => exact (calm_declareFunction hn).bind fun _ => calm_pure _
    | loop condition body => exact (IH.turns hn.1 hn.2 _).bind fun _ => calm_pure _
    | misfit x => exact hn.elim
    | classDecl name parent methods =>
      cases parent with
      | none => exact (calm_declareClass hn.1 hn.2.2 none).bind fun _ => calm_pure _
      | some parent => cases hfirst
    | returning keyword value =>
      cases value with
      | none => exact calm_returning fun _ => rfl
      | some value => cases hfirst
    | varDecl name initializer =>
      cases initializer with
      | none => exact (calm_define hn.1 _).bind fun _ => calm_pure _
      | some initializer =>
        exact (IH.node hn.2).bind fun v => (calm_define hn.1 v).bind fun _ => calm_pure _
    | _ => cases hfirst
  · obtain ⟨hpart, k, heval, hk⟩ := IH.first hfirst hn
    rw [heval]
    exact (IH.node hpart).bind hk

/-- The body of a function runs calmly in an environment that has its arguments. -/
theorem Calms.body {f : Closure} {params : List Token} (hparams : ∀ param ∈ params, param.IsName)
    (hbody : Node.TameAll f.isInitializer f.declaration.body) (values : List Value)
    (hm : m.Tidy) :
    (m.nest ⟨parameterBindings params values, some f.environment⟩).Tidy ∧
      CalmFrom true (catchReturn (within m.store.environments.size do
          inOrder (eval mode depth) f.declaration.body
          return .nil))
        { m with store := (m.store.newEnvironment
            ⟨parameterBindings params values, some f.environment⟩).2 } := by
  have hnest : (m.nest ⟨parameterBindings params values, some f.environment⟩).Tidy :=
    Machine.tidy_nest hm.store (free_parameters hparams values)
  have hrun := ((IH.statements hbody).bind fun _ => calm_pure Value.nil) _ hnest
  have hstart := hm.later (Store.stable_newEnvironment m.store _) hnest.store
  exact ⟨hnest, (CalmFrom.within hstart hrun).catchReturn⟩

theorem Calms.callFunction (id : Nat) (values : List Value) :
    Calm true (Eval.call mode (depth + 1) (.function id) values) := by
  intro m hm
  rcases hf : m.store.closure? id with _ | f
  · refine CalmFrom.get ?_
    rw [hf]
    exact calm_fault _ m hm
  · obtain ⟨params, hparameters, hparams, hbody⟩ := (hm.store.closures id f hf).parameters
    refine .of_eq (call_function mode depth hf hparameters (present_parameters hparams values))
      (Store.stable_newEnvironment _ _) ?_
    refine (IH.body hparams hbody values hm).2.bind fun v m' hm' _ _ => ?_
    split
    · exact calm_readReceiver f.environment m' hm'
    · exact calm_pure v m' hm'

theorem Calms.callClass (cls : Nat) (values : List Value) :
    Calm true (Eval.call mode (depth + 1) (.cls cls) values) := by
  intro m hm
  rcases hf : m.store.method? cls "init" with _ | f
  · exact calmFrom_ok (call_plainClass hf) hm (Store.stable_newInstance m.store _)
      (hm.store.of_eq rfl rfl rfl)
  · obtain ⟨hstable, htidy⟩ := Machine.tidy_instantiate hm cls (hm.store.method? hf)
    refine .of_eq (call_class hf) hstable ?_
    exact ((IH.call _ values).bind fun _ => calm_pure _) _ htidy

theorem Calms.callValue (v : Value) (values : List Value) :
    Calm true (Eval.call mode (depth + 1) v values) := by
  cases v with
  | function id => exact IH.callFunction id values
  | cls id => exact IH.callClass id values
  | native id =>
    refine calm_get fun m => ?_
    split
    · exact calm_fault _
    · exact calm_callNative _ _
  | _ => exact calm_fault _

end Parts

/-- Whatever is tame runs calmly. -/
theorem calms (mode : Mode) (depth : Nat) : Calms mode depth := by
  induction depth with
  | zero =>
    exact ⟨fun _ => calm_throw fun _ => Signal.noConfusion,
      fun _ _ => calm_throw fun _ => Signal.noConfusion⟩
  | succ depth IH => exact ⟨IH.nodeStep, IH.callValue⟩

end Eval

end Lox
