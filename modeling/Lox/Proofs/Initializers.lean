import Mathlib.Tactic
import Lox.Proofs.Inheritance
import Lox.Proofs.Moments

/-!
# Initializers and their receivers

An initializer gives back the instance that it was bound to, whatever its body does, and a call of
a class gives back the instance that it makes. Both rest on what is known of receivers at all
moments of a session: the environment in which an initializer finds its own was made for it alone.
-/

namespace Lox

namespace Store

variable {s : Store} {cls k : Nat}

/-- The initializer that a class has, and the arguments that the class takes. -/
theorem Tidy.initializer (h : s.Tidy) (hk : s.Nearest cls "init" k) :
    ∃ f params, s.closure? k = some f ∧ f.isInitializer = true ∧
      f.declaration.parameters = .ok params ∧ s.method? cls "init" = some f ∧
      s.arity? (.cls cls) = .ok (some params.length) := by
  have hfind := findMethod?_eq_some_iff.2 hk
  obtain ⟨steps, ⟨c, -, hown⟩, -⟩ := hk
  obtain ⟨d, hd, hmethod⟩ := Option.bind_eq_some_iff.1 hown
  obtain ⟨f, hf, hflag⟩ := h.initializers c d k hd hmethod
  obtain ⟨params, hparams, -⟩ := (h.closures k f hf).parameters
  have hfound : s.method? cls "init" = some f := by
    rw [Store.method?, hfind]
    exact hf
  refine ⟨f, params, hf, hflag, hparams, hfound, ?_⟩
  simp [arity?, hfound, Closure.arity, hparams, Except.map]

theorem plain_class (h : ∀ k, ¬ s.Nearest cls "init" k) :
    s.method? cls "init" = none ∧ s.arity? (.cls cls) = .ok (some 0) := by
  have hnone : s.findMethod? cls "init" = none := by
    rcases hfind : s.findMethod? cls "init" with _ | k
    · rfl
    · exact absurd (findMethod?_eq_some_iff.1 hfind) (h k)
  have hmethod : s.method? cls "init" = none := by
    rw [method?, hnone]
    rfl
  exact ⟨hmethod, by simp [arity?, hmethod]⟩

end Store

namespace Eval

variable {mode : Mode} {m : Machine}

/-- How a call of an initializer ends, given how its body does: the receiver takes the place of what
is returned. -/
def yieldReceiver (outer inst : Nat) :
    EStateM.Result Signal Machine Unit → EStateM.Result Signal Machine Value
  | .ok _ m => .ok (.inst inst) { m with environment := outer }
  | .error (.returning _) m => .ok (.inst inst) { m with environment := outer }
  | .error signal m => .error signal { m with environment := outer }

/-- How a call of a class ends, given how that of its initializer does. -/
def yieldInstance (inst : Nat) :
    EStateM.Result Signal Machine Value → EStateM.Result Signal Machine Value
  | .ok _ m => .ok (.inst inst) m
  | .error signal m => .error signal m

/-- The visit binds a method to a receiver, in an environment that is new to the store: when it
reads a property, when it goes to a superclass, and when it initializes an instance. -/
inductive Binds (mode : Mode) : Visit → Store → Closure → Value → Prop
  | property {depth p object name inst m m₁ f} : eval mode depth object m = .ok (.inst inst) m₁ →
    m₁.store.property inst name = .ok (.inr f) →
    Binds mode ⟨depth + 1, p, .node (.property object name), m⟩ m₁.store f (.inst inst)
  | superMethod {depth p keyword method hops parent receiver m f} :
    mode.hops keyword = some hops → m.store.getAt hops m.environment "super" = .ok (.cls parent) →
    m.store.getAt (hops - 1) m.environment "this" = .ok receiver →
    m.store.method? parent method.lexeme = some f →
    Binds mode ⟨depth + 1, p, .node (.superMethod keyword method), m⟩ m.store f receiver
  | construct {depth p cls values m f} : m.store.method? cls "init" = some f →
    Binds mode ⟨depth + 1, p, .call (.cls cls) values, m⟩
      (m.store.newInstance ⟨cls, .empty⟩).2 f (.inst m.store.instances.size)

theorem within_ok {α : Type} {inner : Nat} {x : Eval α} {a : α} {m' : Machine}
    (h : x { m with environment := inner } = .ok a m') :
    within inner x m = .ok a { m' with environment := m.environment } := by
  simp [within, h]

/-- An initializer that is called is bound, and gives back its receiver. -/
theorem call_initializer {p : Place} {depth id : Nat} {values : List Value} {f : Closure}
    (hready : Visit.Ready ⟨depth + 1, p, .call (.function id) values, m⟩) (hm : m.Tidy)
    (hf : m.store.closure? id = some f) (hinit : f.isInitializer = true) :
    ∃ inst params, m.store.HoldsOnly f.environment (.inst inst) ∧
      f.declaration.parameters = .ok params ∧
      let body := inOrder (eval mode depth) f.declaration.body
        (m.nest ⟨parameterBindings params values, some f.environment⟩)
      call mode (depth + 1) (.function id) values m = yieldReceiver m.environment inst body ∧
        ∀ v m', body = .error (.returning v) m' → v = .nil := by
  obtain ⟨site, -, hrunning, ⟨g, hg, hcallable⟩, hvalues, harity⟩ := hready
  obtain rfl := Option.some.inj (hf.symm.trans hg)
  obtain ⟨params, inner, hat, hscopes⟩ := Machine.bodyAt_of_callable hrunning.sound hcallable
    hvalues (arity_of_closure? hg harity)
  obtain ⟨scopes, hcovers, hbinds⟩ := hscopes hinit
  obtain ⟨found, this, hfound, -, hthis⟩ := hcovers.getAt hbinds
  cases hfound
  obtain ⟨inst, cls, hreceives⟩ := hrunning.sound.framed.receivers _ this hthis
  obtain rfl := Option.some.inj (hthis.symm.trans hreceives.receiver)
  obtain ⟨hnames, hbody⟩ : (∀ param ∈ params, param.IsName) ∧
      Node.TameAll f.isInitializer f.declaration.body := by
    obtain ⟨params', hparams', htame⟩ := (hm.store.closures id f hf).parameters
    obtain rfl := Except.ok.inj (hparams'.symm.trans hat.parameters)
    exact htame
  obtain ⟨hnest, -⟩ := (calms mode depth).body hnames hbody values hm
  have hcalm := (calms mode depth).statements hbody _ hnest
  refine ⟨inst, params, hm.store.receivers _ _ hthis, hat.parameters, ?_, hcalm.returns hinit⟩
  -- the receiver is read when the body is over, and is still there
  have hread : ∀ m' : Machine,
      (m.nest ⟨parameterBindings params values, some f.environment⟩).store.Stable m'.store →
      within f.environment (getAt 0 "this") m' = .ok (.inst inst) m' := by
    intro m' hstable
    have hlater := (Store.stable_newEnvironment m.store _).trans hstable
    have hget := (hlater.this _ (Store.lt_of_get? hthis)).trans hthis
    simp [within, getAt, Store.getAt, Store.environmentAt, Store.ancestor, hget]
  rw [call_function mode depth hf hat.parameters hat.present, hinit]
  rcases hrun : inOrder (eval mode depth) f.declaration.body
    (m.nest ⟨parameterBindings params values, some f.environment⟩) with ⟨_, m'⟩ | ⟨signal, m'⟩
  · have hstable := (hcalm.of_ok hrun).2
    have hbody : (do inOrder (eval mode depth) f.declaration.body; return .nil : Eval Value)
        (m.nest ⟨parameterBindings params values, some f.environment⟩) = .ok .nil m' := bind_ok hrun
    exact (bind_ok (catchReturn_ok (within_ok hbody))).trans
      (hread { m' with environment := m.environment } hstable)
  · have hstable := (hcalm.of_error hrun).2
    cases signal with
    | returning v =>
      exact (bind_ok (catchReturn_returning (within_error (bind_error hrun)))).trans
        (hread { m' with environment := m.environment } hstable)
    | _ =>
      exact bind_error (catchReturn_error (within_error (bind_error hrun))
        fun _ => Signal.noConfusion)

/-! ## Calls of classes -/

/-- The machine made an instance of the class and bound the initializer to it. -/
structure Instantiated (m : Machine) (cls : Nat) (f : Closure) (m' : Machine) : Prop where
  fresh : m'.store.instances.size = m.store.instances.size + 1
  made : m'.store.instance? m.store.instances.size = some ⟨cls, .empty⟩
  bound : m'.store.closure? m.store.functions.size =
    some { f with environment := m.store.environments.size }
  receiver : m'.store.HoldsOnly m.store.environments.size (.inst m.store.instances.size)

theorem instantiated_instantiate (m : Machine) (cls : Nat) (f : Closure) :
    Instantiated m cls f (m.instantiate cls f) where
  fresh := by simp [Machine.instantiate, Store.bind, Store.newFunction, Store.newEnvironment,
    Store.newInstance]
  made := (Store.instance?_newInstance _ _ _).trans (if_pos rfl)
  bound := (Store.closure?_newFunction _ _ _).trans (if_pos rfl)
  receiver := Store.holdsOnly_bind (m.store.newInstance ⟨cls, .empty⟩).2 f _

/-- How a call expression ends whose callee turned out to be a class, from the machine that its
arguments left. The initializer is that of the nearest class that has one. -/
structure Constructs (mode : Mode) (depth : Nat) (paren : Token) (cls : Nat) (values : List Value)
    (m : Machine) (ending : EStateM.Result Signal Machine Value) : Prop where
  plain : (∀ k, ¬ m.store.Nearest cls "init" k) → ending =
    if values.length = 0 then
      .ok (.inst m.store.instances.size) { m with store := (m.store.newInstance ⟨cls, .empty⟩).2 }
    else .error (.error ⟨paren, .wrongArity 0 values.length⟩) m
  initialized : ∀ k, m.store.Nearest cls "init" k → ∃ f params, m.store.closure? k = some f ∧
    f.isInitializer = true ∧ f.declaration.parameters = .ok params ∧
    Instantiated m cls f (m.instantiate cls f) ∧ ending =
      if values.length = params.length then
        yieldInstance m.store.instances.size
          (call mode depth (.function m.store.functions.size) values (m.instantiate cls f))
      else .error (.error ⟨paren, .wrongArity params.length values.length⟩) m
  yields : ∀ v m', ending = .ok v m' → v = .inst m.store.instances.size ∧
    ∃ i, m'.store.instance? m.store.instances.size = some i ∧ i.cls = cls

/-- Too many or too few arguments are an error before anything is called. -/
theorem eval_wrongArity {depth : Nat} {callee : Node} {paren : Token} {ns : List Node}
    {value : Value} {values : List Value} {count : Nat} {m₁ m₂ : Machine}
    (hparen : paren.isMissing = false) (hcallee : eval mode depth callee m = .ok value m₁)
    (hvalues : ns.mapM (eval mode depth) m₁ = .ok values m₂)
    (harity : m₂.store.arity? value = .ok (some count)) (hne : values.length ≠ count) :
    eval mode (depth + 1) (.call callee paren ns) m =
      .error (.error ⟨paren, .wrongArity count values.length⟩) m₂ := by
  refine (bind_ok hcallee).trans ((bind_ok hvalues).trans ((bind_ok (c := get) rfl).trans ?_))
  rw [harity]
  simp only [hne, ne_eq, not_false_eq_true, if_true, fail, checkToken_eq hparen]
  rfl

theorem bind_yieldInstance {x : Eval Value} {inst : Nat} (m : Machine) :
    (x >>= fun _ => return .inst inst) m = yieldInstance inst (x m) := by
  rcases hx : x m with ⟨v, m'⟩ | ⟨signal, m'⟩
  · rw [bind_ok hx]
    rfl
  · rw [bind_error hx]
    rfl

/-- A class is called with the arguments that its initializer takes, and makes its instance. -/
theorem eval_construct {depth cls : Nat} {callee : Node} {paren : Token} {arguments : List Node}
    {values : List Value} {m₁ m₂ : Machine} (hparen : paren.isMissing = false) (hm₂ : m₂.Tidy)
    (hcallee : eval mode (depth + 1) callee m = .ok (.cls cls) m₁)
    (hvalues : arguments.mapM (eval mode (depth + 1)) m₁ = .ok values m₂) :
    Constructs mode depth paren cls values m₂
      (eval mode (depth + 2) (.call callee paren arguments) m) := by
  by_cases hinit : ∃ k, m₂.store.Nearest cls "init" k
  · obtain ⟨k, hk⟩ := hinit
    obtain ⟨f, params, hf, hflag, hparams, hmethod, harity⟩ := hm₂.store.initializer hk
    have hending : eval mode (depth + 2) (.call callee paren arguments) m =
        if values.length = params.length then
          yieldInstance m₂.store.instances.size
            (call mode depth (.function m₂.store.functions.size) values (m₂.instantiate cls f))
        else .error (.error ⟨paren, .wrongArity params.length values.length⟩) m₂ := by
      split
      · rename_i hlength
        rw [eval_call hcallee hvalues (hlength ▸ harity), call_class hmethod, bind_yieldInstance]
      · rename_i hlength
        exact eval_wrongArity hparen hcallee hvalues harity hlength
    refine ⟨fun hnone => absurd hk (hnone k), fun k' hk' => ?_, fun v m' hok => ?_⟩
    · obtain rfl := hk.unique hk'
      exact ⟨f, params, hf, hflag, hparams, instantiated_instantiate m₂ cls f, hending⟩
    · rw [hending] at hok
      split at hok
      · obtain ⟨-, htidy⟩ := Machine.tidy_instantiate hm₂ cls (hm₂.store.method? hmethod)
        have hcalm := (calms mode depth).call (.function m₂.store.functions.size) values _ htidy
        rcases hrun : call mode depth (.function m₂.store.functions.size) values
          (m₂.instantiate cls f) with ⟨x, m₄⟩ | ⟨signal, m₄⟩ <;> rw [hrun] at hok <;> cases hok
        exact ⟨rfl, (hcalm.of_ok hrun).2.instances _ _ (instantiated_instantiate m₂ cls f).made⟩
      · cases hok
  · have hnone := not_exists.1 hinit
    obtain ⟨hmethod, harity⟩ := Store.plain_class hnone
    have hending : eval mode (depth + 2) (.call callee paren arguments) m =
        if values.length = 0 then
          .ok (.inst m₂.store.instances.size)
            { m₂ with store := (m₂.store.newInstance ⟨cls, .empty⟩).2 }
        else .error (.error ⟨paren, .wrongArity 0 values.length⟩) m₂ := by
      split
      · rename_i hlength
        rw [eval_call hcallee hvalues (hlength ▸ harity), call_plainClass hmethod]
      · rename_i hlength
        exact eval_wrongArity hparen hcallee hvalues harity hlength
    refine ⟨fun _ => hending, fun k hk => absurd hk (hnone k), fun v m' hok => ?_⟩
    rw [hending] at hok
    split at hok <;> cases hok
    exact ⟨rfl, _, (Store.instance?_newInstance _ _ _).trans (if_pos rfl), rfl⟩

end Eval

namespace Visit

variable (mode : Mode) (v : Visit)

/-- A call of an initializer gives back its receiver, unless its body fails, and its body returns
nothing else. -/
def Initializes : Prop :=
  ∀ depth id values f, v.depth = depth + 1 → v.task = .call (.function id) values →
    v.machine.store.closure? id = some f → f.isInitializer = true →
    ∃ inst params, v.machine.store.HoldsOnly f.environment (.inst inst) ∧
      f.declaration.parameters = .ok params ∧
      let body := Eval.inOrder (Eval.eval mode depth) f.declaration.body
        (v.machine.nest ⟨parameterBindings params values, some f.environment⟩)
      Eval.call mode v.depth (.function id) values v.machine =
          Eval.yieldReceiver v.machine.environment inst body ∧
        ∀ x m', body = .error (.returning x) m' → x = .nil

/-- A call expression on a class makes an instance or is an error before it does. -/
def Constructs : Prop :=
  ∀ depth callee paren arguments cls values m₁ m₂, v.depth = depth + 2 →
    v.task = .node (.call callee paren arguments) →
    Eval.eval mode (depth + 1) callee v.machine = .ok (.cls cls) m₁ →
    arguments.mapM (Eval.eval mode (depth + 1)) m₁ = .ok values m₂ →
    Eval.Constructs mode depth paren cls values m₂
      (Eval.eval mode v.depth (.call callee paren arguments) v.machine)

variable {mode v}

theorem Ready.initializes (h : v.Ready) (hm : v.machine.Tidy) : v.Initializes mode := by
  obtain ⟨n, p, task, m⟩ := v
  rintro depth id values f rfl rfl hf hinit
  exact Eval.call_initializer h hm hf hinit

theorem Ready.constructs (h : v.Ready) (hm : v.machine.Tidy) : v.Constructs mode := by
  obtain ⟨n, p, task, m⟩ := v
  rintro depth callee paren arguments cls values m₁ m₂ rfl rfl hcallee hvalues
  obtain ⟨site, -, -, hfit⟩ := h
  obtain ⟨hparen, hscoped, heach⟩ := hfit.1
  obtain ⟨hm₁, -⟩ := ((Eval.calms mode (depth + 1)).node hscoped.2.tame m hm).of_ok hcallee
  obtain ⟨hm₂, -⟩ := ((Eval.calms mode (depth + 1)).each heach.tame m₁ hm₁).of_ok hvalues
  exact Eval.eval_construct hparen hm₂ hcallee hvalues

end Visit

namespace Session

open Eval (Binds Comes outcome)

variable {s : Session} {mode : Mode} {v : Visit}

theorem Visited.enters {v' : Visit} (h : s.Visited mode v) (henters : Eval.Enters mode v v') :
    s.Visited mode v' := by
  induction h with
  | run hs hexecuted hcomes => exact .run hs hexecuted (hcomes.tail henters)
  | wait now _ ih => exact .wait now (ih henters)
  | step hstep _ ih => exact .step hstep (ih henters)

/-- There is a moment right after a method was bound. -/
theorem Visited.moment_bind {before : Store} {f : Closure} {receiver : Value}
    (h : s.Visited mode v) (hbinds : Binds mode v before f receiver) :
    ∃ m, s.Moment m ∧ m.store = (before.bind f receiver).2 := by
  obtain ⟨hmode, hready⟩ := h.ready
  cases hbinds with
  | @property depth p object name inst m m₁ f hobject hproperty =>
    obtain ⟨site, -, -, hfit⟩ := hready
    refine ⟨_, .ends h, ?_⟩
    have hget := Eval.getProperty_eq m₁ inst hfit.1.1
    rw [hproperty] at hget
    have heval : Eval.eval mode (depth + 1) (.property object name) m = _ :=
      (Eval.bind_ok hobject).trans hget
    simp only [outcome, Eval.perform, Eval.machineAfter_then_pure, heval]
    rfl
  | @superMethod depth p keyword method hops parent receiver m f hhops hparent hreceiver hf =>
    obtain ⟨site, -, -, hfit⟩ := hready
    obtain ⟨hmethod, -, further, hkeyword, -, -⟩ := hfit.1
    rw [Eval.hops_eq hmode, hkeyword] at hhops
    cases hhops
    have heval : Eval.eval mode (depth + 1) (.superMethod keyword method) m = _ :=
      Eval.superMethod_eq hmode hmethod hkeyword hparent hreceiver
    rw [hf] at heval
    refine ⟨_, .ends h, ?_⟩
    simp only [outcome, Eval.perform, Eval.machineAfter_then_pure, heval]
    rfl
  | @construct depth p cls values m f hf =>
    exact ⟨_, .begins (h.enters (.construct hf)), rfl⟩

/-- Wherever `this` is bound, at whatever moment of a session, it is the one binding of its
environment, and is so at all moments at which the environment exists; the environments that are
made to bind a method are such from the start. Hence initializers give back their receivers, and
calls of classes the instances that they make. -/
theorem receivers_fixed (s : Session) :
    (∀ m env this, s.Moment m → (m.store.environment env).bindings.get? "this" = some this →
      ∃ inst, this = .inst inst ∧ ∀ m', s.Moment m' → env < m'.store.environments.size →
        m'.store.HoldsOnly env (.inst inst)) ∧
    ∀ mode v, s.Visited mode v →
      (∀ before f receiver, Binds mode v before f receiver → ∃ inst, receiver = .inst inst ∧
        ∀ m', s.Moment m' → before.environments.size < m'.store.environments.size →
          m'.store.HoldsOnly before.environments.size (.inst inst)) ∧
      v.Initializes mode ∧ v.Constructs mode := by
  have hfixed : ∀ m env this, s.Moment m →
      (m.store.environment env).bindings.get? "this" = some this →
      ∃ inst, this = .inst inst ∧ ∀ m', s.Moment m' → env < m'.store.environments.size →
        m'.store.HoldsOnly env (.inst inst) := by
    intro m env this hm hthis
    obtain ⟨inst, rfl, -⟩ := hm.receiver hthis hm (Store.lt_of_get? hthis)
    refine ⟨inst, rfl, fun m' hm' henv => ?_⟩
    obtain ⟨_, hsame, honly⟩ := hm.receiver hthis hm' henv
    cases hsame
    exact honly
  refine ⟨hfixed, fun mode v hv => ⟨fun before f receiver hbinds => ?_, ?_, ?_⟩⟩
  · obtain ⟨m, hm, hstore⟩ := hv.moment_bind hbinds
    refine hfixed m before.environments.size receiver hm ?_
    rw [hstore, Store.holdsOnly_bind]
    simp
  · exact hv.ready.2.initializes hv.tame.2.1.machine
  · exact hv.ready.2.constructs hv.tame.2.1.machine

/-- The statements are one call without arguments, and its callee is as described. -/
def callsWith (s : Session) (depth : Nat) (test : Value → Machine → Bool) : List Node → Bool
  | [.expression (.call callee _ [])] =>
    match Eval.eval (s.mode true) depth callee s.machine with
    | .ok value m => test value m
    | _ => false
  | _ => false

theorem comes_of_callsWith {depth : Nat} {test : Value → Machine → Bool} {nodes : List Node}
    (hdepth : s.limits.depth = depth + 4) (h : s.callsWith (depth + 2) test nodes = true) :
    ∃ callee paren value m, Comes (s.mode true) (s.firstVisit nodes)
        ⟨depth + 3, {}, .node (.call callee paren []), s.machine⟩ ∧
      Eval.eval (s.mode true) (depth + 2) callee s.machine = .ok value m ∧ test value m = true := by
  unfold callsWith at h
  split at h
  · rename_i callee paren
    split at h
    · rename_i value m hcallee
      refine ⟨callee, paren, value, m, ?_, hcallee, h⟩
      unfold firstVisit
      rw [hdepth]
      exact .head .statement (.single (.first rfl))
    · cases h
  · cases h

theorem receivers_fixed_inherited :
    let s := (({} : Session).perform
      (.run "class A { init() { this.x = 1; return; } } class B < A {} var b = B();")).1
    (∃ v f inst, (s.run "b.init();").1.Visited (s.mode true) v ∧
      v.task = .call (.function 2) [] ∧ v.machine.store.closure? 2 = some f ∧
      f.isInitializer = true ∧ v.Initializes (s.mode true) ∧
      (s.run "b.init();").1.machine.store.HoldsOnly f.environment (.inst inst)) ∧
    ∃ v callee paren m, (s.run "B();").1.Visited (s.mode true) v ∧
      v.task = .node (.call callee paren []) ∧
      Eval.Constructs (s.mode true) 3997 paren 1 [] m
        (Eval.eval (s.mode true) v.depth (.call callee paren []) v.machine) := by
  intro s
  have hreachable : s.Reachable := .step (fun _ => by simp) (.start {})
  have hdepth : s.limits.depth = 3996 + 4 := by decide +kernel
  constructor
  · have hcalls : (s.executed? "b.init();").any (s.callsWith 3998 fun value m =>
        value == .function 2 && (m.store.closure? 2).any fun f =>
          f.isInitializer && f.declaration.parameters.toOption == some []) = true := by
      decide +kernel
    obtain ⟨nodes, hexecuted, hcalls⟩ := (Option.any_eq_true _ _).1 hcalls
    obtain ⟨callee, paren, value, m, hcomes, hcallee, htest⟩ := comes_of_callsWith hdepth hcalls
    simp only [Bool.and_eq_true, beq_iff_eq, Option.any_eq_true] at htest
    obtain ⟨rfl, f, hf, hinit, hparams⟩ := htest
    have harity : m.store.arity? (.function 2) = .ok (some 0) := by
      rcases hresult : f.declaration.parameters with e | params <;>
        rw [hresult] at hparams <;> cases hparams
      simp [Store.arity?, hf, Closure.arity, hresult, Except.map]
    have hv : (s.run "b.init();").1.Visited (s.mode true)
        ⟨3998, {}, .call (.function 2) [], m⟩ :=
      .run hreachable hexecuted (hcomes.tail (.call hcallee rfl harity))
    obtain ⟨hmoments, hvisits⟩ := receivers_fixed (s.run "b.init();").1
    obtain ⟨-, hinitializes, -⟩ := hvisits _ _ hv
    obtain ⟨inst, params, honly, -⟩ := hinitializes 3997 2 [] f rfl rfl hf hinit
    have hthis : (m.store.environment f.environment).bindings.get? "this" =
        some (.inst inst) := by
      rw [honly]
      simp
    obtain ⟨_, hsame, hnow⟩ := hmoments m f.environment _ (.begins hv) hthis
    cases hsame
    obtain ⟨hsession, -, hstable⟩ := (Moment.begins hv).stable
    exact ⟨_, f, inst, hv, rfl, hf, hinit, hinitializes,
      hnow _ (.now hsession) ((Store.lt_of_get? hthis).trans_le hstable.size)⟩
  · have hcalls : (s.executed? "B();").any
        (s.callsWith 3998 fun value _ => value == .cls 1) = true := by decide +kernel
    obtain ⟨nodes, hexecuted, hcalls⟩ := (Option.any_eq_true _ _).1 hcalls
    obtain ⟨callee, paren, value, m, hcomes, hcallee, htest⟩ := comes_of_callsWith hdepth hcalls
    obtain rfl := beq_iff_eq.1 htest
    have hv := Visited.run hreachable hexecuted hcomes
    obtain ⟨-, -, hconstructs⟩ := (receivers_fixed (s.run "B();").1).2 _ _ hv
    exact ⟨_, callee, paren, m, hv, rfl,
      hconstructs 3997 callee paren [] 1 [] m m rfl rfl hcallee rfl⟩

end Session

end Lox
