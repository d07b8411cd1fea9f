import Mathlib.Tactic
import Lox.Machine.Run
import Lox.Store.Lemmas

/-!
# What execution comes to

Execution of a part of a program comes to other parts, each at a machine of its own: to the
operands of an expression, to the statements of a block, to the body of a function that is called.
`Enters` is one such step and `Comes` is any number of them. A part is visited together with its
place, which says of a variable's initializer whose it is.

What a visited part does wrong is not put right around it: only a `return` is caught, so that a
fault in a part is the fault of the whole (`Comes.faults`).
-/

namespace Lox

/-- Where a part of a program stands, as far as local variables are concerned. -/
structure Place where
  /-- Whether a variable declared there is local. -/
  isLocal : Bool := false
  /-- The local variable in whose initializer the part lies. -/
  initializing : Option String := none
deriving DecidableEq

namespace Place

/-- The place in a new scope. -/
def inner : Place := ⟨true, none⟩

/-- The place in the initializer of a variable. -/
def initializer (p : Place) (name : String) : Place :=
  if p.isLocal then { p with initializing := some name } else p

end Place

/-- What can be executed. -/
inductive Task where
  | node (n : Node)
  /-- Arguments, one after the other. -/
  | each (ns : List Node)
  | statements (ns : List Node)
  /-- So many turns of a loop. -/
  | turns (condition body : Node) (count : Nat)
  | call (callee : Value) (arguments : List Value)

/-- The part of a node that is run first, where the node itself stands. -/
def Node.first? : Node → Option Node
  | .assign _ value => some value
  | .unary _ right => some right
  | .binary left _ _ => some left
  | .logical left _ _ => some left
  | .call callee _ _ => some callee
  | .property object _ => some object
  | .setProperty object _ _ => some object
  | .group inner => some inner
  | .expression value => some value
  | .print value => some value
  | .conditional condition _ _ => some condition
  | .returning _ (some value) => some value
  | .classDecl _ (some parent) _ => some parent
  | _ => none

/-- What is run after the first part gave its value. -/
def Node.next? : Node → Value → Option Task
  | .binary _ _ right, _ => some (.node right)
  | .logical _ operator right, value =>
    if operator.isMissing ∨ value.isTruthy = (operator.kind = .orWord) then none
    else some (.node right)
  | .call _ _ arguments, _ => some (.each arguments)
  | .setProperty _ _ value, .inst _ => some (.node value)
  | .conditional _ thenBranch elseBranch, value =>
    if value.isTruthy then some (.node thenBranch) else elseBranch.map .node
  | _, _ => none

/-- The machine in a new environment. -/
def Machine.nest (m : Machine) (e : Environment) : Machine :=
  { m with store := (m.store.newEnvironment e).2, environment := (m.store.newEnvironment e).1 }

/-- The machine after an instance of a class was made, and the method that initializes it bound to
it. -/
def Machine.instantiate (m : Machine) (cls : Nat) (f : Closure) : Machine :=
  let made := (m.store.newInstance ⟨cls, .empty⟩).2
  { m with store := (made.bind f (.inst m.store.instances.size)).2 }

/-- The parameters bound to arguments. -/
def parameterBindings (params : List Token) (arguments : List Value) : Table Value :=
  .ofList ((params.zip arguments).map fun (param, argument) => (param.lexeme, argument))

/-- A task, where it stands, how deep it may nest, and the machine it is begun on. -/
structure Visit where
  depth : Nat
  place : Place
  task : Task
  machine : Machine

namespace Eval

variable (mode : Mode)

/-- Runs a task and drops its value. -/
def perform (depth : Nat) : Task → Eval Unit
  | .node n => do let _ ← eval mode depth n
  | .each ns => do let _ ← ns.mapM (eval mode depth)
  | .statements ns => inOrder (eval mode depth) ns
  | .turns condition body count =>
    repeatWhile (eval mode depth condition) (eval mode depth body) count
  | .call callee arguments => do let _ ← call mode depth callee arguments

/-- Execution of the first goes on to execute the second. -/
inductive Enters : Visit → Visit → Prop
  | first {depth p n part m} : n.first? = some part →
    Enters ⟨depth + 1, p, .node n, m⟩ ⟨depth, p, .node part, m⟩
  | next {depth p n part task value m m'} : n.first? = some part →
    eval mode depth part m = .ok value m' → n.next? value = some task →
    Enters ⟨depth + 1, p, .node n, m⟩ ⟨depth, p, task, m'⟩
  | call {depth p callee paren ns value values m m₁ m₂} :
    eval mode depth callee m = .ok value m₁ → ns.mapM (eval mode depth) m₁ = .ok values m₂ →
    m₂.store.arity? value = .ok (some values.length) →
    Enters ⟨depth + 1, p, .node (.call callee paren ns), m⟩ ⟨depth, p, .call value values, m₂⟩
  | block {depth p ns m} :
    Enters ⟨depth + 1, p, .node (.block ns), m⟩
      ⟨depth, .inner, .statements ns, m.nest ⟨.empty, some m.environment⟩⟩
  | initializer {depth p name value m} :
    Enters ⟨depth + 1, p, .node (.varDecl name (some value)), m⟩
      ⟨depth, p.initializer name.lexeme, .node value, m⟩
  | loop {depth p condition body m} :
    Enters ⟨depth + 1, p, .node (.loop condition body), m⟩
      ⟨depth, p, .turns condition body mode.turns, m⟩
  | condition {depth p condition body count m} :
    Enters ⟨depth, p, .turns condition body (count + 1), m⟩ ⟨depth, p, .node condition, m⟩
  | body {depth p condition body count value m m₁} :
    eval mode depth condition m = .ok value m₁ → value.isTruthy = true →
    Enters ⟨depth, p, .turns condition body (count + 1), m⟩ ⟨depth, p, .node body, m₁⟩
  | again {depth p condition body count value value' m m₁ m₂} :
    eval mode depth condition m = .ok value m₁ → value.isTruthy = true →
    eval mode depth body m₁ = .ok value' m₂ →
    Enters ⟨depth, p, .turns condition body (count + 1), m⟩
      ⟨depth, p, .turns condition body count, m₂⟩
  | statement {depth p n rest m} :
    Enters ⟨depth, p, .statements (n :: rest), m⟩ ⟨depth, p, .node n, m⟩
  | later {depth p n rest value m m₁} : eval mode depth n m = .ok value m₁ →
    Enters ⟨depth, p, .statements (n :: rest), m⟩ ⟨depth, p, .statements rest, m₁⟩
  | argument {depth p n rest m} :
    Enters ⟨depth, p, .each (n :: rest), m⟩ ⟨depth, p, .node n, m⟩
  | arguments {depth p n rest value m m₁} : eval mode depth n m = .ok value m₁ →
    Enters ⟨depth, p, .each (n :: rest), m⟩ ⟨depth, p, .each rest, m₁⟩
  | function {depth p id f params values m} : m.store.closure? id = some f →
    f.declaration.parameters = .ok params →
    ((params.zip values).any fun (param, _) => param.isMissing) = false →
    Enters ⟨depth + 1, p, .call (.function id) values, m⟩
      ⟨depth, .inner, .statements f.declaration.body,
        m.nest ⟨parameterBindings params values, some f.environment⟩⟩
  | construct {depth p cls f values m} : m.store.method? cls "init" = some f →
    Enters ⟨depth + 1, p, .call (.cls cls) values, m⟩
      ⟨depth, p, .call (.function m.store.functions.size) values, m.instantiate cls f⟩

/-- Execution of the first comes to execute the second, sooner or later. -/
def Comes : Visit → Visit → Prop := Relation.ReflTransGen (Enters mode)

/-- The visit ends in the fault. -/
def Faults (v : Visit) (f : Fault) : Prop :=
  ∃ m', perform mode v.depth v.task v.machine = .error (.fault f) m'

/-! ## Faults pass outward -/

variable {α β : Type} {mode}

theorem bind_ok {c : Eval α} {k : α → Eval β} {m m' : Machine} {a : α} (h : c m = .ok a m') :
    (c >>= k) m = k a m' := by
  show EStateM.bind c k m = _
  simp [EStateM.bind, h]

theorem bind_error {c : Eval α} {k : α → Eval β} {m m' : Machine} {signal : Signal}
    (h : c m = .error signal m') : (c >>= k) m = .error signal m' := by
  show EStateM.bind c k m = _
  simp [EStateM.bind, h]

/-- Dropping the value changes no error. -/
theorem error_of_drop {c : Eval α} {m m' : Machine} {signal : Signal}
    (h : (do let _ ← c : Eval Unit) m = .error signal m') : c m = .error signal m' := by
  rcases hc : c m with ⟨a, m₁⟩ | ⟨s, m₁⟩
  · rw [bind_ok hc] at h
    cases h
  · rw [bind_error hc] at h
    cases h
    rfl

/-- A node begins with its first part. -/
theorem eval_first {n part : Node} (h : n.first? = some part) (depth : Nat) :
    ∃ k : Value → Eval Value, eval mode (depth + 1) n = eval mode depth part >>= k := by
  unfold Node.first? at h
  split at h <;> cases h
  case h_8 => exact ⟨pure, (bind_pure _).symm⟩
  all_goals exact ⟨_, rfl⟩

theorem checkToken_eq {token : Token} (h : token.isMissing = false) :
    checkToken token = pure () := by
  simp [checkToken, h]

/-- After its first part a node goes on with what is next. -/
theorem eval_next {n part : Node} {task : Task} {depth : Nat} {value : Value} {m m' : Machine}
    (h : n.first? = some part) (hpart : eval mode depth part m = .ok value m')
    (htask : n.next? value = some task) {f : Fault} {m'' : Machine}
    (hf : perform mode depth task m' = .error (.fault f) m'') :
    eval mode (depth + 1) n m = .error (.fault f) m'' := by
  unfold Node.next? at htask
  split at htask
  · cases h
    cases htask
    exact (bind_ok hpart).trans (bind_error (error_of_drop hf))
  · rename_i operator right value
    cases h
    split at htask
    · cases htask
    · rename_i hgoes
      cases htask
      obtain ⟨hpresent, hshort⟩ := not_or.1 hgoes
      refine (bind_ok hpart).trans ?_
      rw [checkToken_eq (by simpa using hpresent), pure_bind, if_neg hshort]
      exact error_of_drop hf
  · cases h
    cases htask
    exact (bind_ok hpart).trans (bind_error (error_of_drop hf))
  · cases h
    cases htask
    exact (bind_ok hpart).trans (bind_error (error_of_drop hf))
  · rename_i thenBranch elseBranch value
    cases h
    refine (bind_ok hpart).trans ?_
    split at htask
    · rename_i htruthy
      cases htask
      rw [if_pos htruthy]
      exact bind_error (error_of_drop hf)
    · rename_i hfalsy
      obtain ⟨branch, rfl, rfl⟩ := Option.map_eq_some_iff.1 htask
      rw [if_neg hfalsy]
      exact bind_error (error_of_drop hf)
  · cases htask

theorem within_error {environment : Nat} {body : Eval α} {m m' : Machine} {signal : Signal}
    (h : body { m with environment } = .error signal m') :
    within environment body m = .error signal { m' with environment := m.environment } := by
  simp [within, h]

/-- However a computation ends, it is back in the environment around it. -/
theorem environment_within {environment : Nat} {body : Eval α} {m m' : Machine} {signal : Signal}
    (h : within environment body m = .error signal m') : m'.environment = m.environment := by
  rw [within] at h
  split at h <;> cases h
  rfl

theorem catchReturn_ok {body : Eval Value} {m m' : Machine} {v : Value} (h : body m = .ok v m') :
    catchReturn body m = .ok v m' := by
  simp [catchReturn, h]

theorem catchReturn_returning {body : Eval Value} {m m' : Machine} {v : Value}
    (h : body m = .error (.returning v) m') : catchReturn body m = .ok v m' := by
  simp [catchReturn, h]

/-- Nothing but a `return` is caught. -/
theorem catchReturn_error {body : Eval Value} {m m' : Machine} {signal : Signal}
    (h : body m = .error signal m') (hsignal : ∀ v, signal ≠ .returning v) :
    catchReturn body m = .error signal m' := by
  cases signal with
  | returning v => exact absurd rfl (hsignal v)
  | _ => simp [catchReturn, h]

theorem parameterTable_eq {params : List Token} {values : List Value}
    (h : ((params.zip values).any fun (param, _) => param.isMissing) = false) :
    parameterTable params values = pure (parameterBindings params values) := by
  simp only [parameterTable, h, Bool.false_eq_true, if_false]
  rfl

/-- A block runs its statements in a new environment. -/
theorem eval_block (depth : Nat) (ns : List Node) (m : Machine) :
    eval mode (depth + 1) (.block ns) m =
      (within m.store.environments.size (inOrder (eval mode depth) ns) >>= fun _ => return .nil)
      { m with store := (m.store.newEnvironment ⟨.empty, some m.environment⟩).2 } :=
  rfl

/-- A function runs its body in a new environment that has its arguments. -/
theorem call_function (mode : Mode) (depth : Nat) {id : Nat} {f : Closure} {params : List Token}
    {values : List Value} {m : Machine} (hf : m.store.closure? id = some f)
    (hparams : f.declaration.parameters = .ok params)
    (hpresent : ((params.zip values).any fun (param, _) => param.isMissing) = false) :
    call mode (depth + 1) (.function id) values m =
      (catchReturn (within m.store.environments.size do
          inOrder (eval mode depth) f.declaration.body
          return .nil) >>= fun result =>
        if f.isInitializer then within f.environment (getAt 0 "this") else return result)
      { m with store :=
          (m.store.newEnvironment ⟨parameterBindings params values, some f.environment⟩).2 } := by
  have hstart : ofExcept (f.declaration.parameters.mapError .fault) m = .ok params m := by
    rw [hparams]
    rfl
  refine (bind_ok (c := get) rfl).trans ?_
  rw [hf]
  refine (bind_ok hstart).trans ?_
  rw [parameterTable_eq hpresent]
  rfl

/-- A class that has an initializer runs it on the new instance. -/
theorem call_class {depth cls : Nat} {f : Closure} {values : List Value} {m : Machine}
    (hf : m.store.method? cls "init" = some f) :
    call mode (depth + 1) (.cls cls) values m =
      (call mode depth (.function m.store.functions.size) values >>= fun _ =>
        return .inst m.store.instances.size) (m.instantiate cls f) := by
  have hmethod : (m.store.newInstance ⟨cls, .empty⟩).2.method? cls "init" = some f := by
    rw [Store.method?_congr m.store (m.store.newInstance ⟨cls, .empty⟩).2 rfl rfl, hf]
  refine (bind_ok (c := alloc _) rfl).trans ((bind_ok (c := get) rfl).trans ?_)
  rw [hmethod]
  rfl

theorem repeatWhile_condition {condition body : Eval Value} {count : Nat} {value : Value}
    {m m' : Machine} (h : condition m = .ok value m') :
    repeatWhile condition body (count + 1) m =
      (if value.isTruthy then body >>= fun _ => repeatWhile condition body count
        else pure ()) m' := by
  rw [repeatWhile, bind_ok h]

theorem mapM_cons_ok {run : Node → Eval Value} {n : Node} {rest : List Node} {value : Value}
    {m m' : Machine} (h : run n m = .ok value m') :
    (n :: rest).mapM run m = (rest.mapM run >>= fun values => pure (value :: values)) m' := by
  rw [List.mapM_cons, bind_ok h]

theorem Enters.faults {v v' : Visit} {f : Fault} (h : Enters mode v v') (hf : Faults mode v' f) :
    Faults mode v f := by
  obtain ⟨m', hf⟩ := hf
  cases h with
  | first hfirst =>
    obtain ⟨k, hk⟩ := eval_first hfirst _
    refine ⟨m', bind_error ?_⟩
    rw [hk]
    exact bind_error (error_of_drop hf)
  | next hfirst hpart htask => exact ⟨m', bind_error (eval_next hfirst hpart htask hf)⟩
  | call hcallee hvalues harity =>
    refine ⟨m', bind_error ((bind_ok hcallee).trans ((bind_ok hvalues).trans ?_))⟩
    refine (bind_ok (c := get) rfl).trans ?_
    rw [harity]
    simp only [ne_eq, not_true_eq_false, if_false]
    exact error_of_drop hf
  | block =>
    exact ⟨_, bind_error ((eval_block _ _ _).trans (bind_error (within_error hf)))⟩
  | initializer => exact ⟨m', bind_error (bind_error (error_of_drop hf))⟩
  | loop => exact ⟨m', bind_error (bind_error hf)⟩
  | condition => exact ⟨m', bind_error (error_of_drop hf)⟩
  | body hcondition htruthy =>
    refine ⟨m', (repeatWhile_condition hcondition).trans ?_⟩
    rw [if_pos htruthy]
    exact bind_error (error_of_drop hf)
  | again hcondition htruthy hbody =>
    refine ⟨m', (repeatWhile_condition hcondition).trans ?_⟩
    rw [if_pos htruthy]
    exact (bind_ok hbody).trans hf
  | statement => exact ⟨m', bind_error (error_of_drop hf)⟩
  | later hn => exact ⟨m', (bind_ok hn).trans hf⟩
  | argument =>
    refine ⟨m', bind_error ?_⟩
    rw [List.mapM_cons]
    exact bind_error (error_of_drop hf)
  | arguments hn =>
    refine ⟨m', bind_error ((mapM_cons_ok hn).trans ?_)⟩
    exact bind_error (error_of_drop hf)
  | function hclosure hparams hpresent =>
    exact ⟨_, bind_error ((call_function mode _ hclosure hparams hpresent).trans
      (bind_error (catchReturn_error (within_error (bind_error hf)) nofun)))⟩
  | construct hmethod =>
    refine ⟨m', bind_error ((call_class hmethod).trans ?_)⟩
    exact bind_error (error_of_drop hf)

/-- A fault in a part that execution comes to is the fault of the whole. -/
theorem Comes.faults {v v' : Visit} {f : Fault} (h : Comes mode v v') (hf : Faults mode v' f) :
    Faults mode v f := by
  induction h using Relation.ReflTransGen.head_induction_on with
  | refl => exact hf
  | head h _ ih => exact h.faults ih

end Eval

end Lox
