import Mathlib.Tactic
import Lox.Proofs.Unlined
import Lox.Proofs.Visits

/-!
# Running without lines

A running program does not look at lines. A line only goes along with the token of an error, and
with the declarations of functions. So a machine without its lines that runs a tree without its
lines ends as the machine does that runs the tree, without the lines (`carries_inOrder`).
-/

namespace Lox

def RuntimeError.unlined (e : RuntimeError) : RuntimeError := { e with token := e.token.unlined }

def Signal.unlined : Signal → Signal
  | .error e => .error e.unlined
  | signal => signal

def Closure.unlined (f : Closure) : Closure := { f with declaration := f.declaration.unlined }

/-- The store with the lines taken out of its functions. -/
def Store.unlined (s : Store) : Store := { s with functions := s.functions.map Closure.unlined }

def Machine.unlined (m : Machine) : Machine := { m with store := m.store.unlined }

namespace Closure

theorem arity_unlined (f : Closure) : f.unlined.arity = f.arity := by
  unfold arity
  rw [show f.unlined.declaration = f.declaration.unlined from rfl, Node.unlined_parameters]
  cases f.declaration.parameters <;> simp [Except.map]

theorem name_unlined (f : Closure) : f.unlined.name = f.name := by
  unfold name
  rw [show f.unlined.declaration = f.declaration.unlined from rfl, Node.unlined_name?]
  cases f.declaration.name? <;> rfl

end Closure

/-! ## The store -/

namespace Store

variable (s : Store)

theorem environment_unlined (env : Nat) : s.unlined.environment env = s.environment env := rfl

theorem closure?_unlined (id : Nat) :
    s.unlined.closure? id = (s.closure? id).map Closure.unlined := by
  simp [closure?, unlined]

theorem newFunction_unlined (f : Closure) :
    s.unlined.newFunction f.unlined = ((s.newFunction f).1, (s.newFunction f).2.unlined) := by
  simp [newFunction, unlined]

theorem bind_unlined (f : Closure) (receiver : Value) :
    s.unlined.bind f.unlined receiver = ((s.bind f receiver).1, (s.bind f receiver).2.unlined) := by
  simp [bind, newFunction, newEnvironment, unlined, Closure.unlined]

theorem ancestor_unlined (hops : Nat) (env : Option Nat) :
    s.unlined.ancestor hops env = s.ancestor hops env := by
  induction hops generalizing env with
  | zero => rfl
  | succ hops ih =>
    cases env with
    | none => rfl
    | some env => exact ih _

theorem environmentAt_unlined (hops env : Nat) :
    s.unlined.environmentAt hops env = s.environmentAt hops env := by
  unfold environmentAt
  rw [ancestor_unlined]

theorem getAt_unlined (hops env : Nat) (name : String) :
    s.unlined.getAt hops env name = s.getAt hops env name := by
  unfold getAt
  rw [environmentAt_unlined]
  rfl

theorem holderAt_unlined (hops env : Nat) (name : String) :
    s.unlined.holderAt hops env name = s.holderAt hops env name := by
  unfold holderAt
  rw [environmentAt_unlined]
  rfl

theorem findWithin_unlined (name : String) (steps env : Nat) :
    s.unlined.findWithin name steps env = s.findWithin name steps env := by
  induction steps generalizing env with
  | zero => rfl
  | succ steps ih => simp only [findWithin, environment_unlined, ih]

theorem find?_unlined (env : Nat) (name : String) :
    s.unlined.find? env name = s.find? env name := findWithin_unlined s name _ env

theorem holder_unlined (env : Nat) (name : Token) :
    s.unlined.holder env name.unlined = (s.holder env name).mapError RuntimeError.unlined := by
  unfold holder
  rw [Token.unlined_lexeme, find?_unlined]
  cases s.find? env name.lexeme <;> rfl

theorem get_unlined (env : Nat) (name : Token) :
    s.unlined.get env name.unlined = (s.get env name).mapError RuntimeError.unlined := by
  unfold get
  rw [Token.unlined_lexeme, find?_unlined]
  simp only [environment_unlined]
  split <;> rfl

theorem findMethodWithin_unlined (name : String) (steps cls : Nat) :
    s.unlined.findMethodWithin name steps cls = s.findMethodWithin name steps cls := by
  induction steps generalizing cls with
  | zero => rfl
  | succ steps ih =>
    simp only [findMethodWithin, ih]
    rfl

theorem method?_unlined (cls : Nat) (name : String) :
    s.unlined.method? cls name = (s.method? cls name).map Closure.unlined := by
  unfold method? findMethod?
  rw [findMethodWithin_unlined, Option.map_bind]
  exact congrArg _ (funext fun id => closure?_unlined s id)

theorem arity?_unlined (v : Value) : s.unlined.arity? v = s.arity? v := by
  cases v with
  | function id =>
    simp only [arity?, closure?_unlined]
    cases s.closure? id with
    | none => rfl
    | some f => simp only [Option.map_some, Closure.arity_unlined]
  | cls id =>
    simp only [arity?, method?_unlined]
    cases s.method? id "init" with
    | none => rfl
    | some f => simp only [Option.map_some, Closure.arity_unlined]
  | _ => rfl

theorem property_unlined (inst : Nat) (name : Token) :
    s.unlined.property inst name.unlined =
      ((s.property inst name).mapError RuntimeError.unlined).map (Sum.map id Closure.unlined) := by
  have hinstance : s.unlined.instance? inst = s.instance? inst := rfl
  simp only [property, hinstance, Token.unlined_lexeme, method?_unlined]
  cases ((s.instance? inst).getD default).fields.get? name.lexeme with
  | some value => rfl
  | none => cases s.method? ((s.instance? inst).getD default).cls name.lexeme <;> rfl

theorem stringify_unlined (v : Value) : s.unlined.stringify v = s.stringify v := by
  cases v with
  | function id =>
    simp only [stringify, closure?_unlined, Option.map_map]
    rw [show (fun f : Closure => f.name) ∘ Closure.unlined = fun f => f.name from
      funext Closure.name_unlined]
  | bool b => cases b <;> rfl
  | _ => rfl

end Store

namespace Eval

variable {α β : Type}

/-! ## Rules -/

/-- The end of a computation without its lines. -/
def unlinedResult : EStateM.Result Signal Machine α → EStateM.Result Signal Machine α
  | .ok a m => .ok a m.unlined
  | .error signal m => .error signal.unlined m.unlined

/-- From a machine without its lines the second computation ends as the first does, without the
lines. -/
def Carries (x y : Eval α) : Prop := ∀ m : Machine, y m.unlined = unlinedResult (x m)

theorem carries_pure (a : α) : Carries (pure a) (pure a) := fun _ => rfl

theorem carries_throw (signal : Signal) :
    Carries (throw signal : Eval α) (throw signal.unlined) := fun _ => rfl

theorem Carries.bind {x y : Eval α} {k l : α → Eval β} (hx : Carries x y)
    (hk : ∀ a, Carries (k a) (l a)) : Carries (x >>= k) (y >>= l) := by
  intro m
  have hm := hx m
  rcases hrun : x m with ⟨a, m'⟩ | ⟨signal, m'⟩ <;> rw [hrun, unlinedResult] at hm
  · rw [bind_ok hrun, bind_ok hm, hk a m']
  · rw [bind_error hrun, bind_error hm, unlinedResult]

theorem carries_get {k l : Machine → Eval α} (h : ∀ m, Carries (k m) (l m.unlined)) :
    Carries (get >>= k) (get >>= l) := fun m => h m m

theorem Carries.ite {p q : Prop} [Decidable p] [Decidable q] {x y x' y' : Eval α} (hpq : p ↔ q)
    (hx : Carries x x') (hy : Carries y y') :
    Carries (if p then x else y) (if q then x' else y') := by
  by_cases hp : p
  · rwa [if_pos hp, if_pos (hpq.1 hp)]
  · rwa [if_neg hp, if_neg (mt hpq.2 hp)]

theorem carries_fault (f : Fault) : Carries (fault f : Eval α) (fault f) := carries_throw (.fault f)

theorem carries_checkToken (t : Token) : Carries (checkToken t) (checkToken t.unlined) :=
  .ite .rfl (carries_fault _) (carries_pure ())

theorem carries_fail (t : Token) (cause : RuntimeError.Cause) :
    Carries (fail t cause : Eval α) (fail t.unlined cause) :=
  (carries_checkToken t).bind fun _ => carries_throw (.error ⟨t, cause⟩)

theorem carries_ofExcept (result : Except Signal α) :
    Carries (ofExcept result) (ofExcept (result.mapError Signal.unlined)) := by
  intro m
  cases result <;> rfl

theorem Carries.within {x y : Eval α} (hx : Carries x y) (env : Nat) :
    Carries (within env x) (within env y) := by
  intro m
  have hm := hx { m with environment := env }
  unfold Eval.within
  rw [show { m.unlined with environment := env } =
    Machine.unlined { m with environment := env } from rfl, hm]
  cases x { m with environment := env } <;> rfl

theorem Carries.catchReturn {x y : Eval Value} (hx : Carries x y) :
    Carries (catchReturn x) (catchReturn y) := by
  intro m
  unfold Eval.catchReturn
  rw [hx m]
  rcases x m with ⟨a, m'⟩ | ⟨signal, m'⟩
  · rfl
  · cases signal <;> rfl

theorem carries_alloc {make make' : Store → Nat × Store}
    (h : ∀ s, make' s.unlined = ((make s).1, (make s).2.unlined)) :
    Carries (alloc make) (alloc make') := by
  intro m
  have hm := h m.store
  simp only [alloc, Machine.unlined, unlinedResult, hm]

theorem carries_modifyStore {f : Store → Store} (h : ∀ s, f s.unlined = (f s).unlined) :
    Carries (modifyStore f) (modifyStore f) := by
  intro m
  simp only [modifyStore, Machine.unlined, unlinedResult, h]

theorem carries_enter (env : Nat) : Carries (enter env) (enter env) := fun _ => rfl

theorem carries_define (name : Token) (v : Value) :
    Carries (define name v) (define name.unlined v) :=
  (carries_checkToken name).bind fun _ _ => rfl

theorem carries_print (text : String) : Carries (print text) (print text) := fun _ => rfl

/-! ## Names -/

theorem carries_getAt (hops : Nat) (name : String) :
    Carries (getAt hops name) (getAt hops name) := by
  intro m
  have hget := m.store.getAt_unlined hops m.environment name
  simp only [getAt, Machine.unlined, hget]
  cases m.store.getAt hops m.environment name <;> rfl

variable {mode : Mode}

theorem carries_lookup (r : Reference) : Carries (lookup mode r) (lookup mode r.unlined) := by
  refine (carries_checkToken r.name).bind fun _ => ?_
  rw [show mode.hops r.unlined = mode.hops r from rfl]
  cases mode.hops r with
  | some hops => exact carries_getAt hops r.name.lexeme
  | none =>
    intro m
    have hget := m.store.get_unlined Store.globals r.name
    simp only [Machine.unlined, Reference.unlined_name, hget]
    cases m.store.get Store.globals r.name <;> rfl

theorem holder_unlined (r : Reference) (m : Machine) :
    holder mode r.unlined m.unlined = (holder mode r m).mapError Signal.unlined := by
  unfold holder
  rw [show mode.hops r.unlined = mode.hops r from rfl]
  cases mode.hops r with
  | some hops =>
    have hholder := m.store.holderAt_unlined hops m.environment r.name.lexeme
    simp only [Machine.unlined, Reference.unlined_name, Token.unlined_lexeme, hholder]
    cases m.store.holderAt hops m.environment r.name.lexeme <;> rfl
  | none =>
    have hholder := m.store.holder_unlined Store.globals r.name
    simp only [Machine.unlined, Reference.unlined_name, hholder]
    cases m.store.holder Store.globals r.name <;> rfl

theorem carries_assign (r : Reference) (v : Value) :
    Carries (assign mode r v) (assign mode r.unlined v) := by
  refine (carries_checkToken r.name).bind fun _ m => ?_
  simp only [holder_unlined]
  cases holder mode r m <;> rfl

theorem carries_assignNearest (name : Token) (v : Value) :
    Carries (assignNearest name v) (assignNearest name.unlined v) := by
  intro m
  have hholder := m.store.holder_unlined m.environment name
  simp only [assignNearest, Machine.unlined, hholder]
  cases m.store.holder m.environment name <;> rfl

theorem carries_getProperty (inst : Nat) (name : Token) :
    Carries (getProperty inst name) (getProperty inst name.unlined) := by
  refine (carries_checkToken name).bind fun _ m => ?_
  have hproperty := m.store.property_unlined inst name
  simp only [Machine.unlined, hproperty]
  rcases m.store.property inst name with e | (v | f)
  · rfl
  · rfl
  · simp only [Except.mapError, Except.map, Sum.map_inr, Store.bind_unlined]
    rfl

theorem carries_setProperty (inst : Nat) (name : Token) (v : Value) :
    Carries (setProperty inst name v) (setProperty inst name.unlined v) :=
  (carries_checkToken name).bind fun _ => carries_modifyStore fun _ => rfl

/-! ## Loops and lists -/

theorem Carries.repeatWhile {condition body condition' body' : Eval Value}
    (hcondition : Carries condition condition') (hbody : Carries body body') (turns : Nat) :
    Carries (repeatWhile condition body turns) (repeatWhile condition' body' turns) := by
  induction turns with
  | zero => exact carries_throw .exhausted
  | succ turns ih =>
    exact hcondition.bind fun v => .ite .rfl (hbody.bind fun _ => ih) (carries_pure ())

theorem carries_inOrderWith {run : Node → Eval Value} (h : ∀ n, Carries (run n) (run n.unlined))
    (ns : List Node) : Carries (inOrder run ns) (inOrder run (Node.unlinedAll ns)) := by
  induction ns with
  | nil => exact carries_pure ()
  | cons n rest ih => exact (h n).bind fun _ => ih

theorem carries_mapM {run : Node → Eval Value} (h : ∀ n, Carries (run n) (run n.unlined))
    (ns : List Node) : Carries (ns.mapM run) ((Node.unlinedAll ns).mapM run) := by
  induction ns with
  | nil => exact carries_pure []
  | cons n rest ih =>
    rw [Node.unlinedAll, List.mapM_cons, List.mapM_cons]
    exact (h n).bind fun v => ih.bind fun vs => carries_pure (v :: vs)

/-! ## Operators -/

theorem add_unlined (operator : Token) (left right : Value) :
    Operator.add operator.unlined left right =
      (Operator.add operator left right).mapError RuntimeError.unlined := by
  cases left <;> cases right <;> rfl

theorem ofNumbers_unlined (operator : Token) (f : Number → Number → Value) (left right : Value) :
    Operator.ofNumbers operator.unlined f left right =
      (Operator.ofNumbers operator f left right).mapError Signal.unlined := by
  cases left <;> cases right <;> rfl

theorem binary_unlined (operator : Token) (left right : Value) :
    Operator.binary operator.unlined left right =
      (Operator.binary operator left right).mapError Signal.unlined := by
  unfold Operator.binary
  simp only [Token.unlined_kind, ofNumbers_unlined, add_unlined]
  cases operator.kind with
  | plus => cases Operator.add operator left right <;> rfl
  | _ => rfl

theorem unary_unlined (operator : Token) (right : Value) :
    Operator.unary operator.unlined right =
      (Operator.unary operator right).mapError Signal.unlined := by
  unfold Operator.unary
  simp only [Token.unlined_kind]
  cases operator.kind with
  | minus => cases right <;> rfl
  | _ => rfl

/-! ## Declarations -/

theorem carries_checkInitialized (n : Node) (v : Value) :
    Carries (checkInitialized n v) (checkInitialized n.unlined v) := by
  cases n with
  | ident r =>
    cases v with
    | nil => exact carries_fail r.name _
    | _ => exact carries_pure ()
  | _ => exact carries_pure ()

theorem carries_declareFunction (name : Token) (declaration : Node) :
    Carries (declareFunction name declaration)
      (declareFunction name.unlined declaration.unlined) := by
  refine carries_get fun m => ?_
  refine (carries_alloc fun s => ?_).bind fun id => carries_define name _
  exact s.newFunction_unlined ⟨declaration, m.environment, false⟩

theorem carries_superclass (parent : Node) (v : Value) :
    Carries (superclass parent v) (superclass parent.unlined v) := by
  cases v with
  | cls id => exact carries_pure id
  | _ =>
    unfold superclass
    rw [Node.unlined_name?]
    cases parent.name? with
    | none => exact carries_fault _
    | some name => exact carries_fail name _

theorem carries_methodEnvironment (parent : Option Nat) :
    Carries (methodEnvironment parent) (methodEnvironment parent) := by
  cases parent with
  | none => exact carries_get fun m => carries_pure m.environment
  | some parent => exact carries_get fun m => carries_alloc fun _ => rfl

theorem carries_methodName (declaration : Node) :
    Carries (methodName declaration) (methodName declaration.unlined) := by
  have hnamed : ∀ name : Token, Carries (do checkToken name; return name.lexeme)
      (do checkToken name.unlined; return name.unlined.lexeme) := fun name =>
    (carries_checkToken name).bind fun _ => carries_pure name.lexeme
  cases declaration with
  | assign target value => exact hnamed target.name
  | property object name => exact hnamed name
  | setProperty object name value => exact hnamed name
  | ident name => exact hnamed name.name
  | classDecl name superclass methods => exact hnamed name
  | function name params body => exact hnamed name
  | varDecl name initializer => exact hnamed name
  | misfit m =>
    cases m with
    | unlisted content =>
      simp only [methodName, Node.unlined, Misfit.unlined, Node.unlined_sort]
      exact carries_fault _
    | function name params body => exact hnamed name
    | _ => exact carries_fault _
  | _ => exact carries_fault _

theorem carries_makeMethods (env : Nat) : ∀ (methods : List Node) (table : Table Nat),
    Carries (makeMethods env methods table) (makeMethods env (Node.unlinedAll methods) table)
  | [], table => carries_pure table
  | declaration :: rest, table => by
    refine (carries_methodName declaration).bind fun name => ?_
    refine (carries_alloc fun s => ?_).bind fun id => carries_makeMethods env rest _
    exact s.newFunction_unlined ⟨declaration, env, name = "init"⟩

theorem carries_declareClass (name : Token) (parent : Option Nat) (methods : List Node) :
    Carries (declareClass name parent methods)
      (declareClass name.unlined parent (Node.unlinedAll methods)) := by
  refine (carries_define name .nil).bind fun _ => carries_get fun m => ?_
  refine (carries_methodEnvironment parent).bind fun inner => ?_
  refine (carries_enter inner).bind fun _ => ?_
  refine (carries_makeMethods inner methods .empty).bind fun table => ?_
  refine (carries_enter _).bind fun _ => ?_
  exact (carries_alloc fun _ => rfl).bind fun id => carries_assignNearest name _

theorem carries_superMethod (keyword : Reference) (method : Token) :
    Carries (superMethod mode keyword method)
      (superMethod mode keyword.unlined method.unlined) := by
  unfold superMethod
  rw [show mode.hops keyword.unlined = mode.hops keyword from rfl]
  cases mode.hops keyword with
  | none => exact carries_fault _
  | some hops =>
    refine (carries_getAt hops "super").bind fun parent => ?_
    refine (carries_getAt (hops - 1) "this").bind fun receiver => ?_
    cases parent with
    | cls id =>
      refine (carries_checkToken method).bind fun _ => carries_get fun m => ?_
      have hmethod := m.store.method?_unlined id method.lexeme
      simp only [Machine.unlined, Token.unlined_lexeme, hmethod]
      cases m.store.method? id method.lexeme with
      | none => exact carries_fail method _
      | some f =>
        exact (carries_alloc fun s => s.bind_unlined f receiver).bind fun id =>
          carries_pure (Value.function id)
    | _ => exact carries_fault _

theorem carries_callNative (n : Native) (values : List Value) :
    Carries (callNative n values) (callNative n values) := by
  unfold callNative
  cases n.result with
  | clock => exact fun _ => rfl
  | argumentCount => exact carries_pure _

theorem carries_parameterTable (params : List Token) (values : List Value) :
    Carries (parameterTable params values)
      (parameterTable (params.map Token.unlined) values) := by
  simp only [parameterTable, List.zip_map_left, List.any_map, List.map_map]
  exact .ite .rfl ((carries_fault _).bind fun _ => carries_pure _) (carries_pure _)

theorem iterationFault?_unlined (content : Node) (f : String → Fault) :
    content.unlined.iterationFault? f = content.iterationFault? f := by
  cases content with
  | misfit m =>
    cases m with
    | unlisted content => rfl
    | _ => rfl
  | _ => rfl

theorem carries_misfit (m : Misfit) : Carries (misfit m) (misfit m.unlined) := by
  cases m with
  | quoted q => exact carries_pure (Value.quoted q)
  | function name params body =>
    exact (carries_declareFunction name (.misfit (.function name params body))).bind fun _ =>
      carries_pure Value.nil
  | unlisted content =>
    simp only [misfit, Misfit.unlined, iterationFault?_unlined]
    cases content.iterationFault? .notIterable with
    | some f => exact carries_fault f
    | none => exact carries_pure Value.nil
  | _ => exact carries_fault _

/-! ## Trees and calls -/

/-- What is carried at one depth. -/
structure CarriesAt (mode : Mode) (depth : Nat) : Prop where
  eval : ∀ n, Carries (eval mode depth n) (Eval.eval mode depth n.unlined)
  call : ∀ v values, Carries (call mode depth v values) (Eval.call mode depth v values)

section Step

variable {depth : Nat} (ih : CarriesAt mode depth)

include ih

theorem CarriesAt.callNode (callee : Node) (paren : Token) (arguments : List Node) :
    Carries (Eval.eval mode (depth + 1) (.call callee paren arguments))
      (Eval.eval mode (depth + 1) (.call callee.unlined paren.unlined
        (Node.unlinedAll arguments))) := by
  refine (ih.eval callee).bind fun callee => ?_
  refine (carries_mapM ih.eval arguments).bind fun values => carries_get fun m => ?_
  have harity := m.store.arity?_unlined callee
  simp only [Machine.unlined, harity]
  rcases m.store.arity? callee with f | (_ | arity)
  · exact carries_fault f
  · exact carries_fail paren _
  · exact .ite .rfl ((carries_fail paren _).bind fun _ => ih.call _ _) (ih.call _ _)

theorem CarriesAt.node (n : Node) :
    Carries (Eval.eval mode (depth + 1) n) (Eval.eval mode (depth + 1) n.unlined) := by
  cases n with
  | literal value => exact carries_pure _
  | group inner => exact ih.eval inner
  | ident r => exact carries_lookup r
  | receiver keyword => exact carries_lookup keyword
  | superMethod keyword method => exact carries_superMethod keyword method
  | assign target value =>
    exact (ih.eval value).bind fun v => (carries_assign target v).bind fun _ => carries_pure v
  | unary operator right =>
    refine (ih.eval right).bind fun v => ?_
    rw [unary_unlined]
    exact carries_ofExcept _
  | binary left operator right =>
    refine (ih.eval left).bind fun v => (ih.eval right).bind fun w => ?_
    rw [binary_unlined]
    exact carries_ofExcept _
  | logical left operator right =>
    exact (ih.eval left).bind fun v => (carries_checkToken operator).bind fun _ =>
      .ite .rfl (carries_pure v) (ih.eval right)
  | call callee paren arguments => exact ih.callNode callee paren arguments
  | property object name =>
    refine (ih.eval object).bind fun v => ?_
    cases v with
    | inst id => exact carries_getProperty id name
    | _ => exact carries_fail name _
  | setProperty object name value =>
    refine (ih.eval object).bind fun v => ?_
    cases v with
    | inst id =>
      exact (ih.eval value).bind fun v => (carries_setProperty id name v).bind fun _ =>
        carries_pure v
    | _ => exact carries_fail name _
  | block statements =>
    refine carries_get fun m => (carries_alloc fun _ => rfl).bind fun inner => ?_
    exact ((carries_inOrderWith ih.eval statements).within inner).bind
      fun _ => carries_pure Value.nil
  | classDecl name parent methods =>
    cases parent with
    | none => exact (carries_declareClass name none methods).bind fun _ => carries_pure Value.nil
    | some parent =>
      exact (ih.eval parent).bind fun v => (carries_superclass parent v).bind fun id =>
        (carries_declareClass name (some id) methods).bind fun _ => carries_pure Value.nil
  | expression value =>
    exact (ih.eval value).bind fun v => (carries_checkInitialized value v).bind fun _ =>
      carries_pure Value.nil
  | function name params body =>
    exact (carries_declareFunction name (.function name params body)).bind fun _ =>
      carries_pure Value.nil
  | conditional condition thenBranch elseBranch =>
    refine (ih.eval condition).bind fun v => .ite .rfl ?_ ?_
    · exact (ih.eval thenBranch).bind fun _ => carries_pure Value.nil
    · cases elseBranch with
      | none => exact carries_pure Value.nil
      | some elseBranch => exact (ih.eval elseBranch).bind fun _ => carries_pure Value.nil
  | print value =>
    refine (ih.eval value).bind fun v => (carries_checkInitialized value v).bind fun _ => ?_
    refine carries_get fun m => ?_
    rw [show m.unlined.store = m.store.unlined from rfl, Store.stringify_unlined]
    exact (carries_print _).bind fun _ => carries_pure Value.nil
  | returning keyword value =>
    cases value with
    | none => exact carries_throw (.returning .nil)
    | some value => exact (ih.eval value).bind fun v => carries_throw (.returning v)
  | varDecl name initializer =>
    cases initializer with
    | none => exact (carries_define name .nil).bind fun _ => carries_pure Value.nil
    | some initializer =>
      exact (ih.eval initializer).bind fun v => (carries_define name v).bind fun _ =>
        carries_pure Value.nil
  | loop condition body =>
    exact ((ih.eval condition).repeatWhile (ih.eval body) mode.turns).bind fun _ =>
      carries_pure Value.nil
  | misfit m => exact carries_misfit m

theorem CarriesAt.callFunction (id : Nat) (values : List Value) :
    Carries (Eval.call mode (depth + 1) (.function id) values)
      (Eval.call mode (depth + 1) (.function id) values) := by
  refine carries_get fun m => ?_
  rw [show m.unlined.store = m.store.unlined from rfl, Store.closure?_unlined]
  cases m.store.closure? id with
  | none => exact carries_fault _
  | some f =>
    have hparams : f.unlined.declaration.parameters =
        f.declaration.parameters.map (List.map Token.unlined) := f.declaration.unlined_parameters
    have hbody : f.unlined.declaration.body = Node.unlinedAll f.declaration.body :=
      f.declaration.unlined_body
    simp only [Option.map_some, hparams, hbody]
    cases f.declaration.parameters with
    | error e => exact carries_fault e
    | ok params =>
      refine (carries_parameterTable params values).bind fun table => ?_
      refine (carries_alloc fun _ => rfl).bind fun inner => ?_
      refine Carries.bind
        (Carries.catchReturn (.within (.bind ?_ fun _ => carries_pure Value.nil) _)) ?_
      · exact carries_inOrderWith ih.eval f.declaration.body
      · exact fun result => .ite .rfl ((carries_getAt 0 "this").within _) (carries_pure result)

theorem CarriesAt.callValue (v : Value) (values : List Value) :
    Carries (Eval.call mode (depth + 1) v values) (Eval.call mode (depth + 1) v values) := by
  cases v with
  | function id => exact ih.callFunction id values
  | cls id =>
    refine (carries_alloc fun _ => rfl).bind fun inst => carries_get fun m => ?_
    rw [show m.unlined.store = m.store.unlined from rfl, Store.method?_unlined]
    cases m.store.method? id "init" with
    | none => exact carries_pure _
    | some f =>
      refine (carries_alloc fun s => s.bind_unlined f (.inst inst)).bind fun bound => ?_
      exact (ih.call (.function bound) values).bind fun _ => carries_pure _
  | native id =>
    refine carries_get fun m => ?_
    rw [show m.unlined.store.native? id = m.store.native? id from rfl]
    cases m.store.native? id with
    | none => exact carries_fault _
    | some n => exact carries_callNative n values
  | _ => exact carries_fault _

end Step

theorem carriesAt (mode : Mode) (depth : Nat) : CarriesAt mode depth := by
  induction depth with
  | zero => exact ⟨fun _ => carries_throw .exhausted, fun _ _ => carries_throw .exhausted⟩
  | succ depth ih => exact ⟨ih.node, ih.callValue⟩

/-- Statements do not go by lines. -/
theorem carries_inOrder (mode : Mode) (depth : Nat) (ns : List Node) :
    Carries (inOrder (eval mode depth) ns) (inOrder (eval mode depth) (Node.unlinedAll ns)) :=
  carries_inOrderWith (carriesAt mode depth).eval ns

end Eval

end Lox
