import Mathlib.Tactic
import Lox.Proofs.Confined
import Lox.Proofs.Execution

/-!
# What a call can see and change

Whatever a machine runs in a closed region stays in the region (`confines`), by induction on the
depth with one case for each sort of node. A call starts from the objects that the callee, the
arguments and the globals lead to. So it changes nothing else that was there before, in particular
none of the locals of its caller, and it does not depend on where the machine is running when it
makes the call (`call_frame`).
-/

namespace Lox

/-- The machine is running inside the region, of which the store has kept to. -/
structure Region.Runs (g : Region) (m : Machine) : Prop where
  store : g.Confined m.store
  environment : g.Inside m.store (.environment m.environment)

namespace Eval

variable {α β : Type} {g : Region} {m m' : Machine}

/-- However the computation ends, the machine is still inside the region; and so is the value of a
`return`. -/
def Stays (g : Region) (x : Eval α) (m : Machine) (P : Store → α → Prop) : Prop :=
  match x m with
  | .ok a m' => (g.Runs m' ∧ m.store.Grown m'.store) ∧ P m'.store a
  | .error signal m' => (g.Runs m' ∧ m.store.Grown m'.store) ∧
      ∀ v, signal = .returning v → g.Knows m'.store v

variable {x : Eval α} {P : Store → α → Prop}

theorem stays_of_ok {a : α} (hx : x m = .ok a m') (hm' : g.Runs m')
    (hgrown : m.store.Grown m'.store) (hP : P m'.store a) : Stays g x m P := by
  rw [Stays, hx]
  exact ⟨⟨hm', hgrown⟩, hP⟩

theorem stays_of_error (signal : Signal) (hx : x m = .error signal m) (hm : g.Runs m)
    (hsignal : ∀ v, signal ≠ .returning v) : Stays g x m P := by
  rw [Stays, hx]
  exact ⟨⟨hm, fun _ ho => ho⟩, fun v hv => absurd hv (hsignal v)⟩

/-- Only the store changes. -/
theorem stays_store {a : α} {s : Store} (hx : x m = .ok a { m with store := s }) (hm : g.Runs m)
    (hs : g.Confined s ∧ m.store.Grown s) (hP : P s a) : Stays g x m P :=
  stays_of_ok hx ⟨hs.1, hm.environment.grown hs.2⟩ hs.2 hP

theorem stays_pure {a : α} (hm : g.Runs m) (hP : P m.store a) : Stays g (pure a) m P :=
  stays_of_ok rfl hm (fun _ ho => ho) hP

theorem Stays.bind {k : α → Eval β} {Q : Store → β → Prop} (h : Stays g x m P)
    (hk : ∀ a m', g.Runs m' → m.store.Grown m'.store → P m'.store a → Stays g (k a) m' Q) :
    Stays g (x >>= k) m Q := by
  have hbind : (x >>= k) m = match x m with
      | .ok a m' => k a m'
      | .error signal m' => .error signal m' := by
    show EStateM.bind x k m = _
    unfold EStateM.bind
    cases x m <;> rfl
  unfold Stays at h ⊢
  rw [hbind]
  rcases hx : x m with ⟨a, m₁⟩ | ⟨signal, m₁⟩ <;> simp only [hx] at h ⊢
  · have hrest := hk a m₁ h.1.1 h.1.2 h.2
    unfold Stays at hrest
    rcases hrun : k a m₁ with ⟨b, m₂⟩ | ⟨signal, m₂⟩ <;> simp only [hrun] at hrest ⊢ <;>
      exact ⟨⟨hrest.1.1, fun o ho => hrest.1.2 o (h.1.2 o ho)⟩, hrest.2⟩
  · exact h

/-! ## Signals -/

theorem stays_throw {signal : Signal} (hm : g.Runs m) (hsignal : ∀ v, signal ≠ .returning v) :
    Stays g (throw signal : Eval α) m P := stays_of_error signal rfl hm hsignal

theorem stays_returning {v : Value} (hm : g.Runs m) (hv : g.Knows m.store v) :
    Stays g (throw (.returning v) : Eval α) m P := by
  refine ⟨⟨hm, fun _ ho => ho⟩, fun w hw => ?_⟩
  cases hw
  exact hv

theorem stays_fault {f : Fault} (hm : g.Runs m) : Stays g (fault f : Eval α) m P :=
  stays_throw hm (by simp)

theorem stays_checkToken (token : Token) (hm : g.Runs m) :
    Stays g (checkToken token) m fun _ _ => True := by
  unfold checkToken
  split
  · exact stays_fault hm
  · exact stays_pure hm trivial

theorem stays_fail {token : Token} {cause : RuntimeError.Cause} (hm : g.Runs m) :
    Stays g (fail token cause : Eval α) m P :=
  (stays_checkToken token hm).bind fun _ _ hm' _ _ => stays_throw hm' (by simp)

/-- The continuation of a look at the machine. -/
theorem stays_get {k : Machine → Eval β} {Q : Store → β → Prop} (h : Stays g (k m) m Q) :
    Stays g (get >>= k) m Q := h

theorem stays_within {environment : Nat} {Q : Store → α → Prop} (hm : g.Runs m)
    (h : Stays g x { m with environment } Q) : Stays g (within environment x) m Q := by
  unfold Stays at h ⊢
  unfold within
  rcases hrun : x { m with environment } with ⟨a, m'⟩ | ⟨signal, m'⟩ <;>
    simp only [hrun] at h ⊢ <;>
    exact ⟨⟨⟨h.1.1.store, hm.environment.grown h.1.2⟩, h.1.2⟩, h.2⟩

theorem stays_catchReturn {x : Eval Value} (h : Stays g x m g.Knows) :
    Stays g (catchReturn x) m g.Knows := by
  unfold Stays at h ⊢
  unfold catchReturn
  rcases hrun : x m with ⟨v, m'⟩ | ⟨signal, m'⟩ <;> simp only [hrun] at h ⊢
  · exact h
  · cases signal with
    | returning v => exact ⟨h.1, h.2 v rfl⟩
    | _ => exact ⟨h.1, nofun⟩

/-! ## The store -/

theorem stays_alloc {make : Store → Nat × Store} {P : Store → Nat → Prop} (hm : g.Runs m)
    (h : g.Confined (make m.store).2 ∧ m.store.Grown (make m.store).2 ∧
      P (make m.store).2 (make m.store).1) : Stays g (alloc make) m P :=
  stays_store rfl hm ⟨h.1, h.2.1⟩ h.2.2

theorem stays_define {name : Token} {v : Value} (hm : g.Runs m) (hv : g.Knows m.store v) :
    Stays g (define name v) m fun _ _ => True := by
  refine (stays_checkToken name hm).bind fun _ m' hm' hgrown _ => ?_
  exact stays_store rfl hm' (hm'.store.define name.lexeme hm'.environment (hv.grown hgrown)) trivial

theorem stays_getAt {hops : Nat} {name : String} (hm : g.Runs m) :
    Stays g (getAt hops name) m g.Knows := by
  rcases hget : m.store.getAt hops m.environment name with f | v
  · exact stays_of_error (.fault f) (by rw [getAt, hget]) hm (by simp)
  · exact stays_of_ok (by rw [getAt, hget]) hm (fun _ ho => ho)
      (hm.store.getAt hm.environment hget)

theorem stays_lookup {mode : Mode} {r : Reference} (hm : g.Runs m) :
    Stays g (lookup mode r) m g.Knows := by
  refine (stays_checkToken _ hm).bind fun _ m' hm' _ _ => ?_
  split
  · exact stays_getAt hm'
  · rcases hget : m'.store.get Store.globals r.name with e | v
    · exact stays_of_error (.error e) (by simp only [hget]) hm' (by simp)
    · exact stays_of_ok (by simp only [hget]) hm' (fun _ ho => ho)
        (hm'.store.get (.inl hm'.store.globals) hget)

/-- The holder of a binding is inside, or there is none and the signal is no `return`. -/
theorem holder_spec (mode : Mode) (r : Reference) (hm : g.Runs m) :
    (∃ found, holder mode r m = .ok found ∧ g.Inside m.store (.environment found)) ∨
      ∃ signal, holder mode r m = .error signal ∧ ∀ v, signal ≠ .returning v := by
  unfold holder
  split
  · rcases hholder : m.store.holderAt _ m.environment r.name.lexeme with f | found
    · exact .inr ⟨.fault f, rfl, by simp⟩
    · exact .inl ⟨found, rfl, hm.store.holderAt hm.environment hholder⟩
  · rcases hholder : m.store.holder Store.globals r.name with e | found
    · exact .inr ⟨.error e, rfl, by simp⟩
    · exact .inl ⟨found, rfl, hm.store.holder (.inl hm.store.globals) hholder⟩

theorem stays_assign {mode : Mode} {r : Reference} {v : Value} (hm : g.Runs m)
    (hv : g.Knows m.store v) : Stays g (assign mode r v) m fun _ _ => True := by
  refine (stays_checkToken _ hm).bind fun _ m' hm' hgrown _ => ?_
  rcases holder_spec mode r hm' with ⟨found, hholder, hfound⟩ | ⟨signal, hholder, hsignal⟩
  · exact stays_store (by simp only [hholder]; rfl) hm'
      (hm'.store.define r.name.lexeme hfound (hv.grown hgrown)) trivial
  · exact stays_of_error signal (by simp only [hholder]) hm' hsignal

theorem stays_assignNearest {name : Token} {v : Value} (hm : g.Runs m) (hv : g.Knows m.store v) :
    Stays g (assignNearest name v) m fun _ _ => True := by
  rcases hholder : m.store.holder m.environment name with e | found
  · exact stays_of_error (.error e) (by rw [assignNearest, hholder]) hm (by simp)
  · exact stays_store (by rw [assignNearest, hholder]) hm
      (hm.store.define name.lexeme (hm.store.holder hm.environment hholder) hv) trivial

theorem stays_newFunction {f : Closure} (hm : g.Runs m)
    (hf : g.Inside m.store (.environment f.environment)) :
    Stays g (alloc (·.newFunction f)) m fun s id => g.Inside s (.function id) :=
  stays_alloc hm (hm.store.newFunction hf)

theorem stays_newEnvironment {e : Environment} (hm : g.Runs m)
    (he : g.EnvironmentInside m.store e) :
    Stays g (alloc (·.newEnvironment e)) m fun s id => g.Inside s (.environment id) :=
  stays_alloc hm (hm.store.newEnvironment he)

/-- A function inside is a value inside. -/
theorem knows_function {s : Store} {id : Nat} (h : g.Inside s (.function id)) :
    g.Knows s (.function id) := by
  intro o ho
  cases ho
  exact h

theorem stays_bind {f : Closure} {receiver : Value} (hm : g.Runs m)
    (hf : g.Inside m.store (.environment f.environment)) (hreceiver : g.Knows m.store receiver) :
    Stays g (alloc (·.bind f receiver)) m fun s id => g.Knows s (.function id) := by
  obtain ⟨hconfined, hgrown, hbound⟩ := hm.store.bind hf hreceiver
  exact stays_alloc hm ⟨hconfined, hgrown, knows_function hbound⟩

theorem stays_getProperty {id : Nat} {name : Token} (hm : g.Runs m)
    (hid : g.Knows m.store (.inst id)) : Stays g (getProperty id name) m g.Knows := by
  refine (stays_checkToken name hm).bind fun _ m' hm' hgrown _ => ?_
  have hid' : g.Inside m'.store (.inst id) := (hid _ rfl).grown hgrown
  rcases hproperty : m'.store.property id name with e | v | f
  · exact stays_of_error (.error e) (by simp only [hproperty]) hm' (by simp)
  · exact stays_of_ok (by simp only [hproperty]) hm' (fun _ ho => ho)
      ((hm'.store.property hid' hproperty).1 v rfl)
  · obtain ⟨hconfined, hgrown', hbound⟩ := hm'.store.bind
      ((hm'.store.property hid' hproperty).2 f rfl) (hid.grown hgrown)
    exact stays_store (by simp only [hproperty]) hm' ⟨hconfined, hgrown'⟩ (knows_function hbound)

theorem stays_setProperty {id : Nat} {name : Token} {v : Value} (hm : g.Runs m)
    (hid : g.Knows m.store (.inst id)) (hv : g.Knows m.store v) :
    Stays g (setProperty id name v) m fun _ _ => True := by
  refine (stays_checkToken name hm).bind fun _ m' hm' hgrown _ => ?_
  exact stays_store rfl hm'
    (hm'.store.setField name.lexeme ((hid _ rfl).grown hgrown) (hv.grown hgrown)) trivial

/-! ## Operators -/

/-- The value is no object. -/
def Plain (v : Value) : Prop := v.object? = none

theorem Plain.knows {s : Store} {v : Value} (h : Plain v) : g.Knows s v := by
  intro o ho
  rw [h] at ho
  cases ho

theorem knows_nil {s : Store} : g.Knows s .nil := Plain.knows (v := .nil) rfl

/-- A value that is no object, or a signal that is no `return`. -/
def EndsPlainly : Except Signal Value → Prop
  | .ok v => Plain v
  | .error signal => ∀ v, signal ≠ .returning v

theorem stays_ofExcept {result : Except Signal Value} (hm : g.Runs m) (h : EndsPlainly result) :
    Stays g (ofExcept result) m g.Knows := by
  rcases result with signal | v
  · exact stays_of_error signal rfl hm h
  · exact stays_of_ok rfl hm (fun _ ho => ho) h.knows

theorem unary_endsPlainly (operator : Token) (right : Value) :
    EndsPlainly (Operator.unary operator right) := by
  unfold Operator.unary
  split
  · exact rfl
  · split
    · exact rfl
    · exact fun _ => Signal.noConfusion
  · exact fun _ => Signal.noConfusion
  · exact fun _ => Signal.noConfusion

theorem ofNumbers_endsPlainly {operator : Token} {f : Number → Number → Value}
    (hf : ∀ x y, Plain (f x y)) (left right : Value) :
    EndsPlainly (Operator.ofNumbers operator f left right) := by
  unfold Operator.ofNumbers
  split
  · exact hf _ _
  · exact fun _ => Signal.noConfusion

theorem add_endsPlainly (operator : Token) (left right : Value) :
    EndsPlainly ((Operator.add operator left right).mapError .error) := by
  unfold Operator.add
  split
  · exact rfl
  · exact rfl
  · exact rfl
  · exact rfl
  · exact fun _ => Signal.noConfusion

theorem binary_endsPlainly (operator : Token) (left right : Value) :
    EndsPlainly (Operator.binary operator left right) := by
  simp only [Operator.binary]
  split
  · exact rfl
  · exact rfl
  · exact ofNumbers_endsPlainly (f := fun x y => .bool (y.lt x)) (fun _ _ => rfl) left right
  · exact ofNumbers_endsPlainly (f := fun x y => .bool (y.le x)) (fun _ _ => rfl) left right
  · exact ofNumbers_endsPlainly (f := fun x y => .bool (x.lt y)) (fun _ _ => rfl) left right
  · exact ofNumbers_endsPlainly (f := fun x y => .bool (x.le y)) (fun _ _ => rfl) left right
  · exact ofNumbers_endsPlainly (f := fun x y => .number (x.sub y)) (fun _ _ => rfl) left right
  · exact add_endsPlainly operator left right
  · exact ofNumbers_endsPlainly (f := fun x y => .number (x.div y)) (fun _ _ => rfl) left right
  · exact ofNumbers_endsPlainly (f := fun x y => .number (x.mul y)) (fun _ _ => rfl) left right
  · exact fun _ => Signal.noConfusion
  · exact fun _ => Signal.noConfusion

/-! ## Declarations -/

theorem stays_declareFunction {name : Token} {declaration : Node} (hm : g.Runs m) :
    Stays g (declareFunction name declaration) m fun _ _ => True := by
  refine stays_get ?_
  let f : Closure := ⟨declaration, m.environment, false⟩
  exact (stays_newFunction (f := f) hm hm.environment).bind fun _ _ hm' _ hid =>
    stays_define hm' (knows_function hid)

theorem stays_superclass {parent : Node} {v : Value} (hm : g.Runs m) (hv : g.Knows m.store v) :
    Stays g (superclass parent v) m fun s id => g.Inside s (.cls id) := by
  unfold superclass
  split
  · exact stays_pure hm (hv _ rfl)
  · split
    · exact stays_fail hm
    · exact stays_fault hm

theorem stays_methodEnvironment {parent : Option Nat} (hm : g.Runs m)
    (hparent : ∀ id, parent = some id → g.Inside m.store (.cls id)) :
    Stays g (methodEnvironment parent) m fun s id => g.Inside s (.environment id) := by
  cases parent with
  | none => exact stays_get (stays_pure hm hm.environment)
  | some parent =>
    refine stays_get (stays_alloc hm (hm.store.newEnvironment ⟨fun outer houter => ?_,
      fun name v hv o ho => ?_⟩))
    · cases houter
      exact hm.environment
    · rw [Table.get?_insert] at hv
      split at hv
      · cases hv
        cases ho
        exact hparent parent rfl
      · cases hv

theorem stays_methodName {declaration : Node} (hm : g.Runs m) :
    Stays g (methodName declaration) m fun _ _ => True := by
  unfold methodName
  split
  · exact stays_fault hm
  · split
    · exact (stays_checkToken _ hm).bind fun _ _ hm' _ _ => stays_pure hm' trivial
    · exact stays_fault hm

/-- The methods of the table are inside. -/
def MethodsInside (g : Region) (s : Store) (table : Table Nat) : Prop :=
  ∀ name k, table.get? name = some k → g.Inside s (.function k)

theorem stays_makeMethods {environment : Nat} : ∀ {methods : List Node} {table : Table Nat}
    {m : Machine}, g.Runs m → g.Inside m.store (.environment environment) →
    MethodsInside g m.store table →
    Stays g (makeMethods environment methods table) m fun s table => MethodsInside g s table
  | [], _, _, hm, _, htable => stays_pure hm htable
  | declaration :: rest, table, m, hm, henvironment, htable => by
    refine (stays_methodName hm).bind fun name m₁ hm₁ hgrown₁ _ => ?_
    let f : Closure := ⟨declaration, environment, name = "init"⟩
    refine (stays_newFunction (f := f) hm₁ (henvironment.grown hgrown₁)).bind
      fun id m₂ hm₂ hgrown₂ hid => ?_
    refine stays_makeMethods hm₂ ((henvironment.grown hgrown₁).grown hgrown₂) fun x k hk => ?_
    rw [Table.get?_insert] at hk
    split at hk
    · cases hk
      exact hid
    · exact ((htable x k hk).grown hgrown₁).grown hgrown₂

theorem stays_enter {environment : Nat} (hm : g.Runs m)
    (henvironment : g.Inside m.store (.environment environment)) :
    Stays g (enter environment) m fun _ _ => True :=
  stays_of_ok rfl ⟨hm.store, henvironment⟩ (fun _ ho => ho) trivial

theorem stays_declareClass {name : Token} {parent : Option Nat} {methods : List Node}
    (hm : g.Runs m) (hparent : ∀ id, parent = some id → g.Inside m.store (.cls id)) :
    Stays g (declareClass name parent methods) m fun _ _ => True := by
  refine (stays_define hm knows_nil).bind fun _ m₁ hm₁ hgrown₁ _ => stays_get ?_
  have hparent₁ := fun id hid => (hparent id hid).grown hgrown₁
  refine (stays_methodEnvironment hm₁ hparent₁).bind fun inner m₂ hm₂ hgrown₂ hinner => ?_
  refine (stays_enter hm₂ hinner).bind fun _ m₃ hm₃ hgrown₃ _ => ?_
  refine (stays_makeMethods hm₃ (hinner.grown hgrown₃)
    (fun x k hk => by cases hk)).bind fun table m₄ hm₄ hgrown₄ htable => ?_
  have houter := ((hm₁.environment.grown hgrown₂).grown hgrown₃).grown hgrown₄
  refine (stays_enter hm₄ houter).bind fun _ m₅ hm₅ hgrown₅ _ => ?_
  have hclass : g.ClassInside m₅.store ⟨name.lexeme, parent, table⟩ :=
    ⟨fun id hid => ((((hparent₁ id hid).grown hgrown₂).grown hgrown₃).grown hgrown₄).grown hgrown₅,
      fun x k hk => (htable x k hk).grown hgrown₅⟩
  refine (stays_alloc (P := fun s id => g.Inside s (.cls id)) hm₅
    (hm₅.store.newClass hclass)).bind fun id m₆ hm₆ _ hid => ?_
  refine stays_assignNearest hm₆ fun o ho => ?_
  cases ho
  exact hid

theorem stays_superMethod {mode : Mode} {keyword : Reference} {method : Token} (hm : g.Runs m) :
    Stays g (superMethod mode keyword method) m g.Knows := by
  unfold superMethod
  split
  · exact stays_fault hm
  · refine (stays_getAt hm).bind fun parent m₁ hm₁ _ hparent => ?_
    refine (stays_getAt hm₁).bind fun receiver m₂ hm₂ hgrown₂ hreceiver => ?_
    split
    · rename_i id
      refine (stays_checkToken _ hm₂).bind fun _ m₃ hm₃ hgrown₃ _ => stays_get ?_
      have hid : g.Inside m₃.store (.cls id) := ((hparent _ rfl).grown hgrown₂).grown hgrown₃
      split
      · rename_i f hf
        exact (stays_bind hm₃ (hm₃.store.method? hid hf) (hreceiver.grown hgrown₃)).bind
          fun _ _ hm₄ _ hbound => stays_pure hm₄ hbound
      · exact stays_fail hm₃
    · exact stays_fault hm₂

theorem stays_callNative {n : Native} {arguments : List Value} (hm : g.Runs m) :
    Stays g (callNative n arguments) m g.Knows := by
  unfold callNative
  split
  · exact stays_of_ok rfl ⟨hm.store, hm.environment⟩ (fun _ ho => ho) (Plain.knows rfl)
  · exact stays_pure hm (Plain.knows rfl)

theorem stays_misfit {n : Misfit} (hm : g.Runs m) : Stays g (misfit n) m g.Knows := by
  unfold misfit
  split
  · exact stays_pure hm (Plain.knows (v := .quoted _) rfl)
  · exact (stays_declareFunction hm).bind fun _ _ hm' _ _ => stays_pure hm' knows_nil
  · split
    · exact stays_fault hm
    · exact stays_pure hm knows_nil
  · exact stays_fault hm

theorem stays_checkInitialized {n : Node} {v : Value} (hm : g.Runs m) :
    Stays g (checkInitialized n v) m fun _ _ => True := by
  unfold checkInitialized
  split
  · exact stays_fail hm
  · exact stays_pure hm trivial

theorem stays_print {text : String} (hm : g.Runs m) : Stays g (print text) m fun _ _ => True :=
  stays_of_ok rfl ⟨hm.store, hm.environment⟩ (fun _ ho => ho) trivial

theorem stays_parameterTable {params : List Token} {arguments : List Value} (hm : g.Runs m)
    (harguments : ∀ a ∈ arguments, g.Knows m.store a) :
    Stays g (parameterTable params arguments) m fun s table =>
      ∀ name v, table.get? name = some v → g.Knows s v := by
  simp only [parameterTable]
  split
  · exact (stays_fault (P := fun _ _ => False) hm).bind fun _ _ _ _ h => h.elim
  · exact stays_pure hm fun name v hv => harguments v (parameterBindings_get? hv).2

theorem stays_parameters {declaration : Node} (hm : g.Runs m) :
    Stays g (ofExcept (declaration.parameters.mapError .fault)) m fun _ _ => True := by
  rcases declaration.parameters with f | params
  · exact stays_of_error (.fault f) rfl hm (by simp)
  · exact stays_of_ok rfl hm (fun _ ho => ho) trivial

/-! ## Nodes and calls -/

/-- Whatever is run within the depth stays inside the region. -/
structure Confines (g : Region) (mode : Mode) (depth : Nat) : Prop where
  node : ∀ {m : Machine} (n : Node), g.Runs m → Stays g (eval mode depth n) m g.Knows
  call : ∀ {m : Machine} {v : Value} {arguments : List Value}, g.Runs m → g.Knows m.store v →
    (∀ a ∈ arguments, g.Knows m.store a) → Stays g (call mode depth v arguments) m g.Knows

section Parts

variable {mode : Mode} {depth : Nat} (IH : Confines g mode depth)
include IH

theorem Confines.statements : ∀ (ns : List Node) {m : Machine}, g.Runs m →
    Stays g (inOrder (eval mode depth) ns) m fun _ _ => True
  | [], _, hm => stays_pure hm trivial
  | n :: rest, _, hm =>
    (IH.node n hm).bind fun _ _ hm' _ _ => Confines.statements rest hm'

theorem Confines.each : ∀ (ns : List Node) {m : Machine}, g.Runs m →
    Stays g (ns.mapM (eval mode depth)) m fun s values => ∀ v ∈ values, g.Knows s v
  | [], _, hm => by
    rw [List.mapM_nil]
    exact stays_pure hm (by simp)
  | n :: rest, _, hm => by
    rw [List.mapM_cons]
    refine (IH.node n hm).bind fun v m₁ hm₁ _ hv => ?_
    refine (Confines.each rest hm₁).bind fun values m₂ hm₂ hgrown hvalues => ?_
    refine stays_pure hm₂ fun w hw => ?_
    rcases List.mem_cons.1 hw with rfl | hw
    · exact hv.grown hgrown
    · exact hvalues w hw

theorem Confines.turns (condition body : Node) : ∀ (count : Nat) {m : Machine}, g.Runs m →
    Stays g (repeatWhile (eval mode depth condition) (eval mode depth body) count) m
      fun _ _ => True
  | 0, _, hm => stays_throw hm (by simp)
  | count + 1, _, hm => by
    refine (IH.node condition hm).bind fun v m₁ hm₁ _ _ => ?_
    split
    · exact (IH.node body hm₁).bind fun _ _ hm₂ _ _ => Confines.turns condition body count hm₂
    · exact stays_pure hm₁ trivial

theorem Confines.block (statements : List Node) (hm : g.Runs m) :
    Stays g (eval mode (depth + 1) (.block statements)) m g.Knows := by
  refine stays_get ?_
  have he : g.EnvironmentInside m.store ⟨.empty, some m.environment⟩ := by
    refine ⟨fun outer houter => ?_, fun name v hv => by cases hv⟩
    cases houter
    exact hm.environment
  refine (stays_newEnvironment hm he).bind fun inner m₁ hm₁ _ hinner => ?_
  have hbody := IH.statements statements
    (show g.Runs { m₁ with environment := inner } from ⟨hm₁.store, hinner⟩)
  exact (stays_within hm₁ hbody).bind fun _ _ hm₂ _ _ => stays_pure hm₂ knows_nil

theorem Confines.callNode (callee : Node) (paren : Token) (arguments : List Node)
    (hm : g.Runs m) : Stays g (eval mode (depth + 1) (.call callee paren arguments)) m g.Knows := by
  refine (IH.node callee hm).bind fun v m₁ hm₁ _ hv => ?_
  refine (IH.each arguments hm₁).bind fun values m₂ hm₂ hgrown hvalues => stays_get ?_
  rcases m₂.store.arity? v with f | _ | arity <;> simp only
  · exact stays_fault hm₂
  · exact stays_fail hm₂
  · split
    · exact (stays_fail (P := fun _ _ => False) hm₂).bind fun _ _ _ _ h => h.elim
    · exact IH.call hm₂ (hv.grown hgrown) hvalues

theorem Confines.conditional (condition thenBranch : Node) (elseBranch : Option Node)
    (hm : g.Runs m) :
    Stays g (eval mode (depth + 1) (.conditional condition thenBranch elseBranch)) m g.Knows := by
  refine (IH.node condition hm).bind fun v m₁ hm₁ _ _ => ?_
  split
  · exact (IH.node thenBranch hm₁).bind fun _ _ hm₂ _ _ => stays_pure hm₂ knows_nil
  · cases elseBranch with
    | none => exact stays_pure hm₁ knows_nil
    | some branch =>
      exact (IH.node branch hm₁).bind fun _ _ hm₂ _ _ => stays_pure hm₂ knows_nil

theorem Confines.setProperty (object : Node) (name : Token) (value : Node) (hm : g.Runs m) :
    Stays g (eval mode (depth + 1) (.setProperty object name value)) m g.Knows := by
  refine (IH.node object hm).bind fun v m₁ hm₁ _ hv => ?_
  cases v with
  | inst id =>
    refine (IH.node value hm₁).bind fun w m₂ hm₂ hgrown hw => ?_
    exact (stays_setProperty hm₂ (hv.grown hgrown) hw).bind fun _ _ hm₃ hgrown' _ =>
      stays_pure hm₃ (hw.grown hgrown')
  | _ => exact stays_fail hm₁

theorem Confines.classDecl (name : Token) (parent : Option Node) (methods : List Node)
    (hm : g.Runs m) :
    Stays g (eval mode (depth + 1) (.classDecl name parent methods)) m g.Knows := by
  cases parent with
  | none =>
    exact (stays_declareClass hm (by simp)).bind fun _ _ hm₁ _ _ => stays_pure hm₁ knows_nil
  | some parent =>
    refine (IH.node parent hm).bind fun v m₁ hm₁ _ hv => ?_
    refine (stays_superclass hm₁ hv).bind fun id m₂ hm₂ _ hid => ?_
    refine (stays_declareClass hm₂ fun id' heq => ?_).bind fun _ _ hm₃ _ _ =>
      stays_pure hm₃ knows_nil
    cases heq
    exact hid

theorem Confines.nodeStep (n : Node) (hm : g.Runs m) :
    Stays g (eval mode (depth + 1) n) m g.Knows := by
  cases n with
  | literal value => exact stays_pure hm (Plain.knows (by cases value <;> rfl))
  | group inner => exact IH.node inner hm
  | ident r => exact stays_lookup hm
  | receiver r => exact stays_lookup hm
  | superMethod keyword method => exact stays_superMethod hm
  | assign target value =>
    refine (IH.node value hm).bind fun v m₁ hm₁ _ hv => ?_
    exact (stays_assign hm₁ hv).bind fun _ _ hm₂ hgrown _ => stays_pure hm₂ (hv.grown hgrown)
  | unary operator right =>
    exact (IH.node right hm).bind fun v _ hm₁ _ _ =>
      stays_ofExcept hm₁ (unary_endsPlainly operator v)
  | binary left operator right =>
    refine (IH.node left hm).bind fun v m₁ hm₁ _ _ => ?_
    exact (IH.node right hm₁).bind fun w _ hm₂ _ _ =>
      stays_ofExcept hm₂ (binary_endsPlainly operator v w)
  | logical left operator right =>
    refine (IH.node left hm).bind fun v m₁ hm₁ _ hv => ?_
    refine (stays_checkToken operator hm₁).bind fun _ m₂ hm₂ hgrown _ => ?_
    split
    · exact stays_pure hm₂ (hv.grown hgrown)
    · exact IH.node right hm₂
  | call callee paren arguments => exact IH.callNode callee paren arguments hm
  | property object name =>
    refine (IH.node object hm).bind fun v m₁ hm₁ _ hv => ?_
    cases v with
    | inst id => exact stays_getProperty hm₁ hv
    | _ => exact stays_fail hm₁
  | setProperty object name value => exact IH.setProperty object name value hm
  | block statements => exact IH.block statements hm
  | classDecl name parent methods => exact IH.classDecl name parent methods hm
  | expression value =>
    refine (IH.node value hm).bind fun v m₁ hm₁ _ _ => ?_
    exact (stays_checkInitialized hm₁).bind fun _ _ hm₂ _ _ => stays_pure hm₂ knows_nil
  | function name params body =>
    exact (stays_declareFunction hm).bind fun _ _ hm₁ _ _ => stays_pure hm₁ knows_nil
  | conditional condition thenBranch elseBranch =>
    exact IH.conditional condition thenBranch elseBranch hm
  | print value =>
    refine (IH.node value hm).bind fun v m₁ hm₁ _ _ => ?_
    refine (stays_checkInitialized hm₁).bind fun _ m₂ hm₂ _ _ => stays_get ?_
    exact (stays_print hm₂).bind fun _ _ hm₃ _ _ => stays_pure hm₃ knows_nil
  | returning keyword value =>
    cases value with
    | none => exact stays_returning hm knows_nil
    | some value => exact (IH.node value hm).bind fun _ _ hm₁ _ hv => stays_returning hm₁ hv
  | varDecl name initializer =>
    cases initializer with
    | none => exact (stays_define hm knows_nil).bind fun _ _ hm₁ _ _ => stays_pure hm₁ knows_nil
    | some initializer =>
      refine (IH.node initializer hm).bind fun v m₁ hm₁ _ hv => ?_
      exact (stays_define hm₁ hv).bind fun _ _ hm₂ _ _ => stays_pure hm₂ knows_nil
  | loop condition body =>
    exact (IH.turns condition body _ hm).bind fun _ _ hm₁ _ _ => stays_pure hm₁ knows_nil
  | misfit n => exact stays_misfit hm

theorem Confines.callFunction {id : Nat} {arguments : List Value} (hm : g.Runs m)
    (hid : g.Inside m.store (.function id)) (harguments : ∀ a ∈ arguments, g.Knows m.store a) :
    Stays g (Eval.call mode (depth + 1) (.function id) arguments) m g.Knows := by
  refine stays_get ?_
  split
  · exact stays_fault hm
  · rename_i f hf
    have hclosure := hm.store.functions id f hid hf
    refine (stays_parameters hm).bind fun params m₁ hm₁ hgrown₁ _ => ?_
    refine (stays_parameterTable hm₁ fun a ha => (harguments a ha).grown hgrown₁).bind
      fun table m₂ hm₂ hgrown₂ htable => ?_
    have he : g.EnvironmentInside m₂.store ⟨table, some f.environment⟩ := by
      refine ⟨fun outer houter => ?_, htable⟩
      cases houter
      exact (hclosure.grown hgrown₁).grown hgrown₂
    refine (stays_newEnvironment hm₂ he).bind fun inner m₃ hm₃ hgrown₃ hinner => ?_
    have hbody := (IH.statements f.declaration.body
      (show g.Runs { m₃ with environment := inner } from ⟨hm₃.store, hinner⟩)).bind
      fun _ _ hm' _ _ => stays_pure hm' (knows_nil (g := g))
    refine (stays_catchReturn (stays_within hm₃ hbody)).bind fun v m₄ hm₄ hgrown₄ hv => ?_
    split
    · exact stays_within hm₄ (stays_getAt ⟨hm₄.store,
        (((hclosure.grown hgrown₁).grown hgrown₂).grown hgrown₃).grown hgrown₄⟩)
    · exact stays_pure hm₄ hv

theorem Confines.callClass {id : Nat} {arguments : List Value} (hm : g.Runs m)
    (hid : g.Inside m.store (.cls id)) (harguments : ∀ a ∈ arguments, g.Knows m.store a) :
    Stays g (Eval.call mode (depth + 1) (.cls id) arguments) m g.Knows := by
  have hi : g.InstanceInside m.store ⟨id, .empty⟩ := ⟨hid, fun name v hv => by cases hv⟩
  refine (stays_alloc (P := fun s i => g.Knows s (.inst i)) hm ?_).bind
    fun i m₁ hm₁ hgrown₁ hi => stays_get ?_
  · obtain ⟨hconfined, hgrown, hnew⟩ := hm.store.newInstance hi
    refine ⟨hconfined, hgrown, fun o ho => ?_⟩
    cases ho
    exact hnew
  · split
    · exact stays_pure hm₁ hi
    · rename_i f hf
      refine (stays_bind hm₁ (hm₁.store.method? (hid.grown hgrown₁) hf) hi).bind
        fun bound m₂ hm₂ hgrown₂ hbound => ?_
      refine (IH.call hm₂ hbound fun a ha =>
        ((harguments a ha).grown hgrown₁).grown hgrown₂).bind fun _ m₃ hm₃ hgrown₃ _ => ?_
      exact stays_pure hm₃ ((hi.grown hgrown₂).grown hgrown₃)

theorem Confines.callValue {v : Value} {arguments : List Value} (hm : g.Runs m)
    (hv : g.Knows m.store v) (harguments : ∀ a ∈ arguments, g.Knows m.store a) :
    Stays g (Eval.call mode (depth + 1) v arguments) m g.Knows := by
  cases v with
  | function id => exact IH.callFunction hm (hv _ rfl) harguments
  | cls id => exact IH.callClass hm (hv _ rfl) harguments
  | native id =>
    refine stays_get ?_
    split
    · exact stays_fault hm
    · exact stays_callNative hm
  | _ => exact stays_fault hm

end Parts

theorem confines (g : Region) (mode : Mode) (depth : Nat) : Confines g mode depth := by
  induction depth with
  | zero => exact ⟨fun _ hm => stays_throw hm (by simp), fun hm _ _ => stays_throw hm (by simp)⟩
  | succ depth IH => exact ⟨IH.nodeStep, IH.callValue⟩

/-! ## Where a call is made -/

/-- The same ending, but for the environment in which the machine is. -/
def inEnvironment (environment : Nat) :
    EStateM.Result Signal Machine α → EStateM.Result Signal Machine α
  | .ok a m => .ok a { m with environment }
  | .error signal m => .error signal { m with environment }

/-- The computation does not depend on the environment in which the machine is, and leaves the
machine there. -/
def Oblivious (x : Eval α) : Prop :=
  ∀ m environment, x { m with environment } = inEnvironment environment (x m)

theorem oblivious_pure (a : α) : Oblivious (pure a : Eval α) := fun _ _ => rfl

theorem oblivious_throw (signal : Signal) : Oblivious (throw signal : Eval α) := fun _ _ => rfl

theorem Oblivious.bind {k : α → Eval β} (hx : Oblivious x) (hk : ∀ a, Oblivious (k a)) :
    Oblivious (x >>= k) := by
  intro m environment
  have hfirst := hx m environment
  rcases hrun : x m with ⟨a, m'⟩ | ⟨signal, m'⟩ <;> rw [hrun] at hfirst
  · rw [bind_ok hfirst, bind_ok hrun]
    exact hk a m' environment
  · rw [bind_error hfirst, bind_error hrun]
    rfl

/-- A look at the machine, but not at the environment in which it is. -/
theorem oblivious_get {k : Machine → Eval β} (hk : ∀ m, Oblivious (k m))
    (hsame : ∀ m environment, k { m with environment } = k m) : Oblivious (get >>= k) := by
  intro m environment
  show k { m with environment } { m with environment } = _
  rw [hsame]
  exact hk m m environment

theorem oblivious_within (environment : Nat) (x : Eval α) : Oblivious (within environment x) := by
  intro m outer
  unfold within
  cases x { m with environment } <;> rfl

theorem Oblivious.catchReturn {x : Eval Value} (hx : Oblivious x) : Oblivious (catchReturn x) := by
  intro m environment
  unfold Eval.catchReturn
  rw [hx m environment]
  rcases x m with ⟨v, m'⟩ | ⟨signal, m'⟩
  · rfl
  · cases signal <;> rfl

theorem oblivious_alloc (make : Store → Nat × Store) : Oblivious (alloc make) := fun _ _ => rfl

theorem oblivious_ofExcept (result : Except Signal α) : Oblivious (ofExcept result) := by
  intro m environment
  cases result <;> rfl

theorem oblivious_parameterTable (params : List Token) (arguments : List Value) :
    Oblivious (parameterTable params arguments) := by
  simp only [parameterTable]
  split
  · exact (oblivious_throw _).bind fun _ => oblivious_pure _
  · exact oblivious_pure _

theorem oblivious_callNative (n : Native) (arguments : List Value) :
    Oblivious (callNative n arguments) := by
  unfold callNative
  split
  · exact fun _ _ => rfl
  · exact oblivious_pure _

theorem call_oblivious (mode : Mode) (depth : Nat) : ∀ (v : Value) (arguments : List Value),
    Oblivious (call mode depth v arguments) := by
  induction depth with
  | zero => exact fun _ _ => oblivious_throw _
  | succ depth ih =>
    intro v arguments
    cases v with
    | function id =>
      refine oblivious_get (fun m => ?_) fun _ _ => rfl
      split
      · exact oblivious_throw _
      · refine (oblivious_ofExcept _).bind fun params => ?_
        refine (oblivious_parameterTable params arguments).bind fun table => ?_
        refine (oblivious_alloc _).bind fun inner => ?_
        refine (oblivious_within inner _).catchReturn.bind fun v => ?_
        split
        · exact oblivious_within _ _
        · exact oblivious_pure v
    | cls id =>
      refine (oblivious_alloc _).bind fun i => oblivious_get (fun m => ?_) fun _ _ => rfl
      split
      · exact oblivious_pure _
      · refine (oblivious_alloc _).bind fun bound => ?_
        exact (ih _ _).bind fun _ => oblivious_pure _
    | native id =>
      refine oblivious_get (fun m => ?_) fun _ _ => rfl
      split
      · exact oblivious_throw _
      · exact oblivious_callNative _ _
    | _ => exact oblivious_throw _

/-! ## Computations that only read -/

/-- The machine after a computation, however it ended. -/
def machineAfter : EStateM.Result Signal Machine α → Machine
  | .ok _ m => m
  | .error _ m => m

/-- A part of the machine that two computations leave as it was is as it was after both. -/
theorem machineAfter_bind {γ : Type} (part : Machine → γ) {x : Eval α} {k : α → Eval β}
    (hx : ∀ m, part (machineAfter (x m)) = part m)
    (hk : ∀ a m, part (machineAfter (k a m)) = part m) (m : Machine) :
    part (machineAfter ((x >>= k) m)) = part m := by
  have hfirst := hx m
  rcases hrun : x m with ⟨a, m'⟩ | ⟨signal, m'⟩ <;> rw [hrun] at hfirst
  · rw [bind_ok hrun]
    exact (hk a m').trans hfirst
  · rw [bind_error hrun]
    exact hfirst

/-- However the computation ends, the machine is as it was. -/
def Reads (x : Eval α) : Prop := ∀ m, machineAfter (x m) = m

theorem reads_pure (a : α) : Reads (pure a : Eval α) := fun _ => rfl

theorem reads_throw (signal : Signal) : Reads (throw signal : Eval α) := fun _ => rfl

theorem Reads.bind {x : Eval α} {k : α → Eval β} (hx : Reads x) (hk : ∀ a, Reads (k a)) :
    Reads (x >>= k) := machineAfter_bind id hx hk

theorem reads_checkToken (token : Token) : Reads (checkToken token) := by
  unfold checkToken
  split
  · exact reads_throw _
  · exact reads_pure _

theorem reads_fail (token : Token) (cause : RuntimeError.Cause) :
    Reads (fail token cause : Eval α) :=
  (reads_checkToken token).bind fun _ => reads_throw _

theorem reads_ofExcept (result : Except Signal α) : Reads (ofExcept result) := by
  intro m
  cases result <;> rfl

theorem reads_getAt (hops : Nat) (name : String) : Reads (getAt hops name) := by
  intro m
  unfold getAt
  split <;> rfl

theorem reads_lookup (mode : Mode) (r : Reference) : Reads (lookup mode r) := by
  refine (reads_checkToken r.name).bind fun _ => ?_
  split
  · exact reads_getAt _ _
  · intro m
    dsimp only
    split <;> rfl

theorem reads_checkInitialized (n : Node) (value : Value) : Reads (checkInitialized n value) := by
  unfold checkInitialized
  split
  · exact reads_fail _ _
  · exact reads_pure _

theorem reads_superclass (parent : Node) (v : Value) : Reads (superclass parent v) := by
  unfold superclass
  split
  · exact reads_pure _
  · split
    · exact reads_fail _ _
    · exact reads_throw _

theorem reads_methodName (declaration : Node) : Reads (methodName declaration) := by
  unfold methodName
  split
  · exact reads_throw _
  · split
    · exact (reads_checkToken _).bind fun _ => reads_pure _
    · exact reads_throw _

theorem reads_parameterTable (params : List Token) (arguments : List Value) :
    Reads (parameterTable params arguments) := by
  simp only [parameterTable]
  split
  · exact (reads_throw _).bind fun _ => reads_pure _
  · exact reads_pure _

/-! ## What a call leaves alone -/

/-- What a call starts from: the callee, the arguments and the globals. -/
def CallRoots (callee : Value) (arguments : List Value) (o : Object) : Prop :=
  o = .environment Store.globals ∨ ∃ v ∈ callee :: arguments, v.object? = some o

/-- The objects that something leads to are a closed region. -/
theorem confined_reaches {s : Store} {roots : Object → Prop}
    (hglobals : roots (.environment Store.globals)) :
    Region.Confined ⟨s, s.Reaches roots⟩ s := by
  have hreaches : ∀ o, Region.Inside ⟨s, s.Reaches roots⟩ s o → s.Reaches roots o :=
    fun o ho => ho.elim id fun hnew => absurd hnew.2 hnew.1
  have hlink : ∀ {o o'}, Region.Inside ⟨s, s.Reaches roots⟩ s o → s.Links o o' →
      Region.Inside ⟨s, s.Reaches roots⟩ s o' := by
    intro o o' ho hlink
    obtain ⟨root, hroot, hpath⟩ := hreaches o ho
    exact .inl ⟨root, hroot, hpath.tail hlink⟩
  refine ⟨fun _ ho => ho, ⟨_, hglobals, .refl⟩, fun id hid => ⟨fun outer houter => ?_,
    fun name v hv o ho => ?_⟩, fun id f hid hf => ?_, fun id c hid hc => ⟨fun parent hparent => ?_,
    fun name k hk => ?_⟩, fun id hid => ⟨?_, fun name v hv o ho => ?_⟩, fun _ _ _ => rfl,
    fun _ _ _ => rfl⟩
  · exact hlink hid (.enclosing houter)
  · exact hlink hid (.binding hv ho)
  · exact hlink hid (.closure hf)
  · exact hlink hid (.superclass hc hparent)
  · exact hlink hid (.method hc hk)
  · exact hlink hid .cls
  · exact hlink hid (.field hv ho)

/-- A call does the same wherever the machine is running when it is made, and leaves the machine
there. It changes no environment and no instance but those that the callee, the arguments or the
globals lead to, however it ends. -/
theorem call_frame (mode : Mode) (depth : Nat) (m : Machine) (callee : Value)
    (arguments : List Value) :
    (∀ environment, call mode depth callee arguments { m with environment } =
      inEnvironment environment (call mode depth callee arguments m)) ∧
    (∀ id < m.store.environments.size,
      ¬ m.store.Reaches (CallRoots callee arguments) (.environment id) →
      (machineAfter (call mode depth callee arguments m)).store.environment id =
        m.store.environment id) ∧
    ∀ id < m.store.instances.size, ¬ m.store.Reaches (CallRoots callee arguments) (.inst id) →
      (machineAfter (call mode depth callee arguments m)).store.instance? id =
        m.store.instance? id := by
  let g : Region := ⟨m.store, m.store.Reaches (CallRoots callee arguments)⟩
  have hconfined : g.Confined m.store := confined_reaches (.inl rfl)
  have hknows : ∀ v ∈ callee :: arguments, g.Knows m.store v :=
    fun v hv o ho => .inl ⟨o, .inr ⟨v, hv, ho⟩, .refl⟩
  -- The environment of the caller may be outside of the region, the globals are not.
  have hruns : g.Runs { m with environment := Store.globals } :=
    ⟨hconfined, .inl hconfined.globals⟩
  have hstays := (confines g mode depth).call hruns (hknows _ List.mem_cons_self)
    fun a ha => hknows a (List.mem_cons_of_mem _ ha)
  have hafter : g.Confined (machineAfter (call mode depth callee arguments m)).store := by
    rw [Stays, call_oblivious mode depth callee arguments m] at hstays
    rcases hrun : call mode depth callee arguments m with ⟨v, m'⟩ | ⟨signal, m'⟩ <;>
      rw [hrun] at hstays <;> exact hstays.1.1.store
  exact ⟨call_oblivious mode depth callee arguments m, hafter.otherEnvironments,
    hafter.otherInstances⟩

end Eval

end Lox
