import Mathlib.Tactic
import Lox.Proofs.CallFrame
import Lox.Proofs.Moments
import Lox.Proofs.Persistence

/-!
# What runs adds to the store

All that a machine can get hold of is in its store: this is the region of everything (`whole`), in
which whatever is run stays. So a new environment is made within one that is there, and a new class
under one that is there, and the store goes on in the order of age. A computation that does so
`Adds` to the store, whatever it ends with; one that leaves the store alone is `Idle`.

Nodes and calls add to the store, of whatever sort they are, by induction on the depth (`addsOnly`).
So does what is left to do of a node when its first part was run (`AddsOnly.first`).
-/

namespace Lox

namespace Region

/-- All that is in the store. -/
def whole : Region := ⟨.initial, Store.initial.Made⟩

variable {s : Store}

theorem Confined.made {o : Object} (h : whole.Confined s) (ho : whole.Inside s o) : s.Made o :=
  ho.elim (h.grown o) fun hnew => hnew.2

theorem confined_initial : whole.Confined .initial := by
  have hmade : ∀ {o}, whole.Inside .initial o → Store.initial.Made o :=
    fun ho => ho.elim id fun hnew => hnew.2
  refine ⟨fun _ ho => ho, Nat.zero_lt_one, fun id hid => ?_, fun id _ hid => ?_, fun id _ hid => ?_,
    fun id hid => ?_, fun _ _ _ => rfl, fun _ _ _ => rfl⟩
  · obtain rfl : id = 0 := Nat.lt_one_iff.1 (hmade hid)
    refine ⟨nofun, fun name v hv => ?_⟩
    change (Table.empty.insert "clock" (Value.native 0)).get? name = some v at hv
    rw [Table.get?_insert] at hv
    split at hv
    · cases hv
      exact nofun
    · cases hv
  all_goals exact absurd (hmade hid) (Nat.not_lt_zero id)

end Region

open Region (whole)

namespace Eval

variable {α β : Type} {m m' : Machine}

/-! ## Idle computations -/

/-- However the computation ends, the store is as it was. -/
def Idle (x : Eval α) : Prop := ∀ m, (machineAfter (x m)).store = m.store

theorem Reads.idle {x : Eval α} (h : Reads x) : Idle x := fun m => congrArg Machine.store (h m)

theorem idle_callNative (n : Native) (arguments : List Value) : Idle (callNative n arguments) := by
  unfold callNative
  split
  · exact fun _ => rfl
  · exact (reads_pure _).idle

/-! ## Computations that add -/

/-- However the computation ends, the machine is among what is in its store, and the store is an
advance on the one before. -/
structure Adds (x : Eval α) (m : Machine) (P : Store → α → Prop) : Prop where
  stays : Stays whole x m P
  advances : m.store.Advances (machineAfter (x m)).store

variable {x : Eval α} {P : Store → α → Prop} {Q : Store → β → Prop}

theorem Idle.adds (h : Idle x) (hstays : Stays whole x m P) : Adds x m P := by
  refine ⟨hstays, ?_⟩
  rw [h m]
  exact .refl _

theorem Reads.adds (h : Reads x) (hstays : Stays whole x m P) : Adds x m P := h.idle.adds hstays

theorem Stays.of_ok {a : α} (h : Stays whole x m P) (hx : x m = .ok a m') :
    whole.Runs m' ∧ m.store.Grown m'.store ∧ P m'.store a := by
  rw [Stays, hx] at h
  exact ⟨h.1.1, h.1.2, h.2⟩

theorem Stays.runs (h : Stays whole x m P) : whole.Runs (machineAfter (x m)) := by
  unfold Stays at h
  rcases hrun : x m with ⟨a, m'⟩ | ⟨signal, m'⟩ <;> rw [hrun] at h <;> exact h.1.1

theorem Adds.of_ok {a : α} (h : Adds x m P) (hx : x m = .ok a m') :
    whole.Runs m' ∧ m.store.Grown m'.store ∧ P m'.store a ∧ m.store.Advances m'.store := by
  obtain ⟨hm', hgrown, hP⟩ := h.stays.of_ok hx
  have hadvances := h.advances
  rw [hx] at hadvances
  exact ⟨hm', hgrown, hP, hadvances⟩

/-- What is left to do when a part is over adds to the store that the part has left. -/
theorem advances_rest {k : α → Eval β} (hx : Stays whole x m P)
    (hk : ∀ a m', whole.Runs m' → m.store.Grown m'.store → P m'.store a → Adds (k a) m' Q) :
    (machineAfter (x m)).store.Advances (machineAfter ((x >>= k) m)).store := by
  rcases hrun : x m with ⟨a, m'⟩ | ⟨signal, m'⟩
  · rw [bind_ok hrun]
    obtain ⟨hm', hgrown, hP⟩ := hx.of_ok hrun
    exact (hk a m' hm' hgrown hP).advances
  · rw [bind_error hrun]
    exact .refl _

theorem Adds.bind {k : α → Eval β} (hx : Adds x m P)
    (hk : ∀ a m', whole.Runs m' → m.store.Grown m'.store → P m'.store a → Adds (k a) m' Q) :
    Adds (x >>= k) m Q :=
  ⟨hx.stays.bind fun a m' hm' hgrown hP => (hk a m' hm' hgrown hP).stays,
    hx.advances.trans (advances_rest hx.stays hk)⟩

theorem adds_pure {a : α} (hm : whole.Runs m) (hP : P m.store a) : Adds (pure a) m P :=
  (reads_pure a).adds (stays_pure hm hP)

theorem adds_fault {f : Fault} (hm : whole.Runs m) : Adds (fault f : Eval α) m P :=
  (reads_throw _).adds (stays_fault hm)

theorem adds_fail {token : Token} {cause : RuntimeError.Cause} (hm : whole.Runs m) :
    Adds (fail token cause : Eval α) m P :=
  (reads_fail token cause).adds (stays_fail hm)

theorem adds_checkToken (token : Token) (hm : whole.Runs m) :
    Adds (checkToken token) m fun _ _ => True :=
  (reads_checkToken token).adds (stays_checkToken token hm)

theorem adds_get {k : Machine → Eval β} (h : Adds (k m) m Q) : Adds (get >>= k) m Q :=
  ⟨stays_get h.stays, h.advances⟩

theorem adds_within {environment : Nat} (hm : whole.Runs m)
    (h : Adds x { m with environment } P) : Adds (within environment x) m P := by
  refine ⟨stays_within hm h.stays, ?_⟩
  rw [machineAfter_within]
  exact h.advances

theorem adds_catchReturn {x : Eval Value} (h : Adds x m whole.Knows) :
    Adds (catchReturn x) m whole.Knows := by
  refine ⟨stays_catchReturn h.stays, ?_⟩
  rw [machineAfter_catchReturn]
  exact h.advances

/-! ## Operations -/

/-- Nothing is done but to look whether a token is there. -/
theorem advances_checked {token : Token} {k : Eval α}
    (h : m.store.Advances (machineAfter (k m)).store) :
    m.store.Advances (machineAfter ((checkToken token >>= fun _ => k) m)).store := by
  unfold checkToken
  split
  · exact .refl _
  · exact h

theorem adds_define {name : Token} {v : Value} (hm : whole.Runs m) (hv : whole.Knows m.store v) :
    Adds (define name v) m fun _ _ => True :=
  ⟨stays_define hm hv, advances_checked (Store.advances_define _ _ _ _)⟩

theorem adds_assign {mode : Mode} {r : Reference} {v : Value} (hm : whole.Runs m)
    (hv : whole.Knows m.store v) : Adds (assign mode r v) m fun _ _ => True := by
  refine ⟨stays_assign hm hv, advances_checked ?_⟩
  split
  · exact Store.advances_define _ _ _ _
  · exact .refl _

theorem adds_assignNearest {name : Token} {v : Value} (hm : whole.Runs m)
    (hv : whole.Knows m.store v) : Adds (assignNearest name v) m fun _ _ => True := by
  refine ⟨stays_assignNearest hm hv, ?_⟩
  unfold assignNearest
  split
  · exact Store.advances_define _ _ _ _
  · exact .refl _

theorem adds_newFunction {f : Closure} (hm : whole.Runs m)
    (hf : whole.Inside m.store (.environment f.environment)) :
    Adds (alloc (·.newFunction f)) m fun s id => whole.Inside s (.function id) :=
  ⟨stays_newFunction hm hf, Store.advances_newFunction _ _⟩

/-- A new environment within the current one. -/
theorem environmentInside_empty (hm : whole.Runs m) :
    whole.EnvironmentInside m.store ⟨.empty, some m.environment⟩ := by
  refine ⟨fun outer houter => ?_, fun name v hv => by cases hv⟩
  cases houter
  exact hm.environment

/-- The environment around a new one is there already. -/
theorem adds_newEnvironment {e : Environment} (hm : whole.Runs m)
    (he : whole.EnvironmentInside m.store e) :
    Adds (alloc (·.newEnvironment e)) m fun s id => whole.Inside s (.environment id) :=
  ⟨stays_newEnvironment hm he,
    Store.advances_newEnvironment fun outer houter => hm.store.made (he.enclosing outer houter)⟩

theorem adds_bind {f : Closure} {receiver : Value} (hm : whole.Runs m)
    (hf : whole.Inside m.store (.environment f.environment))
    (hreceiver : whole.Knows m.store receiver) :
    Adds (alloc (·.bind f receiver)) m fun s id => whole.Knows s (.function id) :=
  ⟨stays_bind hm hf hreceiver, Store.advances_bind receiver (hm.store.made hf)⟩

theorem adds_newInstance {cls : Nat} (hm : whole.Runs m)
    (hcls : whole.Inside m.store (.cls cls)) :
    Adds (alloc (·.newInstance ⟨cls, .empty⟩)) m fun s id => whole.Knows s (.inst id) := by
  have hi : whole.InstanceInside m.store ⟨cls, .empty⟩ := ⟨hcls, fun name v hv => by cases hv⟩
  obtain ⟨hconfined, hgrown, hnew⟩ := hm.store.newInstance hi
  refine ⟨stays_alloc hm ⟨hconfined, hgrown, fun o ho => ?_⟩, Store.advances_newInstance _ _⟩
  cases ho
  exact hnew

theorem adds_getProperty {id : Nat} {name : Token} (hm : whole.Runs m)
    (hid : whole.Knows m.store (.inst id)) : Adds (getProperty id name) m whole.Knows := by
  refine ⟨stays_getProperty hm hid, advances_checked ?_⟩
  rcases hproperty : m.store.property id name with e | v | f
  · exact .refl _
  · exact .refl _
  · have hf := (hm.store.property (hid _ rfl) hproperty).2 f rfl
    exact Store.advances_bind (.inst id) (hm.store.made hf)

theorem adds_setProperty {id : Nat} {name : Token} {v : Value} (hm : whole.Runs m)
    (hid : whole.Knows m.store (.inst id)) (hv : whole.Knows m.store v) :
    Adds (setProperty id name v) m fun _ _ => True :=
  ⟨stays_setProperty hm hid hv, advances_checked (Store.advances_setField _ _ _ _)⟩

/-! ## Declarations -/

theorem adds_declareFunction {name : Token} {declaration : Node} (hm : whole.Runs m) :
    Adds (declareFunction name declaration) m fun _ _ => True := by
  refine adds_get ?_
  let f : Closure := ⟨declaration, m.environment, false⟩
  exact (adds_newFunction (f := f) hm hm.environment).bind fun _ _ hm' _ hid =>
    adds_define hm' (knows_function hid)

theorem adds_methodEnvironment {parent : Option Nat} (hm : whole.Runs m)
    (hparent : ∀ id, parent = some id → whole.Inside m.store (.cls id)) :
    Adds (methodEnvironment parent) m fun s id => whole.Inside s (.environment id) := by
  refine ⟨stays_methodEnvironment hm hparent, ?_⟩
  cases parent with
  | none => exact .refl _
  | some parent =>
    refine Store.advances_newEnvironment fun outer houter => ?_
    cases houter
    exact hm.store.made hm.environment

theorem adds_makeMethods {environment : Nat} : ∀ {methods : List Node} {table : Table Nat}
    {m : Machine}, whole.Runs m → whole.Inside m.store (.environment environment) →
    MethodsInside whole m.store table →
    Adds (makeMethods environment methods table) m fun s table => MethodsInside whole s table
  | [], _, _, hm, _, htable => adds_pure hm htable
  | declaration :: rest, table, m, hm, henvironment, htable => by
    refine ((reads_methodName declaration).adds (stays_methodName hm)).bind
      fun name m₁ hm₁ hgrown₁ _ => ?_
    let f : Closure := ⟨declaration, environment, name = "init"⟩
    refine (adds_newFunction (f := f) hm₁ (henvironment.grown hgrown₁)).bind
      fun id m₂ hm₂ hgrown₂ hid => ?_
    refine adds_makeMethods hm₂ ((henvironment.grown hgrown₁).grown hgrown₂) fun x k hk => ?_
    rw [Table.get?_insert] at hk
    split at hk
    · cases hk
      exact hid
    · exact ((htable x k hk).grown hgrown₁).grown hgrown₂

theorem adds_enter {environment : Nat} (hm : whole.Runs m)
    (henvironment : whole.Inside m.store (.environment environment)) :
    Adds (enter environment) m fun _ _ => True :=
  ⟨stays_enter hm henvironment, .refl _⟩

/-- The superclass of a new class is there already, under whatever names it goes. -/
theorem adds_declareClass {name : Token} {parent : Option Nat} {methods : List Node}
    (hm : whole.Runs m) (hparent : ∀ id, parent = some id → whole.Inside m.store (.cls id)) :
    Adds (declareClass name parent methods) m fun _ _ => True := by
  refine (adds_define hm knows_nil).bind fun _ m₁ hm₁ hgrown₁ _ => adds_get ?_
  have hparent₁ := fun id hid => (hparent id hid).grown hgrown₁
  refine (adds_methodEnvironment hm₁ hparent₁).bind fun inner m₂ hm₂ hgrown₂ hinner => ?_
  refine (adds_enter hm₂ hinner).bind fun _ m₃ hm₃ hgrown₃ _ => ?_
  refine (adds_makeMethods hm₃ (hinner.grown hgrown₃)
    (fun x k hk => by cases hk)).bind fun table m₄ hm₄ hgrown₄ htable => ?_
  have houter := ((hm₁.environment.grown hgrown₂).grown hgrown₃).grown hgrown₄
  refine (adds_enter hm₄ houter).bind fun _ m₅ hm₅ hgrown₅ _ => ?_
  have hclass : whole.ClassInside m₅.store ⟨name.lexeme, parent, table⟩ :=
    ⟨fun id hid => ((((hparent₁ id hid).grown hgrown₂).grown hgrown₃).grown hgrown₄).grown hgrown₅,
      fun x k hk => (htable x k hk).grown hgrown₅⟩
  -- whatever the name of the class was bound to, its superclass was found before it is made
  have hmade : Adds (alloc (·.newClass ⟨name.lexeme, parent, table⟩)) m₅ fun s id =>
      whole.Inside s (.cls id) :=
    ⟨stays_alloc hm₅ (hm₅.store.newClass hclass),
      Store.advances_newClass fun id hid => hm₅.store.made (hclass.superclass id hid)⟩
  refine hmade.bind fun id m₆ hm₆ _ hid => adds_assignNearest hm₆ fun o ho => ?_
  cases ho
  exact hid

theorem adds_superMethod {mode : Mode} {keyword : Reference} {method : Token}
    (hm : whole.Runs m) : Adds (superMethod mode keyword method) m whole.Knows := by
  unfold superMethod
  split
  · exact adds_fault hm
  · refine ((reads_getAt _ _).adds (stays_getAt hm)).bind fun parent m₁ hm₁ _ hparent => ?_
    refine ((reads_getAt _ _).adds (stays_getAt hm₁)).bind
      fun receiver m₂ hm₂ hgrown₂ hreceiver => ?_
    split
    · rename_i id
      refine (adds_checkToken _ hm₂).bind fun _ m₃ hm₃ hgrown₃ _ => adds_get ?_
      have hid : whole.Inside m₃.store (.cls id) := ((hparent _ rfl).grown hgrown₂).grown hgrown₃
      split
      · rename_i f hf
        exact (adds_bind hm₃ (hm₃.store.method? hid hf) (hreceiver.grown hgrown₃)).bind
          fun _ _ hm₄ _ hbound => adds_pure hm₄ hbound
      · exact adds_fail hm₃
    · exact adds_fault hm₂

theorem adds_misfit {n : Misfit} (hm : whole.Runs m) : Adds (misfit n) m whole.Knows := by
  unfold misfit
  split
  · exact adds_pure hm (Plain.knows (v := .quoted _) rfl)
  · exact (adds_declareFunction hm).bind fun _ _ hm' _ _ => adds_pure hm' knows_nil
  · split
    · exact adds_fault hm
    · exact adds_pure hm knows_nil
  · exact adds_fault hm

/-- What a function gives back: its receiver if it is an initializer, and else its result. -/
theorem adds_result {f : Closure} {v : Value} (hm : whole.Runs m)
    (hf : whole.Inside m.store (.environment f.environment)) (hv : whole.Knows m.store v) :
    Adds (if f.isInitializer then within f.environment (getAt 0 "this") else return v) m
      whole.Knows := by
  split
  · exact adds_within hm ((reads_getAt _ _).adds (stays_getAt ⟨hm.store, hf⟩))
  · exact adds_pure hm hv

/-! ## Nodes and calls -/

/-- Whatever is run within the depth adds to the store. -/
structure AddsOnly (mode : Mode) (depth : Nat) : Prop where
  node : ∀ {m : Machine} (n : Node), whole.Runs m → Adds (eval mode depth n) m whole.Knows
  call : ∀ {m : Machine} {v : Value} {arguments : List Value}, whole.Runs m →
    whole.Knows m.store v → (∀ a ∈ arguments, whole.Knows m.store a) →
    Adds (call mode depth v arguments) m whole.Knows

section Parts

variable {mode : Mode} {depth : Nat} (IH : AddsOnly mode depth)
include IH

theorem AddsOnly.statements : ∀ (ns : List Node) {m : Machine}, whole.Runs m →
    Adds (inOrder (eval mode depth) ns) m fun _ _ => True
  | [], _, hm => adds_pure hm trivial
  | n :: rest, _, hm =>
    (IH.node n hm).bind fun _ _ hm' _ _ => AddsOnly.statements rest hm'

theorem AddsOnly.each : ∀ (ns : List Node) {m : Machine}, whole.Runs m →
    Adds (ns.mapM (eval mode depth)) m fun s values => ∀ v ∈ values, whole.Knows s v
  | [], _, hm => by
    rw [List.mapM_nil]
    exact adds_pure hm (by simp)
  | n :: rest, _, hm => by
    rw [List.mapM_cons]
    refine (IH.node n hm).bind fun v m₁ hm₁ _ hv => ?_
    refine (AddsOnly.each rest hm₁).bind fun values m₂ hm₂ hgrown hvalues => ?_
    refine adds_pure hm₂ fun w hw => ?_
    rcases List.mem_cons.1 hw with rfl | hw
    · exact hv.grown hgrown
    · exact hvalues w hw

theorem AddsOnly.turns (condition body : Node) : ∀ (count : Nat) {m : Machine}, whole.Runs m →
    Adds (repeatWhile (eval mode depth condition) (eval mode depth body) count) m fun _ _ => True
  | 0, _, hm => (reads_throw _).adds (stays_throw hm (by simp))
  | count + 1, _, hm => by
    refine (IH.node condition hm).bind fun v m₁ hm₁ _ _ => ?_
    split
    · exact (IH.node body hm₁).bind fun _ _ hm₂ _ _ => AddsOnly.turns condition body count hm₂
    · exact adds_pure hm₁ trivial

/-- What a call expression does once its arguments have their values. -/
theorem AddsOnly.callee (v : Value) (paren : Token) (values : List Value) (hm : whole.Runs m)
    (hv : whole.Knows m.store v) (hvalues : ∀ a ∈ values, whole.Knows m.store a) :
    Adds (do
      match (← get).store.arity? v with
      | .error f => fault f
      | .ok none => fail paren .notCallable
      | .ok (some arity) =>
        if values.length ≠ arity then fail paren (.wrongArity arity values.length)
        Eval.call mode depth v values : Eval Value) m whole.Knows := by
  refine adds_get ?_
  rcases m.store.arity? v with f | _ | arity <;> simp only
  · exact adds_fault hm
  · exact adds_fail hm
  · split
    · exact (adds_fail (P := fun _ _ => False) hm).bind fun _ _ _ _ h => h.elim
    · exact IH.call hm hv hvalues

/-- A node whose first part was run goes on to add. -/
theorem AddsOnly.first {n part : Node} (hfirst : n.first? = some part) :
    ∃ k : Value → Eval Value, eval mode (depth + 1) n = eval mode depth part >>= k ∧
      ∀ v m, whole.Runs m → whole.Knows m.store v → Adds (k v) m whole.Knows := by
  cases n with
  | assign target value =>
    cases hfirst
    exact ⟨_, rfl, fun v m hm hv => (adds_assign hm hv).bind fun _ _ hm' hgrown _ =>
      adds_pure hm' (hv.grown hgrown)⟩
  | unary operator right =>
    cases hfirst
    exact ⟨_, rfl, fun v m hm _ =>
      (reads_ofExcept _).adds (stays_ofExcept hm (unary_endsPlainly operator v))⟩
  | binary left operator right =>
    cases hfirst
    exact ⟨_, rfl, fun v m hm _ => (IH.node right hm).bind fun w _ hm' _ _ =>
      (reads_ofExcept _).adds (stays_ofExcept hm' (binary_endsPlainly operator v w))⟩
  | logical left operator right =>
    cases hfirst
    refine ⟨_, rfl, fun v m hm hv => (adds_checkToken operator hm).bind
      fun _ m' hm' hgrown _ => ?_⟩
    split
    · exact adds_pure hm' (hv.grown hgrown)
    · exact IH.node right hm'
  | call callee paren arguments =>
    cases hfirst
    exact ⟨_, rfl, fun v m hm hv => (IH.each arguments hm).bind fun values _ hm' hgrown hvalues =>
      IH.callee v paren values hm' (hv.grown hgrown) hvalues⟩
  | property object name =>
    cases hfirst
    refine ⟨_, rfl, fun v m hm hv => ?_⟩
    cases v with
    | inst id => exact adds_getProperty hm hv
    | _ => exact adds_fail hm
  | setProperty object name value =>
    cases hfirst
    refine ⟨_, rfl, fun v m hm hv => ?_⟩
    cases v with
    | inst id =>
      refine (IH.node value hm).bind fun w m' hm' hgrown hw => ?_
      exact (adds_setProperty hm' (hv.grown hgrown) hw).bind fun _ _ hm'' hgrown' _ =>
        adds_pure hm'' (hw.grown hgrown')
    | _ => exact adds_fail hm
  | group inner =>
    cases hfirst
    exact ⟨pure, (bind_pure _).symm, fun v m hm hv => adds_pure hm hv⟩
  | expression value =>
    cases hfirst
    exact ⟨_, rfl, fun v m hm _ => ((reads_checkInitialized part v).adds
      (stays_checkInitialized hm)).bind fun _ _ hm' _ _ => adds_pure hm' knows_nil⟩
  | print value =>
    cases hfirst
    refine ⟨_, rfl, fun v m hm _ => ((reads_checkInitialized part v).adds
      (stays_checkInitialized hm)).bind fun _ m' hm' _ _ => adds_get ?_⟩
    have hprint : Idle (print (m'.store.stringify v)) := fun _ => rfl
    exact (hprint.adds (stays_print hm')).bind fun _ _ hm'' _ _ => adds_pure hm'' knows_nil
  | conditional condition thenBranch elseBranch =>
    cases hfirst
    refine ⟨_, rfl, fun v m hm _ => ?_⟩
    split
    · exact (IH.node thenBranch hm).bind fun _ _ hm' _ _ => adds_pure hm' knows_nil
    · cases elseBranch with
      | none => exact adds_pure hm knows_nil
      | some branch => exact (IH.node branch hm).bind fun _ _ hm' _ _ => adds_pure hm' knows_nil
  | returning keyword value =>
    cases value with
    | none => cases hfirst
    | some value =>
      cases hfirst
      exact ⟨_, rfl, fun v m hm hv => (reads_throw _).adds (stays_returning hm hv)⟩
  | classDecl name parent methods =>
    cases parent with
    | none => cases hfirst
    | some parent =>
      cases hfirst
      refine ⟨_, rfl, fun v m hm hv => ((reads_superclass part v).adds
        (stays_superclass hm hv)).bind fun id m' hm' _ hid => ?_⟩
      refine (adds_declareClass hm' fun id' heq => ?_).bind fun _ _ hm'' _ _ =>
        adds_pure hm'' knows_nil
      cases heq
      exact hid
  | _ => cases hfirst

theorem AddsOnly.block (statements : List Node) (hm : whole.Runs m) :
    Adds (eval mode (depth + 1) (.block statements)) m whole.Knows := by
  refine adds_get ?_
  refine (adds_newEnvironment hm (environmentInside_empty hm)).bind
    fun inner m₁ hm₁ _ hinner => ?_
  have hbody := IH.statements statements
    (show whole.Runs { m₁ with environment := inner } from ⟨hm₁.store, hinner⟩)
  exact (adds_within hm₁ hbody).bind fun _ _ hm₂ _ _ => adds_pure hm₂ knows_nil

theorem AddsOnly.nodeStep (n : Node) (hm : whole.Runs m) :
    Adds (eval mode (depth + 1) n) m whole.Knows := by
  rcases hfirst : n.first? with _ | part
  · cases n with
    | literal value => exact adds_pure hm (Plain.knows (by cases value <;> rfl))
    | ident r => exact (reads_lookup mode r).adds (stays_lookup hm)
    | receiver r => exact (reads_lookup mode r).adds (stays_lookup hm)
    | superMethod keyword method => exact adds_superMethod hm
    | block statements => exact IH.block statements hm
    | function name params body =>
      exact (adds_declareFunction hm).bind fun _ _ hm' _ _ => adds_pure hm' knows_nil
    | loop condition body =>
      exact (IH.turns condition body _ hm).bind fun _ _ hm' _ _ => adds_pure hm' knows_nil
    | misfit n => exact adds_misfit hm
    | classDecl name parent methods =>
      cases parent with
      | none =>
        exact (adds_declareClass hm (by simp)).bind fun _ _ hm' _ _ => adds_pure hm' knows_nil
      | some parent => cases hfirst
    | returning keyword value =>
      cases value with
      | none => exact (reads_throw _).adds (stays_returning hm knows_nil)
      | some value => cases hfirst
    | varDecl name initializer =>
      cases initializer with
      | none => exact (adds_define hm knows_nil).bind fun _ _ hm' _ _ => adds_pure hm' knows_nil
      | some initializer =>
        refine (IH.node initializer hm).bind fun v m₁ hm₁ _ hv => ?_
        exact (adds_define hm₁ hv).bind fun _ _ hm₂ _ _ => adds_pure hm₂ knows_nil
    | _ => cases hfirst
  · obtain ⟨k, heval, hk⟩ := IH.first hfirst
    rw [heval]
    exact (IH.node part hm).bind fun v m' hm' _ hv => hk v m' hm' hv

/-- The body of a function runs in an environment that is there. -/
theorem AddsOnly.body (ns : List Node) {inner : Nat} (hm : whole.Runs m)
    (hinner : whole.Inside m.store (.environment inner)) :
    Adds (catchReturn (within inner do
      inOrder (eval mode depth) ns
      return .nil)) m whole.Knows := by
  have hbody := (IH.statements ns
    (show whole.Runs { m with environment := inner } from ⟨hm.store, hinner⟩)).bind
    fun _ _ hm' _ _ => adds_pure hm' (knows_nil (g := whole))
  exact adds_catchReturn (adds_within hm hbody)

theorem AddsOnly.callFunction {id : Nat} {arguments : List Value} (hm : whole.Runs m)
    (hid : whole.Inside m.store (.function id))
    (harguments : ∀ a ∈ arguments, whole.Knows m.store a) :
    Adds (Eval.call mode (depth + 1) (.function id) arguments) m whole.Knows := by
  refine adds_get ?_
  split
  · exact adds_fault hm
  · rename_i f hf
    have hclosure := hm.store.functions id f hid hf
    refine ((reads_ofExcept _).adds (stays_parameters hm)).bind fun params m₁ hm₁ hgrown₁ _ => ?_
    refine ((reads_parameterTable params arguments).adds (stays_parameterTable hm₁ fun a ha =>
      (harguments a ha).grown hgrown₁)).bind fun table m₂ hm₂ hgrown₂ htable => ?_
    have he : whole.EnvironmentInside m₂.store ⟨table, some f.environment⟩ := by
      refine ⟨fun outer houter => ?_, htable⟩
      cases houter
      exact (hclosure.grown hgrown₁).grown hgrown₂
    refine (adds_newEnvironment hm₂ he).bind fun inner m₃ hm₃ hgrown₃ hinner => ?_
    refine (IH.body f.declaration.body hm₃ hinner).bind fun v m₄ hm₄ hgrown₄ hv => ?_
    have hclosure₃ := ((hclosure.grown hgrown₁).grown hgrown₂).grown hgrown₃
    exact adds_result hm₄ (hclosure₃.grown hgrown₄) hv

theorem AddsOnly.callClass {id : Nat} {arguments : List Value} (hm : whole.Runs m)
    (hid : whole.Inside m.store (.cls id))
    (harguments : ∀ a ∈ arguments, whole.Knows m.store a) :
    Adds (Eval.call mode (depth + 1) (.cls id) arguments) m whole.Knows := by
  refine (adds_newInstance hm hid).bind fun i m₁ hm₁ hgrown₁ hi => adds_get ?_
  split
  · exact adds_pure hm₁ hi
  · rename_i f hf
    refine (adds_bind hm₁ (hm₁.store.method? (hid.grown hgrown₁) hf) hi).bind
      fun bound m₂ hm₂ hgrown₂ hbound => ?_
    refine (IH.call hm₂ hbound fun a ha =>
      ((harguments a ha).grown hgrown₁).grown hgrown₂).bind fun _ m₃ hm₃ hgrown₃ _ => ?_
    exact adds_pure hm₃ ((hi.grown hgrown₂).grown hgrown₃)

theorem AddsOnly.callValue {v : Value} {arguments : List Value} (hm : whole.Runs m)
    (hv : whole.Knows m.store v) (harguments : ∀ a ∈ arguments, whole.Knows m.store a) :
    Adds (Eval.call mode (depth + 1) v arguments) m whole.Knows := by
  cases v with
  | function id => exact IH.callFunction hm (hv _ rfl) harguments
  | cls id => exact IH.callClass hm (hv _ rfl) harguments
  | native id =>
    refine adds_get ?_
    split
    · exact adds_fault hm
    · exact (idle_callNative _ _).adds (stays_callNative hm)
  | _ => exact adds_fault hm

end Parts

theorem addsOnly (mode : Mode) (depth : Nat) : AddsOnly mode depth := by
  induction depth with
  | zero =>
    exact ⟨fun _ hm => (reads_throw _).adds (stays_throw hm (by simp)),
      fun hm _ _ => (reads_throw _).adds (stays_throw hm (by simp))⟩
  | succ depth IH => exact ⟨IH.nodeStep, IH.callValue⟩

end Eval

end Lox
