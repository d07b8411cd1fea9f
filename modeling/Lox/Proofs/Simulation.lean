import Mathlib.Tactic
import Lox.Proofs.Execution
import Lox.Proofs.Pairs

/-!
# Trees that are alike run alike

If two trees are alike, and two machines are twins that stand where the scopes have the marks of
the trees, then running one tree on the one machine and the other on the other gives the same
value, or ends in signals that say the same up to the change, and leaves twins (`simulates`). By
induction on the depth, with one case for each sort of node.
-/

namespace Lox

namespace Eval

variable {α β : Type} {c : Change} {p q : Pair} {L : List Bool}

/-! ## Declarations -/

theorem sims_declareFunction {marked : Bool} {name name' : Token} {params params' : List Token}
    {body body' : List Node} (hp : p.Twin c) (hL : p.Stands L)
    (hname : c.Kept (L.headD false) name name') (hparams : params.Forall₂ (c.Named marked) params')
    (hbody : Node.LikeAll c (marked :: L) body body') :
    Sims c (declareFunction name (.function name params body))
      (declareFunction name' (.function name' params' body')) p fun _ _ => True := by
  refine sims_get hp _ _ ?_
  have hmatches : Store.Matches c p.marks p.left.store []
      ⟨.function name params body, p.left.environment, false⟩
      ⟨.function name' params' body', p.right.environment, false⟩ :=
    ⟨hp.environment, rfl, L, marked, name, name', params, params', body, body', hL, rfl, rfl,
      hname.alike, hparams, hbody⟩
  refine (sims_newFunction hp hmatches).bind fun id q hq hid => ?_
  exact (sims_define hq.twin (hL.reaches hq) hname.named
    (show q.Shares c (.function id) from hid)).mono fun _ _ _ _ => trivial

/-- The methods have closures on both sides that match once they are bound. -/
def MethodsMatch (c : Change) (q : Pair) (table : Table Nat) : Prop :=
  ∀ x k, table.get? x = some k → ∃ f f', q.left.store.closure? k = some f ∧
    q.right.store.closure? k = some f' ∧ Store.Matches c q.marks q.left.store [false] f f'

theorem MethodsMatch.reaches {table : Table Nat} (h : MethodsMatch c p table)
    (hq : p.Reaches c q) : MethodsMatch c q table := by
  intro x k hk
  obtain ⟨f, f', hf, hf', hmatches⟩ := h x k hk
  exact ⟨f, f', hq.onward.closures k f hf, hq.onward.closures' k f' hf',
    hmatches.onward hq.onward⟩

theorem sims_makeMethods {inner : Nat} : ∀ {methods methods' : List Node} {table : Table Nat}
    {p : Pair}, p.Twin c → p.left.store.Marked p.marks L inner →
    Node.LikeMethods c (false :: L) methods methods' → MethodsMatch c p table →
    Sims c (makeMethods inner methods table) (makeMethods inner methods' table) p
      fun table q => MethodsMatch c q table
  | [], _, table, p, hp, _, hmethods, htable => by
    obtain rfl := hmethods
    exact sims_pure hp htable
  | method :: rest, _, table, p, hp, hL, hmethods, htable => by
    cases method with
    | function name params body =>
      obtain ⟨marked, name', params', body', rest', rfl, hname, hparams, hbody, hrest⟩ := hmethods
      have hlexeme := c.lexeme_eq hname
      have hstart : Sims c (methodName (.function name params body))
          (methodName (.function name' params' body')) p fun text q => q = p ∧
            text = name.lexeme := by
        refine (sims_checkToken hp (Change.isMissing_eq hname)).bind fun _ q _ heq => ?_
        subst heq
        rw [hlexeme]
        exact sims_pure hp ⟨rfl, rfl⟩
      refine hstart.bind fun text q _ htext => ?_
      obtain ⟨rfl, rfl⟩ := htext
      have hmatches : Store.Matches c q.marks q.left.store [false]
          ⟨.function name params body, inner, decide (name.lexeme = "init")⟩
          ⟨.function name' params' body', inner, decide (name.lexeme = "init")⟩ :=
        ⟨rfl, rfl, L, marked, name, name', params, params', body, body', hL, rfl, rfl, hname,
          hparams, hbody⟩
      refine (sims_newFunction hp hmatches).bind fun id r hr hid => ?_
      refine sims_makeMethods hr.twin (hL.onward hr.onward) hrest fun x k hk => ?_
      rw [Table.get?_insert] at hk
      split at hk
      · cases hk
        exact hid
      · exact htable.reaches hr x k hk
    | _ => exact hmethods.elim

theorem sims_methodEnvironment (hp : p.Twin c) (hL : p.Stands L) :
    ∀ parent : Option Nat, Sims c (methodEnvironment parent) (methodEnvironment parent) p
      fun inner q => q.left.store.Marked q.marks (parent.elim L fun _ => false :: L) inner
  | none => sims_get hp _ _ (by rw [hp.environment]; exact sims_pure hp hL)
  | some parent => by
    refine sims_get hp _ _ ?_
    rw [hp.environment]
    refine sims_newEnvironment hp (.self _) rfl hL fun name v hv => ?_
    simp only [Table.get?_insert, Table.get?_empty] at hv
    split at hv
    · cases hv
      trivial
    · cases hv

theorem sims_newClass {name : String} {parent : Option Nat} {table : Table Nat} (hp : p.Twin c)
    (htable : MethodsMatch c p table) :
    Sims c (alloc (·.newClass ⟨name, parent, table⟩)) (alloc (·.newClass ⟨name, parent, table⟩)) p
      fun _ _ => True := by
  have hright : alloc (·.newClass ⟨name, parent, table⟩) p.right = .ok p.left.store.classes.size
      { p.right with store := (p.right.store.newClass ⟨name, parent, table⟩).2 } := by
    rw [← hp.store.classes]
    rfl
  exact sims_of_ok
    (q := ⟨_, { p.left with store := (p.left.store.newClass ⟨name, parent, table⟩).2 }, _⟩) rfl
    hright ⟨⟨hp.store.newClass htable, hp.environment, hp.printed, hp.now⟩,
      Store.Onward.of_eq rfl rfl rfl, rfl⟩ trivial

theorem sims_newInstance (hp : p.Twin c) (cls : Nat) :
    Sims c (alloc (·.newInstance ⟨cls, .empty⟩)) (alloc (·.newInstance ⟨cls, .empty⟩)) p
      fun _ _ => True := by
  have hright : alloc (·.newInstance ⟨cls, .empty⟩) p.right = .ok p.left.store.instances.size
      { p.right with store := (p.right.store.newInstance ⟨cls, .empty⟩).2 } := by
    rw [← hp.store.instances]
    rfl
  exact sims_of_ok
    (q := ⟨_, { p.left with store := (p.left.store.newInstance ⟨cls, .empty⟩).2 }, _⟩) rfl
    hright ⟨⟨hp.store.newInstance cls, hp.environment, hp.printed, hp.now⟩,
      Store.Onward.of_eq rfl rfl rfl, rfl⟩ trivial

/-- What is run in an environment that is entered, and then left for the one before. -/
theorem sims_entered {env : Nat} {k l : α → Eval β} {P : α → Pair → Prop} {Q : β → Pair → Prop}
    {x y : Eval α} (h : Sims c x y (p.inside env) P)
    (hk : ∀ a q, p.Reaches c (q.inside p.left.environment) → P a q →
      Sims c (k a) (l a) (q.inside p.left.environment) Q) :
    Sims c (enter env >>= fun _ => x >>= fun a => enter p.left.environment >>= fun _ => k a)
      (enter env >>= fun _ => y >>= fun a => enter p.left.environment >>= fun _ => l a) p Q := by
  have hleft : ∀ k : α → Eval β, (enter env >>= fun _ => x >>= fun a =>
      enter p.left.environment >>= fun _ => k a) p.left =
      (x >>= fun a => enter p.left.environment >>= fun _ => k a) (p.inside env).left :=
    fun _ => rfl
  have hright : ∀ k : α → Eval β, (enter env >>= fun _ => y >>= fun a =>
      enter p.left.environment >>= fun _ => k a) p.right =
      (y >>= fun a => enter p.left.environment >>= fun _ => k a) (p.inside env).right :=
    fun _ => rfl
  unfold Sims at h
  rcases hx : x (p.inside env).left with ⟨a, m⟩ | ⟨signal, m⟩ <;>
    rcases hy : y (p.inside env).right with ⟨a', m'⟩ | ⟨signal', m'⟩ <;> rw [hx, hy] at h
  · obtain ⟨rfl, M, hq, hP⟩ := h
    have hr : p.Reaches c (Pair.inside ⟨M, m, m'⟩ p.left.environment) :=
      ⟨hq.twin.inside _, hq.onward, rfl⟩
    have hleft' := (hleft k).trans (bind_ok hx)
    have hright' := (hright l).trans (bind_ok hy)
    exact .after (q := Pair.inside ⟨M, m, m'⟩ p.left.environment) hleft' hright' hr
      (hk a' ⟨M, m, m'⟩ hr hP)
  · exact h.elim
  · exact h.elim
  · rw [Sims, hleft, hright, bind_error hx, bind_error hy]
    exact h

/-- A class is stored under its name where it was declared. -/
theorem sims_assignNearest {name name' : Token} {v : Value} (hp : p.Twin c) (hL : p.Stands L)
    (hname : c.Kept (L.headD false) name name')
    (hhas : p.left.store.Has p.left.environment name.lexeme) (hv : p.Shares c v) :
    Sims c (assignNearest name v) (assignNearest name' v) p fun _ _ => True := by
  have hnamed := hname.named
  rw [← Store.Marked.headD_eq hp.store hL] at hnamed
  have hcontains := (hp.store.environments p.left.environment).contains_eq name.lexeme
    hnamed.fresh
  rw [← hnamed.lexeme] at hcontains
  have hhas' : p.right.store.Has p.right.environment name'.lexeme := by
    rw [Store.Has, hp.environment, hcontains]
    exact hhas
  refine (sims_store p.left.environment hp hnamed hv
    (assignNearest_eq (Store.holder_of_has hhas)) ?_).mono fun _ _ _ _ => trivial
  rw [assignNearest_eq (Store.holder_of_has hhas')]
  simp only [hp.environment]

theorem sims_declareClass (parent : Option Nat) {name name' : Token} {methods methods' : List Node}
    (hp : p.Twin c) (hL : p.Stands L) (hname : c.Kept (L.headD false) name name')
    (hmethods : Node.LikeMethods c (false :: parent.elim L fun _ => false :: L) methods methods') :
    Sims c (declareClass name parent methods) (declareClass name' parent methods') p
      fun _ _ => True := by
  refine (sims_define hp hL hname.named (show p.Shares c .nil from trivial)).bind
    fun _ q hq hhas => ?_
  refine sims_get hq.twin _ _ ?_
  have hL := hL.reaches hq
  refine (sims_methodEnvironment hq.twin hL parent).bind fun inner r hr hinner => ?_
  have hlt := Store.Marked.lt hq.twin.store hL
  have hempty : MethodsMatch c (r.inside inner) .empty := by simp [MethodsMatch]
  have hmake := sims_makeMethods (hr.twin.inside inner) hinner hmethods hempty
  have hleave := sims_entered (Q := fun _ _ => True)
    (k := fun methods => alloc (·.newClass ⟨name.lexeme, parent, methods⟩) >>= fun id =>
      assignNearest name (.cls id))
    (l := fun methods => alloc (·.newClass ⟨name'.lexeme, parent, methods⟩) >>= fun id =>
      assignNearest name' (.cls id)) hmake fun table t ht htable => ?_
  · rw [hr.environment] at hleave
    rw [hq.twin.environment]
    exact hleave
  · rw [c.lexeme_eq hname.alike]
    refine (sims_newClass ht.twin ?_).bind fun id u hu _ => ?_
    · exact htable
    · have hreach := (hr.trans ht).trans hu
      have hhas' := hreach.onward.has _ hlt _ hhas
      rw [← hreach.environment] at hhas'
      exact sims_assignNearest hu.twin (hL.reaches hreach) hname hhas' trivial

/-- The value in the place of a superclass. -/
theorem sims_superclass {r r' : Reference} (hp : p.Twin c) (hr : c.Refers L r r') (v : Value) :
    Sims c (superclass (.ident r) v) (superclass (.ident r') v) p fun _ q => q = p := by
  cases v with
  | cls id => exact sims_pure hp rfl
  | _ => exact sims_fail hp hr.named (.inl rfl)

theorem sims_checkInitialized {n n' : Node} {v : Value} (hp : p.Twin c) (hn : n.Like c L n') :
    Sims c (checkInitialized n v) (checkInitialized n' v) p fun _ q => q = p := by
  cases n with
  | ident r =>
    obtain ⟨r', rfl, hr⟩ := hn
    cases v with
    | nil => exact sims_fail hp hr.named (.inr ⟨_, rfl, by rw [hr.named.lexeme]⟩)
    | _ => exact sims_pure hp rfl
  | classDecl name parent methods =>
    cases parent with
    | none =>
      obtain ⟨_, _, rfl, -⟩ := hn
      exact sims_pure hp rfl
    | some parent =>
      obtain ⟨_, _, _, _, -, rfl, -⟩ := hn
      exact sims_pure hp rfl
  | literal value =>
    obtain rfl := hn
    exact sims_pure hp rfl
  | misfit m => exact hn.elim
  | group _ | receiver _ | expression _ | print _ =>
    obtain ⟨_, rfl, -⟩ := hn
    exact sims_pure hp rfl
  | assign _ _ | property _ _ | superMethod _ _ | unary _ _ | block _ | returning _ _ | varDecl _ _
  | loop _ _ =>
    obtain ⟨_, _, rfl, -⟩ := hn
    exact sims_pure hp rfl
  | binary _ _ _ | call _ _ _ | logical _ _ _ | setProperty _ _ _ | conditional _ _ _ =>
    obtain ⟨_, _, _, rfl, -⟩ := hn
    exact sims_pure hp rfl
  | function _ _ _ =>
    obtain ⟨_, _, _, _, rfl, -⟩ := hn
    exact sims_pure hp rfl

theorem sims_print (hp : p.Twin c) (text : String) :
    Sims c (print text) (print text) p fun _ _ => True :=
  sims_of_ok (q := ⟨p.marks, { p.left with printed := p.left.printed.push text },
      { p.right with printed := p.right.printed.push text }⟩) rfl rfl
    ⟨⟨hp.store, hp.environment, by rw [hp.printed], hp.now⟩, .refl _ _ _, rfl⟩ trivial

/-! ## Parameters -/

theorem any_isMissing_eq {marked : Bool} {params params' : List Token}
    (h : params.Forall₂ (c.Named marked) params') (values : List Value) :
    ((params'.zip values).any fun e => e.1.isMissing) =
      (params.zip values).any fun e => e.1.isMissing := by
  induction h generalizing values with
  | nil => rfl
  | cons hparam _ ih =>
    cases values with
    | nil => rfl
    | cons v values =>
      simp only [List.zip_cons_cons, List.any_cons, hparam.isMissing_eq, ih values]

/-- Parameters that are renamed bind the same arguments. -/
theorem environmentTwin_parameters {marked : Bool} {params params' : List Token} (outer : Nat)
    (h : params.Forall₂ (c.Named marked) params') (values : List Value) :
    c.EnvironmentTwin marked ⟨parameterBindings params values, some outer⟩
      ⟨parameterBindings params' values, some outer⟩ := by
  have hfold : ∀ {t t' : Table Value}, c.EnvironmentTwin marked ⟨t, some outer⟩ ⟨t', some outer⟩ →
      c.EnvironmentTwin marked
        ⟨((params.zip values).map fun e => (e.1.lexeme, e.2)).foldl
          (fun t e => t.insert e.1 e.2) t, some outer⟩
        ⟨((params'.zip values).map fun e => (e.1.lexeme, e.2)).foldl
          (fun t e => t.insert e.1 e.2) t', some outer⟩ := by
    induction h generalizing values with
    | nil => exact id
    | cons hparam _ ih =>
      intro t t' ht
      cases values with
      | nil => exact ht
      | cons v values =>
        have hinsert := ht.insert hparam.fresh v
        rw [← hparam.lexeme] at hinsert
        exact ih values hinsert
  exact hfold ⟨rfl, rfl, by simp [Table.names, Table.empty]⟩

theorem parameterTable_missing {params : List Token} {values : List Value}
    (h : ((params.zip values).any fun e => e.1.isMissing) = true) (m : Machine) :
    parameterTable params values m = .error (.fault .noMember) m := by
  change (if ((params.zip values).any fun e => e.1.isMissing) = true then
    fault .noMember >>= _ else _) m = _
  rw [if_pos h]
  rfl

theorem sims_callNative (hp : p.Twin c) (n : Native) (values : List Value) :
    Sims c (callNative n values) (callNative n values) p fun v q => q.Shares c v := by
  unfold callNative
  split
  · refine sims_of_ok (q := ⟨p.marks, { p.left with now := p.left.now.read },
        { p.right with now := p.right.now.read }⟩) rfl ?_
      ⟨⟨hp.store, hp.environment, hp.printed, by rw [hp.now]⟩, .refl _ _ _, rfl⟩ trivial
    simp only [bind, EStateM.bind, readClock, hp.now]
    rfl
  · exact sims_pure hp trivial

/-! ## Nodes and calls -/

/-- Up to the depth, trees that are alike and calls of what is shared run alike. -/
structure Simulates (c : Change) (mode : Mode) (depth : Nat) : Prop where
  node : ∀ {n n' : Node} {L : List Bool} {p : Pair}, p.Twin c → p.Stands L → n.Like c L n' →
    Sims c (eval mode depth n) (eval mode depth n') p fun v q => q.Shares c v
  call : ∀ {v : Value} {values : List Value} {p : Pair}, p.Twin c → p.Shares c v →
    (∀ a ∈ values, p.Shares c a) →
    Sims c (call mode depth v values) (call mode depth v values) p fun v q => q.Shares c v

section Parts

variable {mode : Mode} {depth : Nat} (IH : Simulates c mode depth)

include IH

theorem Simulates.each : ∀ {ns ns' : List Node} {p : Pair}, p.Twin c → p.Stands L →
    Node.LikeAll c L ns ns' →
    Sims c (ns.mapM (eval mode depth)) (ns'.mapM (eval mode depth)) p
      fun values q => ∀ v ∈ values, q.Shares c v
  | [], _, p, hp, _, hns => by
    obtain rfl := hns
    exact sims_pure hp (by simp)
  | n :: rest, _, p, hp, hL, hns => by
    obtain ⟨n', rest', rfl, hn, hrest⟩ := hns
    rw [List.mapM_cons, List.mapM_cons]
    refine (IH.node hp hL hn).bind fun v q hq hv => ?_
    refine (Simulates.each hq.twin (hL.reaches hq) hrest).bind fun values r hr hvalues => ?_
    refine sims_pure hr.twin fun w hw => ?_
    rcases List.mem_cons.1 hw with rfl | hw
    · exact hv.reaches hr
    · exact hvalues w hw

theorem Simulates.statements : ∀ {ns ns' : List Node} {p : Pair}, p.Twin c → p.Stands L →
    Node.LikeAll c L ns ns' →
    Sims c (inOrder (eval mode depth) ns) (inOrder (eval mode depth) ns') p fun _ _ => True
  | [], _, p, hp, _, hns => by
    obtain rfl := hns
    exact sims_pure hp trivial
  | n :: rest, _, p, hp, hL, hns => by
    obtain ⟨n', rest', rfl, hn, hrest⟩ := hns
    exact (IH.node hp hL hn).bind fun _ q hq _ =>
      Simulates.statements hq.twin (hL.reaches hq) hrest

theorem Simulates.turns {condition condition' body body' : Node}
    (hcondition : condition.Like c L condition') (hbody : body.Like c L body') :
    ∀ {count : Nat} {p : Pair}, p.Twin c → p.Stands L →
    Sims c (repeatWhile (eval mode depth condition) (eval mode depth body) count)
      (repeatWhile (eval mode depth condition') (eval mode depth body') count) p fun _ _ => True
  | 0, p, hp, _ => sims_throw hp rfl (by simp)
  | count + 1, p, hp, hL => by
    rw [repeatWhile, repeatWhile]
    refine (IH.node hp hL hcondition).bind fun v q hq _ => ?_
    split
    · exact (IH.node hq.twin (hL.reaches hq) hbody).bind fun _ r hr _ =>
        Simulates.turns hcondition hbody hr.twin ((hL.reaches hq).reaches hr)
    · exact sims_pure hq.twin trivial

theorem Simulates.callFunction {id : Nat} {values : List Value} (hp : p.Twin c)
    (hv : p.Shares c (.function id)) (hvalues : ∀ a ∈ values, p.Shares c a) :
    Sims c (Eval.call mode (depth + 1) (.function id) values)
      (Eval.call mode (depth + 1) (.function id) values) p fun v q => q.Shares c v := by
  obtain ⟨f, f', hf, hf', henv, hinit, L, marked, name, name', params, params', body, body', hL,
    hdecl, hdecl', -, hparams, hbody⟩ := hv
  have hstart : f.declaration.parameters = .ok params := by rw [hdecl]; rfl
  have hstart' : f'.declaration.parameters = .ok params' := by rw [hdecl']; rfl
  have hmissing := any_isMissing_eq hparams values
  rcases hpresent : (params.zip values).any fun e => e.1.isMissing with _ | _ <;>
    rw [hpresent] at hmissing
  · have hleft := call_function mode depth hf hstart hpresent
    have hright := call_function mode depth hf' hstart' hmissing
    rw [henv, hinit, hp.store.size, hdecl'] at hright
    rw [hdecl] at hleft
    have he := environmentTwin_parameters f.environment hparams values
    have htwin := hp.store.newEnvironment he fun x v hv =>
      hvalues v (parameterBindings_get? hv).2
    have hq : p.Reaches c ⟨_, { p.left with store := _ }, { p.right with store := _ }⟩ :=
      ⟨⟨htwin, hp.environment, hp.printed, hp.now⟩, Store.onward_newEnvironment .., rfl⟩
    refine .after hleft hright hq ?_
    refine (sims_catchReturn hq.twin ?_).bind fun v r hr hv => ?_
    · refine (IH.statements (hq.twin.inside _) (hL.newEnvironment rfl) hbody).bind
        fun _ r hr _ => sims_pure hr.twin trivial
    · split
      · have hstands : (r.inside f.environment).Stands L := hL.onward (hq.trans hr).onward
        refine sims_within hr.twin (sims_getAt_self 0 (hr.twin.inside _) hstands
          c.old_ne_this.symm c.new_ne_this.symm) fun _ _ hw => hw.2
      · exact sims_pure hr.twin hv
  · have hfault : ∀ {m : Machine} {g : Closure} {names : List Token},
        m.store.closure? id = some g → g.declaration.parameters = .ok names →
        ((names.zip values).any fun e => e.1.isMissing) = true →
        Eval.call mode (depth + 1) (.function id) values m = .error (.fault .noMember) m := by
      intro m g names hg hnames hany
      have hok : ofExcept (g.declaration.parameters.mapError .fault) m = .ok names m := by
        rw [hnames]
        rfl
      refine (bind_ok (c := get) rfl).trans ?_
      rw [hg]
      exact (bind_ok hok).trans (bind_error (parameterTable_missing hany m))
    exact sims_of_fault (hfault hf hstart hpresent) (hfault hf' hstart' hmissing) hp (.inl rfl)

theorem Simulates.callClass {cls : Nat} {values : List Value} (hp : p.Twin c)
    (hvalues : ∀ a ∈ values, p.Shares c a) :
    Sims c (Eval.call mode (depth + 1) (.cls cls) values)
      (Eval.call mode (depth + 1) (.cls cls) values) p fun v q => q.Shares c v := by
  refine (sims_newInstance hp cls).bind fun id q hq _ => ?_
  refine sims_get hq.twin _ _ ?_
  rcases hq.twin.store.method? cls "init" with ⟨hf, hf'⟩ | ⟨f, f', hf, hf', hmatches⟩ <;>
    rw [hf, hf']
  · exact sims_pure hq.twin trivial
  · refine (sims_bind hq.twin hmatches (show q.Shares c (.inst id) from trivial)).bind
      fun bound r hr hbound => ?_
    refine (IH.call hr.twin hbound fun a ha => ?_).bind fun _ t ht _ => sims_pure ht.twin trivial
    exact (hvalues a ha).reaches (hq.trans hr)

theorem Simulates.callValue {v : Value} {values : List Value} (hp : p.Twin c)
    (hv : p.Shares c v) (hvalues : ∀ a ∈ values, p.Shares c a) :
    Sims c (Eval.call mode (depth + 1) v values) (Eval.call mode (depth + 1) v values) p
      fun v q => q.Shares c v := by
  cases v with
  | function id => exact IH.callFunction hp hv hvalues
  | cls id => exact IH.callClass hp hvalues
  | native id =>
    refine sims_get hp _ _ ?_
    rw [show p.right.store.native? id = p.left.store.native? id by
      simp only [Store.native?, hp.store.natives]]
    rcases p.left.store.native? id with _ | n
    · exact sims_fault hp
    · exact sims_callNative hp n values
  | _ => exact sims_fault hp

theorem Simulates.callNode {callee n' : Node} {paren : Token} {arguments : List Node}
    (hp : p.Twin c) (hL : p.Stands L) (hn : (Node.call callee paren arguments).Like c L n') :
    Sims c (eval mode (depth + 1) (.call callee paren arguments)) (eval mode (depth + 1) n') p
      fun v q => q.Shares c v := by
  obtain ⟨callee', paren', arguments', rfl, hparen, hcallee, harguments⟩ := hn
  refine (IH.node hp hL hcallee).bind fun v q hq hv => ?_
  refine (IH.each hq.twin (hL.reaches hq) harguments).bind fun values r hr hvalues => ?_
  refine sims_get hr.twin _ _ ?_
  rw [hr.twin.store.arity?_eq (hv.reaches hr)]
  rcases r.left.store.arity? v with f | _ | arity <;> simp only
  · exact sims_fault hr.twin
  · exact sims_fail hr.twin (Change.named_of_alike hparen) (.inl rfl)
  · split
    · exact (sims_fail (P := fun _ _ => False) hr.twin (Change.named_of_alike hparen)
        (.inl rfl)).bind fun _ _ _ h => h.elim
    · exact IH.call hr.twin (hv.reaches hr) hvalues

theorem Simulates.conditional {condition thenBranch n' : Node} {elseBranch : Option Node}
    (hp : p.Twin c) (hL : p.Stands L)
    (hn : (Node.conditional condition thenBranch elseBranch).Like c L n') :
    Sims c (eval mode (depth + 1) (.conditional condition thenBranch elseBranch))
      (eval mode (depth + 1) n') p fun v q => q.Shares c v := by
  obtain ⟨condition', thenBranch', elseBranch', rfl, hcondition, hthen, helse⟩ := hn
  refine (IH.node hp hL hcondition).bind fun v q hq _ => ?_
  have hL' := hL.reaches hq
  split
  · exact (IH.node hq.twin hL' hthen).bind fun _ r hr _ => sims_pure hr.twin trivial
  · cases elseBranch with
    | none =>
      obtain rfl := helse
      exact sims_pure hq.twin trivial
    | some branch =>
      obtain ⟨branch', rfl, hbranch⟩ := helse
      exact (IH.node hq.twin hL' hbranch).bind fun _ r hr _ => sims_pure hr.twin trivial

theorem Simulates.block {statements : List Node} {n' : Node} (hp : p.Twin c) (hL : p.Stands L)
    (hn : (Node.block statements).Like c L n') :
    Sims c (eval mode (depth + 1) (.block statements)) (eval mode (depth + 1) n') p
      fun v q => q.Shares c v := by
  obtain ⟨marked, statements', rfl, hstatements⟩ := hn
  refine sims_get hp _ _ ?_
  rw [hp.environment]
  have hempty : c.EnvironmentTwin marked ⟨.empty, some p.left.environment⟩
      ⟨.empty, some p.left.environment⟩ := ⟨rfl, rfl, by simp [Table.names, Table.empty]⟩
  refine (sims_newEnvironment hp hempty rfl hL (by simp)).bind fun inner q hq hinner => ?_
  have hbody := IH.statements (hq.twin.inside inner) hinner hstatements
  exact (sims_within (Q := fun _ _ => True) hq.twin hbody fun _ _ _ => trivial).bind
    fun _ r hr _ => sims_pure hr.twin trivial

theorem Simulates.classDecl {name : Token} {parent : Option Node}
    {methods : List Node} {n' : Node} (hp : p.Twin c) (hL : p.Stands L)
    (hn : (Node.classDecl name parent methods).Like c L n') :
    Sims c (eval mode (depth + 1) (.classDecl name parent methods)) (eval mode (depth + 1) n') p
      fun v q => q.Shares c v := by
  cases parent with
  | none =>
    obtain ⟨name', methods', rfl, hname, hmethods⟩ := hn
    exact (sims_declareClass none hp hL hname hmethods).bind fun _ q hq _ =>
      sims_pure hq.twin trivial
  | some parent =>
    obtain ⟨name', r, r', methods', rfl, rfl, hname, hr, hmethods⟩ := hn
    have hparent : (Node.ident r).Like c L (.ident r') := ⟨r', rfl, hr⟩
    refine (IH.node hp hL hparent).bind fun v q hq _ => ?_
    refine (sims_superclass hq.twin hr v).bind fun id t _ heq => ?_
    subst heq
    exact (sims_declareClass (some id) hq.twin (hL.reaches hq) hname hmethods).bind
      fun _ q hq _ => sims_pure hq.twin trivial

theorem Simulates.setProperty {object value n' : Node} {name : Token} (hp : p.Twin c)
    (hL : p.Stands L) (hn : (Node.setProperty object name value).Like c L n') :
    Sims c (eval mode (depth + 1) (.setProperty object name value)) (eval mode (depth + 1) n') p
      fun v q => q.Shares c v := by
  obtain ⟨object', name', value', rfl, hname, hobject, hvalue⟩ := hn
  refine (IH.node hp hL hobject).bind fun v q hq _ => ?_
  cases v with
  | inst id =>
    refine (IH.node hq.twin (hL.reaches hq) hvalue).bind fun w r hr hw => ?_
    exact (sims_setProperty hr.twin hname hw).bind fun _ t ht _ =>
      sims_pure ht.twin (hw.reaches ht)
  | _ => exact sims_fail hq.twin (Change.named_of_alike hname) (.inl rfl)

theorem Simulates.print {value n' : Node} (hp : p.Twin c) (hL : p.Stands L)
    (hn : (Node.print value).Like c L n') :
    Sims c (eval mode (depth + 1) (.print value)) (eval mode (depth + 1) n') p
      fun v q => q.Shares c v := by
  obtain ⟨value', rfl, hvalue⟩ := hn
  refine (IH.node hp hL hvalue).bind fun v q hq hv => ?_
  refine (sims_checkInitialized hq.twin hvalue).bind fun _ r _ heq => ?_
  subst heq
  refine sims_get hq.twin _ _ ?_
  rw [hq.twin.store.stringify_eq hv]
  exact (sims_print hq.twin _).bind fun _ t ht _ => sims_pure ht.twin trivial

theorem Simulates.nodeStep (hmode : mode.byDistance = true) {n n' : Node} (hp : p.Twin c)
    (hL : p.Stands L) (hn : n.Like c L n') :
    Sims c (eval mode (depth + 1) n) (eval mode (depth + 1) n') p fun v q => q.Shares c v := by
  cases n with
  | literal value =>
    obtain rfl := hn
    exact sims_pure hp (by cases value <;> trivial)
  | group inner =>
    obtain ⟨inner', rfl, hinner⟩ := hn
    exact IH.node hp hL hinner
  | ident r =>
    obtain ⟨r', rfl, hr⟩ := hn
    exact sims_lookup hmode hp hL hr
  | receiver r =>
    obtain ⟨r', rfl, hr⟩ := hn
    exact sims_lookup hmode hp hL hr
  | superMethod keyword method =>
    obtain ⟨keyword', method', rfl, hkeyword, hmethod⟩ := hn
    exact sims_superMethod hmode hp hL hkeyword.hops hmethod
  | assign target value =>
    obtain ⟨target', value', rfl, htarget, hvalue⟩ := hn
    refine (IH.node hp hL hvalue).bind fun v q hq hv => ?_
    exact (sims_assign hmode hq.twin (hL.reaches hq) htarget hv).bind fun _ r hr _ =>
      sims_pure hr.twin (hv.reaches hr)
  | unary operator right =>
    obtain ⟨operator', right', rfl, hoperator, hright⟩ := hn
    exact (IH.node hp hL hright).bind fun v q hq _ => sims_unary hq.twin hoperator v
  | binary left operator right =>
    obtain ⟨left', operator', right', rfl, hoperator, hleft, hright⟩ := hn
    refine (IH.node hp hL hleft).bind fun v q hq _ => ?_
    exact (IH.node hq.twin (hL.reaches hq) hright).bind fun w r hr _ =>
      sims_binary hr.twin hoperator v w
  | logical left operator right =>
    obtain ⟨left', operator', right', rfl, hoperator, hleft, hright⟩ := hn
    refine (IH.node hp hL hleft).bind fun v q hq hv => ?_
    refine (sims_checkToken hq.twin (Change.isMissing_eq hoperator)).bind fun _ r _ heq => ?_
    subst heq
    rw [c.kind_eq hoperator]
    split
    · exact sims_pure hq.twin hv
    · exact IH.node hq.twin (hL.reaches hq) hright
  | call callee paren arguments => exact IH.callNode hp hL hn
  | property object name =>
    obtain ⟨object', name', rfl, hname, hobject⟩ := hn
    refine (IH.node hp hL hobject).bind fun v q hq _ => ?_
    cases v with
    | inst id => exact sims_getProperty hq.twin hname
    | _ => exact sims_fail hq.twin (Change.named_of_alike hname) (.inl rfl)
  | setProperty object name value => exact IH.setProperty hp hL hn
  | block statements => exact IH.block hp hL hn
  | classDecl name parent methods => exact IH.classDecl hp hL hn
  | expression value =>
    obtain ⟨value', rfl, hvalue⟩ := hn
    refine (IH.node hp hL hvalue).bind fun v q hq _ => ?_
    exact (sims_checkInitialized hq.twin hvalue).bind fun _ r hr _ => sims_pure hr.twin trivial
  | function name params body =>
    obtain ⟨marked, name', params', body', rfl, hname, hparams, hbody⟩ := hn
    exact (sims_declareFunction hp hL hname hparams hbody).bind fun _ q hq _ =>
      sims_pure hq.twin trivial
  | conditional condition thenBranch elseBranch => exact IH.conditional hp hL hn
  | print value => exact IH.print hp hL hn
  | returning keyword value =>
    obtain ⟨keyword', value', rfl, -, hvalue⟩ := hn
    cases value with
    | none =>
      obtain rfl := hvalue
      exact sims_throw hp rfl fun v hv => by cases hv; trivial
    | some value =>
      obtain ⟨value', rfl, hvalue⟩ := hvalue
      refine (IH.node hp hL hvalue).bind fun v q hq hv => ?_
      exact sims_throw hq.twin rfl fun w hw => by cases hw; exact hv
  | varDecl name initializer =>
    obtain ⟨name', initializer', rfl, hname, hinitializer⟩ := hn
    cases initializer with
    | none =>
      obtain rfl := hinitializer
      exact (sims_define hp hL hname (show p.Shares c .nil from trivial)).bind fun _ q hq _ =>
        sims_pure hq.twin trivial
    | some initializer =>
      obtain ⟨value', rfl, hvalue⟩ := hinitializer
      refine (IH.node hp hL hvalue).bind fun v q hq hv => ?_
      exact (sims_define hq.twin (hL.reaches hq) hname hv).bind fun _ r hr _ =>
        sims_pure hr.twin trivial
  | loop condition body =>
    obtain ⟨condition', body', rfl, hcondition, hbody⟩ := hn
    exact (IH.turns hcondition hbody hp hL).bind fun _ q hq _ => sims_pure hq.twin trivial
  | misfit m => exact hn.elim

end Parts

/-- Trees that are alike run alike on twins, however deep they may nest. -/
theorem simulates (c : Change) {mode : Mode} (hmode : mode.byDistance = true) (depth : Nat) :
    Simulates c mode depth := by
  induction depth with
  | zero => exact ⟨fun hp _ _ => sims_throw hp rfl (by simp), fun hp _ _ =>
      sims_throw hp rfl (by simp)⟩
  | succ depth IH => exact ⟨fun hp hL hn => IH.nodeStep hmode hp hL hn, IH.callValue⟩

end Eval

end Lox
