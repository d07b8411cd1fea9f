import Mathlib.Tactic
import Lox.Proofs.Additions
import Lox.Session.Workbench

/-!
# The history of a store

What execution comes to has a store between the one that execution began with and the one that it
ends with (`Comes.between`), since all that is run adds to the store, and so does what is left to do
after each part of it. A session leads to others by its steps, and by nodes of any sort that are run
or evaluated in it (`Leads`). So the stores of its whole history, those in the midst of a run among
them, come one after the other. Each of them has all that was in those before, and chains that end
(`persists_chained`), whatever the names of classes were bound to in the meantime.
-/

namespace Lox

open Region (whole)

/-- The values that a call is made with are in the store. -/
def Task.Known (s : Store) : Task → Prop
  | .call v values => whole.Knows s v ∧ ∀ a ∈ values, whole.Knows s a
  | _ => True

/-- The visit is to a machine among what is in its store, with values that are there as well. -/
structure Visit.Grounded (v : Visit) : Prop where
  machine : whole.Runs v.machine
  task : v.task.Known v.machine.store

namespace Eval

variable {mode : Mode} {depth : Nat} {m m' : Machine}

/-! ## Visits -/

theorem adds_perform {task : Task} (hm : whole.Runs m) (htask : task.Known m.store) :
    Adds (perform mode depth task) m fun _ _ => True := by
  have hadds := addsOnly mode depth
  cases task with
  | node n => exact (hadds.node n hm).bind fun _ _ hm' _ _ => adds_pure hm' trivial
  | each ns => exact (hadds.each ns hm).bind fun _ _ hm' _ _ => adds_pure hm' trivial
  | statements ns => exact hadds.statements ns hm
  | turns condition body count => exact hadds.turns condition body count hm
  | call v values =>
    exact (hadds.call hm htask.1 htask.2).bind fun _ _ hm' _ _ => adds_pure hm' trivial

/-- When what is next after the first part of a node is over, the rest of the node adds. -/
theorem advances_next {n part : Node} {task : Task} {value : Value}
    (hfirst : n.first? = some part) (hpart : eval mode depth part m = .ok value m')
    (htask : n.next? value = some task) (hm' : whole.Runs m')
    (hvalue : whole.Knows m'.store value) :
    (machineAfter (perform mode depth task m')).store.Advances
      (machineAfter (eval mode (depth + 1) n m)).store := by
  have hadds := addsOnly mode depth
  cases n with
  | binary left operator right =>
    cases hfirst
    cases htask
    rw [perform, machineAfter_then_pure, eval, bind_ok hpart]
    exact advances_rest (hadds.node right hm').stays fun w _ hm'' _ _ =>
      (reads_ofExcept _).adds (stays_ofExcept hm'' (binary_endsPlainly operator value w))
  | logical left operator right =>
    cases hfirst
    simp only [Node.next?] at htask
    split at htask
    · cases htask
    · rename_i hgoes
      cases htask
      obtain ⟨hpresent, hshort⟩ := not_or.1 hgoes
      rw [perform, machineAfter_then_pure, eval, bind_ok hpart,
        checkToken_eq (by simpa using hpresent), pure_bind, if_neg hshort]
      exact .refl _
  | call callee paren arguments =>
    cases hfirst
    cases htask
    rw [perform, machineAfter_then_pure, eval, bind_ok hpart]
    exact advances_rest (hadds.each arguments hm').stays fun values _ hm'' hgrown hvalues =>
      hadds.callee value paren values hm'' (hvalue.grown hgrown) hvalues
  | setProperty object name new =>
    cases hfirst
    cases value with
    | inst id =>
      cases htask
      rw [perform, machineAfter_then_pure, eval, bind_ok hpart]
      exact advances_rest (hadds.node new hm').stays fun w _ hm'' hgrown hw =>
        (adds_setProperty hm'' (hvalue.grown hgrown) hw).bind fun _ _ hm₃ hgrown' _ =>
          adds_pure (P := whole.Knows) hm₃ (hw.grown hgrown')
    | _ => cases htask
  | conditional condition thenBranch elseBranch =>
    cases hfirst
    simp only [Node.next?] at htask
    split at htask
    · rename_i htruthy
      cases htask
      rw [perform, machineAfter_then_pure, eval, bind_ok hpart, if_pos htruthy,
        machineAfter_then_pure]
      exact .refl _
    · rename_i hfalsy
      obtain ⟨branch, rfl, rfl⟩ := Option.map_eq_some_iff.1 htask
      rw [perform, machineAfter_then_pure, eval, bind_ok hpart, if_neg hfalsy]
      simp only [machineAfter_then_pure]
      exact .refl _
  | _ => cases htask

theorem known_next {s : Store} {n : Node} {value : Value} {task : Task}
    (h : n.next? value = some task) : task.Known s := by
  unfold Node.next? at h
  split at h
  · cases h
    trivial
  · split at h <;> cases h
    trivial
  · cases h
    trivial
  · cases h
    trivial
  · split at h
    · cases h
      trivial
    · obtain ⟨branch, -, rfl⟩ := Option.map_eq_some_iff.1 h
      trivial
  · cases h

theorem runs_instantiate {cls : Nat} {f : Closure} (hm : whole.Runs m)
    (hcls : whole.Inside m.store (.cls cls)) (hf : m.store.method? cls "init" = some f) :
    whole.Runs (m.instantiate cls f) ∧ m.store.Grown (m.instantiate cls f).store ∧
      m.store.Advances (m.instantiate cls f).store ∧
      whole.Knows (m.instantiate cls f).store (.function m.store.functions.size) := by
  obtain ⟨hm₁, hgrown₁, hi, hadvances₁⟩ := (adds_newInstance hm hcls).of_ok rfl
  have hmethod := (hm.store.method? hcls hf).grown hgrown₁
  obtain ⟨hm₂, hgrown₂, hbound, hadvances₂⟩ := (adds_bind hm₁ hmethod hi).of_ok rfl
  exact ⟨hm₂, fun o ho => hgrown₂ o (hgrown₁ o ho), hadvances₁.trans hadvances₂, hbound⟩

/-- The second visit lies within the first: it begins with an advance on the store of the first, and
it ends with a store on which that of the first is an advance. -/
structure Between (mode : Mode) (v v' : Visit) : Prop where
  grounded : v'.Grounded
  begins : v.machine.store.Advances v'.machine.store
  ends : (outcome mode v').store.Advances (outcome mode v).store

theorem Between.refl {v : Visit} (h : v.Grounded) : Between mode v v := ⟨h, .refl _, .refl _⟩

theorem Between.trans {v v' v'' : Visit} (h : Between mode v v') (h' : Between mode v' v'') :
    Between mode v v'' :=
  ⟨h'.grounded, h.begins.trans h'.begins, h'.ends.trans h.ends⟩

theorem advances_outcome {v : Visit} (h : v.Grounded) :
    v.machine.store.Advances (outcome mode v).store :=
  (adds_perform h.machine h.task).advances

/-- What is entered from a visit lies within it. -/
theorem Enters.between {v v' : Visit} (h : Enters mode v v') (hv : v.Grounded) :
    Between mode v v' := by
  obtain ⟨hm, htask⟩ := hv
  cases h with
  | @first depth p n part m hfirst =>
    obtain ⟨k, heval, hk⟩ := (addsOnly mode depth).first hfirst
    refine ⟨⟨hm, trivial⟩, .refl _, ?_⟩
    simp only [outcome, perform, machineAfter_then_pure, heval]
    exact advances_rest ((addsOnly mode depth).node part hm).stays fun v m' hm' _ hv =>
      hk v m' hm' hv
  | @next depth p n part task value m m' hfirst hpart hnext =>
    obtain ⟨hm', -, hvalue, hadvances⟩ := ((addsOnly mode depth).node part hm).of_ok hpart
    refine ⟨⟨hm', known_next hnext⟩, hadvances, ?_⟩
    simp only [outcome]
    rw [perform, machineAfter_then_pure]
    exact advances_next hfirst hpart hnext hm' hvalue
  | @call depth p callee paren ns value values m m₁ m₂ hcallee hvalues harity =>
    obtain ⟨hm₁, -, hvalue, hadvances₁⟩ := ((addsOnly mode depth).node callee hm).of_ok hcallee
    obtain ⟨hm₂, hgrown, hknown, hadvances₂⟩ := ((addsOnly mode depth).each ns hm₁).of_ok hvalues
    refine ⟨⟨hm₂, hvalue.grown hgrown, hknown⟩, hadvances₁.trans hadvances₂, ?_⟩
    simp only [outcome, perform, machineAfter_then_pure, eval_call hcallee hvalues harity]
    exact .refl _
  | @block depth p ns m =>
    obtain ⟨hm₁, -, hinner, hadvances⟩ :=
      (adds_newEnvironment hm (environmentInside_empty hm)).of_ok rfl
    refine ⟨⟨⟨hm₁.store, hinner⟩, trivial⟩, hadvances, ?_⟩
    simp only [outcome, perform, eval_block, machineAfter_then_pure, machineAfter_within]
    exact .refl _
  | @initializer depth p name value m =>
    refine ⟨⟨hm, trivial⟩, .refl _, ?_⟩
    simp only [outcome, perform, machineAfter_then_pure]
    exact advances_rest ((addsOnly mode depth).node value hm).stays fun v _ hm' _ hv =>
      (adds_define hm' hv).bind fun _ _ hm'' _ _ => adds_pure (P := whole.Knows) hm'' knows_nil
  | @loop depth p condition body m =>
    refine ⟨⟨hm, trivial⟩, .refl _, ?_⟩
    simp only [outcome, perform, eval, machineAfter_then_pure]
    exact .refl _
  | @condition depth p condition body count m =>
    refine ⟨⟨hm, trivial⟩, .refl _, ?_⟩
    simp only [outcome, perform, machineAfter_then_pure]
    refine advances_rest (Q := fun _ _ => True) ((addsOnly mode depth).node condition hm).stays
      fun v m' hm' _ _ => ?_
    split
    · exact ((addsOnly mode depth).node body hm').bind fun _ _ hm'' _ _ =>
        (addsOnly mode depth).turns condition body count hm''
    · exact adds_pure hm' trivial
  | @body depth p condition body count value m m₁ hcondition htruthy =>
    obtain ⟨hm₁, -, -, hadvances⟩ := ((addsOnly mode depth).node condition hm).of_ok hcondition
    refine ⟨⟨hm₁, trivial⟩, hadvances, ?_⟩
    simp only [outcome, perform, machineAfter_then_pure, repeatWhile_condition hcondition, htruthy,
      if_true]
    exact advances_rest ((addsOnly mode depth).node body hm₁).stays fun _ _ hm₂ _ _ =>
      (addsOnly mode depth).turns condition body count hm₂
  | @again depth p condition body count value value' m m₁ m₂ hcondition htruthy hbody =>
    obtain ⟨hm₁, -, -, hadvances₁⟩ := ((addsOnly mode depth).node condition hm).of_ok hcondition
    obtain ⟨hm₂, -, -, hadvances₂⟩ := ((addsOnly mode depth).node body hm₁).of_ok hbody
    refine ⟨⟨hm₂, trivial⟩, hadvances₁.trans hadvances₂, ?_⟩
    simp only [outcome, perform, repeatWhile_condition hcondition, htruthy, if_true,
      bind_ok hbody]
    exact .refl _
  | @statement depth p n rest m =>
    refine ⟨⟨hm, trivial⟩, .refl _, ?_⟩
    simp only [outcome, perform, machineAfter_then_pure]
    exact advances_rest ((addsOnly mode depth).node n hm).stays fun _ _ hm' _ _ =>
      (addsOnly mode depth).statements rest hm'
  | @later depth p n rest value m m₁ hrun =>
    obtain ⟨hm₁, -, -, hadvances⟩ := ((addsOnly mode depth).node n hm).of_ok hrun
    refine ⟨⟨hm₁, trivial⟩, hadvances, ?_⟩
    simp only [outcome, perform, inOrder, bind_ok hrun]
    exact .refl _
  | @argument depth p n rest m =>
    refine ⟨⟨hm, trivial⟩, .refl _, ?_⟩
    simp only [outcome, perform, machineAfter_then_pure, List.mapM_cons]
    refine advances_rest (Q := fun _ _ => True) ((addsOnly mode depth).node n hm).stays
      fun _ _ hm' _ _ => ?_
    exact ((addsOnly mode depth).each rest hm').bind fun _ _ hm'' _ _ => adds_pure hm'' trivial
  | @arguments depth p n rest value m m₁ hrun =>
    obtain ⟨hm₁, -, -, hadvances⟩ := ((addsOnly mode depth).node n hm).of_ok hrun
    refine ⟨⟨hm₁, trivial⟩, hadvances, ?_⟩
    simp only [outcome, perform, machineAfter_then_pure, mapM_cons_ok hrun]
    exact advances_rest (Q := fun _ _ => True) ((addsOnly mode depth).each rest hm₁).stays
      fun _ _ hm' _ _ => adds_pure hm' trivial
  | @function depth p id f params values m hclosure hparams hpresent =>
    have he : whole.EnvironmentInside m.store
        ⟨parameterBindings params values, some f.environment⟩ := by
      refine ⟨fun outer houter => ?_, fun name v hv => htask.2 v (parameterBindings_get? hv).2⟩
      cases houter
      exact hm.store.functions id f (htask.1 _ rfl) hclosure
    obtain ⟨hm₁, hgrown₁, hinner, hadvances⟩ := (adds_newEnvironment hm he).of_ok rfl
    refine ⟨⟨⟨hm₁.store, hinner⟩, trivial⟩, hadvances, ?_⟩
    simp only [outcome, perform, machineAfter_then_pure,
      call_function mode depth hclosure hparams hpresent]
    have hbody := (addsOnly mode depth).body f.declaration.body hm₁ hinner
    have hrest := advances_rest hbody.stays fun v m' hm' hgrown hv =>
      adds_result hm' (((he.enclosing _ rfl).grown hgrown₁).grown hgrown) hv
    -- the body leaves its store to the call, whether or not it ended in a `return`
    rw [machineAfter_catchReturn, machineAfter_within, machineAfter_then_pure] at hrest
    exact hrest
  | @construct depth p cls f values m hmethod =>
    obtain ⟨hmade, hgrown, hadvances, hbound⟩ := runs_instantiate hm (htask.1 _ rfl) hmethod
    refine ⟨⟨hmade, hbound, fun a ha => (htask.2 a ha).grown hgrown⟩, hadvances, ?_⟩
    simp only [outcome, perform, machineAfter_then_pure, call_class hmethod]
    exact .refl _

/-- So does all that execution comes to. -/
theorem Comes.between {v v' : Visit} (h : Comes mode v v') (hv : v.Grounded) :
    Between mode v v' := by
  induction h with
  | refl => exact .refl hv
  | tail _ h ih => exact ih.trans (h.between ih.grounded)

end Eval

/-! ## Sessions -/

namespace Session

open Eval (Comes machineAfter outcome)

/-- What can be done next: to let time pass, to perform a step, or to run or evaluate any nodes. -/
inductive Leads : Session → Session → Prop
  | wait (s : Session) (now : Clock) : Leads s { s with machine := { s.machine with now } }
  | step (s : Session) (step : Step) : Leads s (s.perform step).1
  | interpret (s : Session) (byDistance : Bool) (nodes : List Node) :
    Leads s (s.interpret byDistance nodes).1
  | evaluate (w : Workbench) : Leads w.session w.evaluate.1.session

/-- The second session comes of the first, by any number of these. -/
def Evolves : Session → Session → Prop := Relation.ReflTransGen Leads

variable {s s' : Session}

/-- The machine of the session is among what is in its store, and the store is an advance on that of
the one before. -/
structure Follows (s s' : Session) : Prop where
  runs : whole.Runs s'.machine
  advances : s.machine.store.Advances s'.machine.store

theorem Follows.of_same (hm : whole.Runs s.machine)
    (hstore : s'.machine.store = s.machine.store)
    (henvironment : s'.machine.environment = s.machine.environment) : s.Follows s' := by
  refine ⟨⟨?_, ?_⟩, ?_⟩ <;> rw [hstore]
  · exact hm.store
  · rw [henvironment]
    exact hm.environment
  · exact .refl _

theorem follows_interpret (hm : whole.Runs s.machine) (byDistance : Bool) (nodes : List Node) :
    s.Follows (s.interpret byDistance nodes).1 := by
  have hadds := (Eval.addsOnly (s.mode byDistance) s.limits.depth).statements nodes hm
  refine ⟨?_, ?_⟩ <;> rw [interpret, machine_conclude]
  · exact hadds.stays.runs
  · exact hadds.advances

theorem follows_run (hm : whole.Runs s.machine) (source : String) :
    s.Follows (s.run source).1 := by
  rcases run_cases s source with ⟨reports, hrefuses⟩ | ⟨nodes, -, -, hrun⟩
  · rw [hrefuses.session]
    exact .of_same hm rfl rfl
  · rw [hrun]
    exact follows_interpret hm true nodes

theorem follows_runUnresolved (hm : whole.Runs s.machine) (source : String) :
    s.Follows (s.runUnresolved source).1 := by
  obtain ⟨reports, -, hsession, -⟩ := parse_spec s source
  unfold runUnresolved
  split <;> rename_i hparse <;> rw [hparse] at hsession <;> cases hsession
  · exact .of_same hm rfl rfl
  · have hreported : whole.Runs (s.report reports).machine := hm
    exact ⟨(follows_interpret hreported true _).runs, (follows_interpret hreported true _).advances⟩

theorem follows_perform (hm : whole.Runs s.machine) (step : Step) :
    s.Follows (s.perform step).1 := by
  by_cases hstep : ∀ source, step ≠ .runUnresolved source
  · rcases store_perform s hstep with hsame | ⟨source, hrun⟩
    · exact .of_same hm hsame (environment_perform s step)
    · have hfollows := follows_run hm source
      exact ⟨hrun ▸ hfollows.runs, hrun ▸ hfollows.advances⟩
  · push Not at hstep
    obtain ⟨source, rfl⟩ := hstep
    exact follows_runUnresolved hm source

theorem follows_evaluate (w : Workbench) (hm : whole.Runs w.session.machine) :
    w.session.Follows w.evaluate.1.session := by
  have hadds := (Eval.addsOnly (w.session.mode w.isResolved) w.session.limits.depth).each w.nodes hm
  have hmachine : w.evaluate.1.session.machine = machineAfter (w.nodes.mapM
      (Eval.eval (w.session.mode w.isResolved) w.session.limits.depth) w.session.machine) := by
    unfold Workbench.evaluate
    simp only
    split <;> rename_i hrun <;> rw [hrun] <;> rfl
  refine ⟨?_, ?_⟩ <;> rw [hmachine]
  · exact hadds.stays.runs
  · exact hadds.advances

theorem Leads.follows (h : Leads s s') (hm : whole.Runs s.machine) : s.Follows s' := by
  cases h with
  | wait s now => exact .of_same hm rfl rfl
  | step s step => exact follows_perform hm step
  | interpret s byDistance nodes => exact follows_interpret hm byDistance nodes
  | evaluate w => exact follows_evaluate w hm

theorem Evolves.follows (h : Evolves s s') (hm : whole.Runs s.machine) : s.Follows s' := by
  induction h with
  | refl => exact ⟨hm, .refl _⟩
  | tail _ h ih =>
    have hnext := h.follows ih.runs
    exact ⟨hnext.runs, ih.advances.trans hnext.advances⟩

theorem runs_start (limits : Limits) : whole.Runs ({ limits } : Session).machine :=
  ⟨Region.confined_initial, .inl Nat.zero_lt_one⟩

/-- Along every history the store only grows: a later store has each environment with the same one
around it and no name less, each function and each class as it was, and each instance with its class
and no field less. This holds from one session to all that come of it, and within a run of any nodes
from the start over whatever is visited, and what is visited from there, to the ends of both and to
that of the run, however each of them ends. In each of these stores the chains of environments and
of superclasses are well-founded, so that reading and setting a name get to the nearest environment
that has it, and the method that is found is that of the nearest class that has one. -/
theorem persists_chained {limits : Limits} (hs : Evolves { limits } s) (hs' : Evolves s s') :
    s.machine.store.Persists s'.machine.store ∧ s.machine.store.Chained ∧
      ∀ (byDistance : Bool) (nodes : List Node) (v v' : Visit),
        Comes (s.mode byDistance) (s.firstVisit nodes) v → Comes (s.mode byDistance) v v' →
        let stores := [s.machine, v.machine, v'.machine, outcome (s.mode byDistance) v',
          outcome (s.mode byDistance) v, (s.interpret byDistance nodes).1.machine].map (·.store)
        stores.Pairwise Store.Persists ∧ ∀ store ∈ stores, store.Chained := by
  have hstart := hs.follows (runs_start limits)
  have haged : s.machine.store.Aged := Store.aged_initial.advances hstart.advances
  refine ⟨(hs'.follows hstart.runs).advances.toPersists, haged.chained, ?_⟩
  intro byDistance nodes v v' hv hv' stores
  have hfirst : (s.firstVisit nodes).Grounded := ⟨hstart.runs, trivial⟩
  have houter := hv.between hfirst
  have hinner := hv'.between houter.grounded
  have hfinal : (s.interpret byDistance nodes).1.machine =
      outcome (s.mode byDistance) (s.firstVisit nodes) := by
    rw [interpret, machine_conclude]
    rfl
  have hchain : stores.IsChain Store.Advances := by
    simp only [stores, hfinal, List.map_cons, List.map_nil, List.isChain_cons_cons,
      List.isChain_singleton, and_true]
    exact ⟨houter.begins, hinner.begins, Eval.advances_outcome hinner.grounded, hinner.ends,
      houter.ends⟩
  have hordered : stores.Pairwise Store.Advances := hchain.pairwise
  refine ⟨hordered.imp fun h => h.toPersists, fun store hstore => ?_⟩
  rcases List.mem_cons.1 hstore with rfl | hlater
  · exact haged.chained
  · exact (haged.advances (List.rel_of_pairwise_cons hordered hlater)).chained

/-- Two classes that are declared under one name, the second under a subclass of the first. -/
def redeclared : String := "class A { m() {} } class B < A {} class A < B {}"

/-- The visit to what is in an empty block, the first statement of a new session. -/
def inEmptyBlock : Visit :=
  ⟨3999, .inner, .statements [], ({} : Machine).nest ⟨.empty, some Store.globals⟩⟩

/-- The second class of the name finds the method of the first, and both are still there when the
name of the subclass is bound to it. A store in the midst of a run has chains that end, too. -/
theorem persists_chained_redeclared :
    let s := (({} : Session).run redeclared).1
    let s' := (s.run "B = A;").1
    (s.machine.store.findMethod? 2 "m" = some 0 ∧ s.machine.store.Nearest 2 "m" 0) ∧
      (s.machine.store.Persists s'.machine.store ∧
        (s'.machine.store.class? 0).map (·.name) = (s'.machine.store.class? 2).map (·.name)) ∧
      Comes (mode {} true) (firstVisit {} [.block []]) inEmptyBlock ∧
      inEmptyBlock.machine.store.Chained := by
  have hs : Evolves {} (({} : Session).run redeclared).1 := .single (.step _ (.run redeclared))
  have hlater := persists_chained hs (.single (.step _ (.run "B = A;")))
  have hfound : (({} : Session).run redeclared).1.machine.store.findMethod? 2 "m" = some 0 := by
    decide +kernel
  have hcomes : Comes (mode {} true) (firstVisit {} [.block []]) inEmptyBlock :=
    .tail (.single .statement) .block
  have hstart : Evolves {} {} := .refl
  have hnow := (persists_chained hstart hstart).2.2 true _ _ _ hcomes .refl
  exact ⟨⟨hfound, (hlater.2.1.method _ _ _).1 hfound⟩, ⟨hlater.1, by decide +kernel⟩, hcomes,
    hnow.2 _ (by simp)⟩

end Session

end Lox
