import Mathlib.Tactic
import Lox.Proofs.Dispatch
import Lox.Proofs.Restored
import Lox.Proofs.Tame

/-!
# The moments of a session

A moment of a session is a machine that it had at some time: between two steps, or when execution
came to some part of a program, or when it was over with that part. Tame parts are calm, and so is
what is left to do after each of them (`Enters.tame`). So the stores of all moments are tidy and
have gone on to the store that the session has now (`Moment.stable`), and two moments agree on every
environment that holds a receiver, in whatever order they came (`Moment.receiver`).
-/

namespace Lox

/-- The task is a tame part of a program, or a call. -/
def Task.Tame : Task → Prop
  | .node n => ∃ bare, n.Tame bare
  | .each ns => ∃ bare, Node.TameAll bare ns
  | .statements ns => ∃ bare, Node.TameAll bare ns
  | .turns condition body _ => ∃ bare, condition.Tame bare ∧ body.Tame bare
  | .call _ _ => True

structure Visit.Tame (v : Visit) : Prop where
  machine : v.machine.Tidy
  task : v.task.Tame

namespace Eval

variable {α β : Type} {bare : Bool} {mode : Mode} {depth : Nat} {m m' : Machine}

/-! ## What a part leaves to be done -/

theorem machineAfter_then_pure (c : Eval α) (b : β) (m : Machine) :
    machineAfter ((c >>= fun _ => pure b) m) = machineAfter (c m) := by
  rcases hc : c m with ⟨a, m'⟩ | ⟨signal, m'⟩
  · rw [bind_ok hc]
    rfl
  · rw [bind_error hc]
    rfl

theorem machineAfter_within (inner : Nat) (x : Eval α) (m : Machine) :
    machineAfter (within inner x m) =
      { machineAfter (x { m with environment := inner }) with environment := m.environment } := by
  unfold within
  cases x { m with environment := inner } <;> rfl

theorem machineAfter_catchReturn (x : Eval Value) (m : Machine) :
    machineAfter (catchReturn x m) = machineAfter (x m) := by
  unfold catchReturn
  rcases x m with ⟨v, m'⟩ | ⟨signal, m'⟩
  · rfl
  · cases signal <;> rfl

/-- A calm rest leaves all in the store where the part left it. -/
theorem stable_rest (bare : Bool) {c : Eval α} {k : α → Eval β} (hk : ∀ a, Calm bare (k a))
    (hc : (machineAfter (c m)).Tidy) :
    (machineAfter (c m)).store.Stable (machineAfter ((c >>= k) m)).store := by
  rcases hrun : c m with ⟨a, m'⟩ | ⟨signal, m'⟩ <;> rw [hrun] at hc
  · rw [bind_ok hrun]
    exact (hk a m' hc).stable
  · rw [bind_error hrun]
    exact .refl _

theorem calm_perform {task : Task} (h : task.Tame) : Calm false (perform mode depth task) := by
  have hcalms := calms mode depth
  have hdrop : ∀ {γ : Type} {c : Eval γ} {bare : Bool}, Calm bare c →
      Calm false (do let _ ← c : Eval Unit) := fun hc m hm =>
    ((hc.bind fun _ => calm_pure ()) m hm).unasked
  cases task with
  | node n =>
    obtain ⟨bare, hn⟩ := h
    exact hdrop (hcalms.node hn)
  | each ns =>
    obtain ⟨bare, hns⟩ := h
    exact hdrop (hcalms.each hns)
  | statements ns =>
    obtain ⟨bare, hns⟩ := h
    exact fun m hm => (hcalms.statements hns m hm).unasked
  | turns condition body count =>
    obtain ⟨bare, hcondition, hbody⟩ := h
    exact fun m hm => (hcalms.turns hcondition hbody count m hm).unasked
  | call v values => exact hdrop (hcalms.call v values)

/-- The machine when a visit is over. -/
def outcome (mode : Mode) (v : Visit) : Machine :=
  machineAfter (perform mode v.depth v.task v.machine)

theorem tidy_outcome (mode : Mode) {v : Visit} (h : v.Tame) :
    (outcome mode v).Tidy ∧ v.machine.store.Stable (outcome mode v).store :=
  have hcalm := calm_perform h.task v.machine h.machine
  ⟨hcalm.tidy, hcalm.stable⟩

/-- What is next after the first part of a node leaves a calm rest. -/
theorem next_tame {n part : Node} {task : Task} {value : Value} (hn : n.Tame bare)
    (hfirst : n.first? = some part) (hpart : eval mode depth part m = .ok value m')
    (htask : n.next? value = some task) :
    task.Tame ∧ ∃ (γ : Type) (c : Eval γ) (k : γ → Eval Value),
      eval mode (depth + 1) n m = (c >>= k) m' ∧ (∀ a, Calm bare (k a)) ∧
      machineAfter (c m') = machineAfter (perform mode depth task m') := by
  have hcalms := calms mode depth
  have hdrop : ∀ {γ : Type} (c : Eval γ), machineAfter (c m') =
    machineAfter ((do let _ ← c : Eval Unit) m') := fun c => (machineAfter_then_pure c () m').symm
  cases n with
  | binary left operator right =>
    cases hfirst
    cases htask
    exact ⟨⟨bare, hn.2⟩, _, _, _, bind_ok hpart, fun w =>
      calm_operator (binary_endsPlainly operator value w), hdrop _⟩
  | logical left operator right =>
    cases hfirst
    simp only [Node.next?] at htask
    split at htask
    · cases htask
    · rename_i hgoes
      cases htask
      obtain ⟨hpresent, hshort⟩ := not_or.1 hgoes
      refine ⟨⟨bare, hn.2⟩, _, _, pure, ?_, calm_pure, hdrop _⟩
      refine (bind_ok hpart).trans ?_
      rw [checkToken_eq (by simpa using hpresent), pure_bind, if_neg hshort, bind_pure]
  | call callee paren arguments =>
    cases hfirst
    cases htask
    exact ⟨⟨bare, hn.2⟩, _, _, _, bind_ok hpart, fun values => hcalms.callee value paren values,
      hdrop _⟩
  | setProperty object name new =>
    cases hfirst
    cases value with
    | inst id =>
      cases htask
      exact ⟨⟨bare, hn.2⟩, _, _, _, bind_ok hpart, fun w =>
        (calm_setProperty id name w).bind fun _ => calm_pure w, hdrop _⟩
    | _ => cases htask
  | conditional condition thenBranch elseBranch =>
    cases hfirst
    simp only [Node.next?] at htask
    split at htask
    · rename_i htruthy
      cases htask
      refine ⟨⟨bare, hn.2.1⟩, _, _, _, (bind_ok hpart).trans ?_, fun _ => calm_pure Value.nil,
        hdrop (eval mode depth thenBranch)⟩
      rw [if_pos htruthy]
    · rename_i hfalsy
      obtain ⟨branch, rfl, rfl⟩ := Option.map_eq_some_iff.1 htask
      refine ⟨⟨bare, hn.2.2⟩, _, _, _, (bind_ok hpart).trans ?_, fun _ => calm_pure Value.nil,
        hdrop (eval mode depth branch)⟩
      rw [if_neg hfalsy]
  | _ => cases htask

/-- A call with as many arguments as are taken is what the call expression ends with. -/
theorem eval_call {callee : Node} {paren : Token} {ns : List Node} {value : Value}
    {values : List Value} {m₁ m₂ : Machine} (hcallee : eval mode depth callee m = .ok value m₁)
    (hvalues : ns.mapM (eval mode depth) m₁ = .ok values m₂)
    (harity : m₂.store.arity? value = .ok (some values.length)) :
    eval mode (depth + 1) (.call callee paren ns) m = call mode depth value values m₂ := by
  refine (bind_ok hcallee).trans ((bind_ok hvalues).trans ((bind_ok (c := get) rfl).trans ?_))
  rw [harity]
  simp only [ne_eq, not_true_eq_false, if_false]

/-! ## Visits -/

/-- The second visit is tame, it begins after the first one and is over before it. -/
structure Amid (mode : Mode) (v v' : Visit) : Prop where
  tame : v'.Tame
  begins : v.machine.store.Stable v'.machine.store
  ends : (outcome mode v').store.Stable (outcome mode v).store

theorem Amid.trans {v v' v'' : Visit} (h : Amid mode v v') (h' : Amid mode v' v'') :
    Amid mode v v'' :=
  ⟨h'.tame, h.begins.trans h'.begins, h'.ends.trans h.ends⟩

theorem Amid.refl {v : Visit} (h : v.Tame) : Amid mode v v := ⟨h, .refl _, .refl _⟩

/-- What is entered from a tame visit is tame, and lies amid it. -/
theorem Enters.tame {v v' : Visit} (h : Enters mode v v') (hv : v.Tame) : Amid mode v v' := by
  obtain ⟨hm, htask⟩ := hv
  cases h with
  | @first depth p n part m hfirst =>
    obtain ⟨bare, hn⟩ := htask
    obtain ⟨hpart, k, heval, hk⟩ := (calms mode depth).first hfirst hn
    refine ⟨⟨hm, bare, hpart⟩, .refl _, ?_⟩
    simp only [outcome, perform, machineAfter_then_pure, heval]
    exact stable_rest bare hk ((calms mode depth).node hpart m hm).tidy
  | @next depth p n part task value m m' hfirst hpart hnext =>
    obtain ⟨bare, hn⟩ := htask
    have htamePart := ((calms mode depth).first hfirst hn).1
    obtain ⟨hm', hstable⟩ := ((calms mode depth).node htamePart m hm).of_ok hpart
    obtain ⟨htask', γ, c, k, heval, hk, hsame⟩ := next_tame hn hfirst hpart hnext
    refine ⟨⟨hm', htask'⟩, hstable, ?_⟩
    have hv' : Visit.Tame ⟨depth, p, task, m'⟩ := ⟨hm', htask'⟩
    have htidy := (tidy_outcome mode hv').1
    simp only [outcome, ← hsame] at htidy ⊢
    simp only [perform, machineAfter_then_pure, heval]
    exact stable_rest bare hk htidy
  | @call depth p callee paren ns value values m m₁ m₂ hcallee hvalues harity =>
    obtain ⟨bare, hn⟩ := htask
    obtain ⟨hm₁, hstable₁⟩ := ((calms mode depth).node hn.1 m hm).of_ok hcallee
    obtain ⟨hm₂, hstable₂⟩ := ((calms mode depth).each hn.2 m₁ hm₁).of_ok hvalues
    refine ⟨⟨hm₂, trivial⟩, hstable₁.trans hstable₂, ?_⟩
    simp only [outcome, perform, machineAfter_then_pure, eval_call hcallee hvalues harity]
    exact .refl _
  | @block depth p ns m =>
    obtain ⟨bare, hn⟩ := htask
    have hnest : (m.nest ⟨.empty, some m.environment⟩).Tidy := Machine.tidy_nest hm.store rfl
    refine ⟨⟨hnest, bare, hn⟩, Store.stable_newEnvironment _ _, ?_⟩
    simp only [outcome, perform, eval_block, machineAfter_then_pure, machineAfter_within]
    exact .refl _
  | @initializer depth p name value m =>
    obtain ⟨bare, hn⟩ := htask
    refine ⟨⟨hm, bare, hn.2⟩, .refl _, ?_⟩
    simp only [outcome, perform, machineAfter_then_pure]
    exact stable_rest bare (fun v => (calm_define hn.1 v).bind fun _ => calm_pure Value.nil)
      ((calms mode depth).node hn.2 m hm).tidy
  | @loop depth p condition body m =>
    obtain ⟨bare, hn⟩ := htask
    refine ⟨⟨hm, bare, hn⟩, .refl _, ?_⟩
    simp only [outcome, perform, machineAfter_then_pure]
    exact stable_rest bare (fun _ => calm_pure Value.nil)
      ((calms mode depth).turns hn.1 hn.2 mode.turns m hm).tidy
  | @condition depth p condition body count m =>
    obtain ⟨bare, hcondition, hbody⟩ := htask
    refine ⟨⟨hm, bare, hcondition⟩, .refl _, ?_⟩
    simp only [outcome, perform, machineAfter_then_pure]
    refine stable_rest bare (fun v => ?_) ((calms mode depth).node hcondition m hm).tidy
    split
    · exact ((calms mode depth).node hbody).bind fun _ =>
        (calms mode depth).turns hcondition hbody count
    · exact calm_pure ()
  | @body depth p condition body count value m m₁ hcondition htruthy =>
    obtain ⟨bare, htame, hbody⟩ := htask
    obtain ⟨hm₁, hstable⟩ := ((calms mode depth).node htame m hm).of_ok hcondition
    refine ⟨⟨hm₁, bare, hbody⟩, hstable, ?_⟩
    simp only [outcome, perform, machineAfter_then_pure, repeatWhile_condition hcondition, htruthy,
      if_true]
    exact stable_rest bare (fun _ => (calms mode depth).turns htame hbody count)
      ((calms mode depth).node hbody m₁ hm₁).tidy
  | @again depth p condition body count value value' m m₁ m₂ hcondition htruthy hbody =>
    obtain ⟨bare, htame, htameBody⟩ := htask
    obtain ⟨hm₁, hstable₁⟩ := ((calms mode depth).node htame m hm).of_ok hcondition
    obtain ⟨hm₂, hstable₂⟩ := ((calms mode depth).node htameBody m₁ hm₁).of_ok hbody
    refine ⟨⟨hm₂, bare, htame, htameBody⟩, hstable₁.trans hstable₂, ?_⟩
    simp only [outcome, perform, repeatWhile_condition hcondition, htruthy, if_true,
      bind_ok hbody]
    exact .refl _
  | @statement depth p n rest m =>
    obtain ⟨bare, hn, hrest⟩ := htask
    refine ⟨⟨hm, bare, hn⟩, .refl _, ?_⟩
    simp only [outcome, perform, machineAfter_then_pure]
    exact stable_rest bare (fun _ => (calms mode depth).statements hrest)
      ((calms mode depth).node hn m hm).tidy
  | @later depth p n rest value m m₁ hrun =>
    obtain ⟨bare, hn, hrest⟩ := htask
    obtain ⟨hm₁, hstable⟩ := ((calms mode depth).node hn m hm).of_ok hrun
    refine ⟨⟨hm₁, bare, hrest⟩, hstable, ?_⟩
    simp only [outcome, perform, inOrder, bind_ok hrun]
    exact .refl _
  | @argument depth p n rest m =>
    obtain ⟨bare, hn, hrest⟩ := htask
    refine ⟨⟨hm, bare, hn⟩, .refl _, ?_⟩
    simp only [outcome, perform, machineAfter_then_pure, List.mapM_cons]
    exact stable_rest bare (fun _ => ((calms mode depth).each hrest).bind fun _ => calm_pure _)
      ((calms mode depth).node hn m hm).tidy
  | @arguments depth p n rest value m m₁ hrun =>
    obtain ⟨bare, hn, hrest⟩ := htask
    obtain ⟨hm₁, hstable⟩ := ((calms mode depth).node hn m hm).of_ok hrun
    refine ⟨⟨hm₁, bare, hrest⟩, hstable, ?_⟩
    simp only [outcome, perform, machineAfter_then_pure, mapM_cons_ok hrun]
    exact stable_rest bare (fun _ => calm_pure _) ((calms mode depth).each hrest m₁ hm₁).tidy
  | @function depth p id f params values m hclosure hparams hpresent =>
    obtain ⟨params', hparams', hnames, hbody⟩ := (hm.store.closures id f hclosure).parameters
    obtain rfl := Except.ok.inj (hparams'.symm.trans hparams)
    obtain ⟨hnest, hrun⟩ := (calms mode depth).body hnames hbody values hm
    refine ⟨⟨hnest, f.isInitializer, hbody⟩, Store.stable_newEnvironment _ _, ?_⟩
    simp only [outcome, perform, machineAfter_then_pure,
      call_function mode depth hclosure hparams hpresent]
    refine Store.Stable.trans ?_ (stable_rest true (fun result => ?_) hrun.tidy)
    · rw [machineAfter_catchReturn, machineAfter_within, machineAfter_then_pure]
      exact .refl _
    · split
      · exact calm_readReceiver f.environment
      · exact calm_pure result
  | @construct depth p cls f values m hmethod =>
    obtain ⟨hstable, htidy⟩ := Machine.tidy_instantiate hm cls (hm.store.method? hmethod)
    refine ⟨⟨htidy, trivial⟩, hstable, ?_⟩
    simp only [outcome, perform, machineAfter_then_pure, call_class hmethod]
    exact .refl _

/-- So is all that execution comes to. -/
theorem Comes.tame {v v' : Visit} (h : Comes mode v v') (hv : v.Tame) : Amid mode v v' := by
  induction h with
  | refl => exact .refl hv
  | tail _ h ih => exact ih.trans (h.tame ih.tame)

end Eval

/-! ## Sessions -/

namespace Session

open Eval (Comes machineAfter outcome)

variable {s : Session} {source : String} {nodes : List Node}

/-- Execution came to the visit in one of the runs that the session has behind it. -/
inductive Visited : Session → Mode → Visit → Prop
  | run {s : Session} {source : String} {nodes : List Node} {v : Visit} : s.Reachable →
    s.executed? source = some nodes → Comes (s.mode true) (s.firstVisit nodes) v →
    Visited (s.run source).1 (s.mode true) v
  | wait {s : Session} {mode : Mode} {v : Visit} (now : Clock) :
    Visited s mode v → Visited { s with machine := { s.machine with now } } mode v
  | step {s : Session} {mode : Mode} {v : Visit} {step : Step} :
    (∀ source, step ≠ .runUnresolved source) → Visited s mode v → Visited (s.perform step).1 mode v

/-- A machine that the session had at some time: between steps, or as a visit of a run began or
ended. -/
inductive Moment : Session → Machine → Prop
  | now {s : Session} : s.Reachable → Moment s s.machine
  | wait {s : Session} {m : Machine} (now : Clock) :
    Moment s m → Moment { s with machine := { s.machine with now } } m
  | step {s : Session} {m : Machine} {step : Step} :
    (∀ source, step ≠ .runUnresolved source) → Moment s m → Moment (s.perform step).1 m
  | begins {s : Session} {mode : Mode} {v : Visit} : Visited s mode v → Moment s v.machine
  | ends {s : Session} {mode : Mode} {v : Visit} : Visited s mode v → Moment s (outcome mode v)

/-- The statements that a run executes are tame, and the run leaves the machine as they do. -/
theorem executed_tame (hm : s.machine.Tidy) (h : s.executed? source = some nodes) :
    (s.firstVisit nodes).Tame ∧
      (s.run source).1.machine = outcome (s.mode true) (s.firstVisit nodes) := by
  rcases run_cases s source with ⟨reports, hrefuses⟩ | ⟨nodes', hexecuted, hnodes, hrun⟩
  · rw [hrefuses.executed] at h
    cases h
  · rw [hexecuted] at h
    cases h
    refine ⟨⟨hm, _, hnodes.tame⟩, ?_⟩
    rw [hrun, interpret, machine_conclude]
    rfl

theorem tidy_run (hm : s.machine.Tidy) (source : String) :
    (s.run source).1.machine.Tidy ∧ s.machine.store.Stable (s.run source).1.machine.store := by
  rcases run_cases s source with ⟨reports, hrefuses⟩ | ⟨nodes, hexecuted, -, -⟩
  · rw [hrefuses.session]
    exact ⟨hm, .refl _⟩
  · obtain ⟨htame, hmachine⟩ := executed_tame hm hexecuted
    rw [hmachine]
    exact Eval.tidy_outcome _ htame

/-- Nothing but a run changes the store of a session. -/
theorem store_perform (s : Session) {step : Step}
    (hstep : ∀ source, step ≠ .runUnresolved source) :
    (s.perform step).1.machine.store = s.machine.store ∨
      ∃ source, (s.perform step).1.machine = (s.run source).1.machine := by
  have hparse : ∀ source, (s.parse source).1.machine.store = s.machine.store := by
    intro source
    obtain ⟨reports, -, hsession, -⟩ := parse_spec s source
    rw [hsession]
    rfl
  cases step with
  | run source => exact .inr ⟨source, rfl⟩
  | parse source =>
    have hparsed := hparse source
    left
    simp only [perform]
    split <;> rename_i h <;> rwa [h] at hparsed
  | printTree source =>
    have hparsed := hparse source
    left
    show (s.printTree source).1.machine.store = _
    unfold printTree
    split <;> rename_i h <;> rw [h] at hparsed
    · exact hparsed
    · split <;> exact hparsed
  | runUnresolved source => exact absurd rfl (hstep source)
  | runScript bytes =>
    show (s.withText bytes run).1.machine.store = _ ∨
      ∃ source, (s.withText bytes run).1.machine = _
    unfold withText
    split
    · exact .inl rfl
    · exact .inr ⟨_, rfl⟩
  | reset => exact .inl rfl

theorem tidy_perform (hm : s.machine.Tidy) {step : Step}
    (hstep : ∀ source, step ≠ .runUnresolved source) :
    (s.perform step).1.machine.Tidy ∧
      s.machine.store.Stable (s.perform step).1.machine.store := by
  rcases store_perform s hstep with hsame | ⟨source, hrun⟩
  · refine ⟨⟨?_, ?_, ?_⟩, ?_⟩ <;> rw [hsame]
    · exact hm.store
    · rw [environment_perform]
      exact hm.environment
    · rw [environment_perform]
      exact hm.free
    · exact .refl _
  · rw [hrun]
    exact tidy_run hm source

theorem Reachable.tidy (h : s.Reachable) : s.machine.Tidy := by
  induction h with
  | start limits => exact ⟨Store.tidy_initial, Nat.zero_lt_one, rfl⟩
  | wait now _ ih => exact ⟨ih.store, ih.environment, ih.free⟩
  | step hstep _ ih => exact (tidy_perform ih hstep).1

theorem reachable_run (h : s.Reachable) (source : String) : (s.run source).1.Reachable := by
  have hstep : ∀ other, Step.run source ≠ .runUnresolved other := by simp
  exact .step hstep h

/-- A visit of the past was tame, and its store has gone on to that of the session. -/
theorem Visited.tame {mode : Mode} {v : Visit} (h : s.Visited mode v) :
    s.Reachable ∧ v.Tame ∧ (outcome mode v).store.Stable s.machine.store := by
  induction h with
  | run hs hexecuted hcomes =>
    obtain ⟨htame, hmachine⟩ := executed_tame hs.tidy hexecuted
    have hamid := hcomes.tame htame
    refine ⟨reachable_run hs _, hamid.tame, ?_⟩
    rw [hmachine]
    exact hamid.ends
  | wait now _ ih => exact ⟨.wait now ih.1, ih.2⟩
  | step hstep _ ih =>
    exact ⟨.step hstep ih.1, ih.2.1, ih.2.2.trans (tidy_perform ih.1.tidy hstep).2⟩

theorem Visited.ready {mode : Mode} {v : Visit} (h : s.Visited mode v) :
    mode.byDistance = true ∧ v.Ready := by
  induction h with
  | run hs hexecuted hcomes => exact ⟨rfl, hs.settled.ready_of_comes hexecuted hcomes⟩
  | wait _ _ ih => exact ih
  | step _ _ ih => exact ih

/-- The store of a moment is tidy, and the session still has all that was in it. -/
theorem Moment.stable {m : Machine} (h : s.Moment m) :
    s.Reachable ∧ m.store.Tidy ∧ m.store.Stable s.machine.store := by
  induction h with
  | now hs => exact ⟨hs, hs.tidy.store, .refl _⟩
  | wait now _ ih => exact ⟨.wait now ih.1, ih.2⟩
  | step hstep _ ih =>
    exact ⟨.step hstep ih.1, ih.2.1, ih.2.2.trans (tidy_perform ih.1.tidy hstep).2⟩
  | begins hv =>
    obtain ⟨hs, htame, hstable⟩ := hv.tame
    exact ⟨hs, htame.machine.store, (Eval.tidy_outcome _ htame).2.trans hstable⟩
  | ends hv =>
    obtain ⟨hs, htame, hstable⟩ := hv.tame
    exact ⟨hs, (Eval.tidy_outcome _ htame).1.store, hstable⟩

/-- An environment with a receiver holds it and nothing else at every moment at which it exists. -/
theorem Moment.receiver {m m' : Machine} {env : Nat} {this : Value} (h : s.Moment m)
    (hthis : (m.store.environment env).bindings.get? "this" = some this) (h' : s.Moment m')
    (henv : env < m'.store.environments.size) :
    ∃ inst, this = .inst inst ∧ m'.store.HoldsOnly env (.inst inst) := by
  obtain ⟨hs, -, hstable⟩ := h.stable
  obtain ⟨-, htidy', hstable'⟩ := h'.stable
  have hnow := (hstable.this env (Store.lt_of_get? hthis)).trans hthis
  obtain ⟨inst, cls, hreceives⟩ := hs.settled.sound.framed.receivers env this hnow
  obtain rfl := Option.some.inj (hnow.symm.trans hreceives.receiver)
  exact ⟨inst, rfl, htidy'.receivers env _ ((hstable'.this env henv).symm.trans hnow)⟩

end Session

end Lox
