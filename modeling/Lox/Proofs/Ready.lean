import Mathlib.Tactic
import Lox.Proofs.Execution

/-!
# Every visit of a scoped program is ready

A visit is ready when its machine runs at a site whose place is that of the visit, and its task
can be run there. What is entered from a ready visit is ready again (`Enters.goesOn`), so that all
that execution comes to is.

At a ready visit each lookup by distance finds its name (`Ready.finds`), and to store the value of
an assignment inside the initializer of the same variable is a fault (`Ready.faults`). Since there
is no other fault, a fault is such a store and such a store is a fault (`Ready.faults_iff`).
-/

namespace Lox

/-- The task can be run at the site. -/
def Task.FitAt (site : Site) (s : Store) : Task → Prop
  | .node n => Eval.Fit site n
  | .each ns => Node.ScopedEach site ns
  | .statements ns => Node.ScopedAll site ns ∧ site.initializing = none
  | .turns condition body _ =>
    (condition.declared? = none ∧ condition.Scoped site) ∧ body.declared? = none ∧
      body.Scoped site
  | .call v values =>
    s.Holds v ∧ (∀ a ∈ values, s.Holds a) ∧ s.arity? v = .ok (some values.length)

namespace Visit

/-- The machine of the visit runs where its task can be run. -/
def Ready (v : Visit) : Prop :=
  ∃ site : Site, site.place = v.place ∧ v.machine.Running site ∧
    v.task.FitAt site v.machine.store

/-- The environment that execution goes on in or inside of. It is that of the function if one is
called. -/
def home (v : Visit) : Nat :=
  match v.task with
  | .call (.function id) _ =>
    ((v.machine.store.closure? id).map (·.environment)).getD v.machine.environment
  | _ => v.machine.environment

/-- Execution goes on from the one visit to the other, which is ready and has all that was in the
store. -/
structure GoesOn (v v' : Visit) : Prop where
  ready : v'.Ready
  stable : v.machine.store.Stable v'.machine.store
  environment : v'.machine.environment = v.home ∨
    (v'.machine.store.environment v'.machine.environment).enclosing = some v.home

/-- The environment so many links out has a value of the name. -/
def FindsAt (v : Visit) (hops : Nat) (name : String) (value : Value) : Prop :=
  ∃ found, v.machine.store.environmentAt hops v.machine.environment = .ok found ∧
    (v.machine.store.environment found).bindings.get? name = some value

/-- A lookup by distance that the visit begins with finds its name, `super` being a class. -/
def Finds (v : Visit) : Prop :=
  match v.task with
  | .node (.ident r) => ∀ hops, r.hops = some hops → ∃ value, v.FindsAt hops r.name.lexeme value
  | .node (.receiver r) => ∃ hops value, r.hops = some hops ∧ v.FindsAt hops "this" value
  | .node (.superMethod r _) => ∃ hops cls value, r.hops = some (hops + 1) ∧
      v.FindsAt (hops + 1) "super" (.cls cls) ∧ v.FindsAt hops "this" value
  | _ => True

end Visit

namespace Eval

open Machine (Leads Running)

variable {mode : Mode} {m m' : Machine} {site : Site}

/-! ## Parts of nodes -/

/-- The first part of a node stands where the node does. -/
theorem first_scoped {n part : Node} (hn : n.Scoped site) (h : n.first? = some part) :
    part.declared? = none ∧ part.Scoped site := by
  unfold Node.first? at h
  split at h <;> cases h
  case h_1 => exact hn.2.2
  case h_2 => exact hn.2
  case h_3 => exact hn.2.1
  case h_4 => exact hn.2.1
  case h_5 => exact hn.2.1
  case h_6 => exact hn.2
  case h_7 => exact hn.2.1
  case h_8 => exact hn
  case h_9 => exact hn
  case h_10 => exact hn
  case h_11 => exact hn.1
  case h_12 => exact hn.2.2
  case h_13 => exact ⟨hn.2.1.1, hn.2.1.2.2⟩

/-- What comes after the first part stands there too. -/
theorem next_fitAt {n : Node} {value : Value} {task : Task} (hn : n.Scoped site)
    (h : n.next? value = some task) (s : Store) : task.FitAt site s := by
  unfold Node.next? at h
  split at h
  · cases h
    exact ⟨hn.2.2.2, .inl hn.2.2.1⟩
  · split at h <;> cases h
    exact ⟨hn.2.2.2, .inl hn.2.2.1⟩
  · cases h
    exact hn.2.2
  · cases h
    exact ⟨hn.2.2.2, .inl hn.2.2.1⟩
  · rename_i thenBranch elseBranch value
    split at h
    · cases h
      exact ⟨hn.2.1.2, .inl hn.2.1.1⟩
    · obtain ⟨branch, rfl, rfl⟩ := Option.map_eq_some_iff.1 h
      exact ⟨hn.2.2.2, .inl hn.2.2.1⟩
  · cases h

/-! ## Readiness is kept -/

section

variable (hmode : mode.byDistance = true)

include hmode

/-- A part that gave its value left the machine running where it was. -/
theorem part_ok {n : Node} {depth : Nat} {value : Value}
    (hn : n.declared? = none ∧ n.Scoped site) (h : m.Running site)
    (hrun : eval mode depth n m = .ok value m') : m.Leads m' Store.nothing ∧ m'.store.Holds value :=
  (((executes hmode depth).part hn h).of_ok hrun).2

/-- What is entered is ready again, and its store has all that was in the store before. -/
theorem Enters.goesOn {v v' : Visit} (h : Enters mode v v') (hv : v.Ready) : v.GoesOn v' := by
  obtain ⟨site, hplace, hrunning, hfit⟩ := hv
  cases h with
  | first hfirst =>
    have hpart := first_scoped hfit.1 hfirst
    exact ⟨⟨site, hplace, hrunning, hpart.2, .inl hpart.1⟩, .refl _, .inl rfl⟩
  | next hfirst hpart hnext =>
    have hleads := (part_ok hmode (first_scoped hfit.1 hfirst) hrunning hpart).1
    exact ⟨⟨site, hplace, hrunning.leads hleads, next_fitAt hfit.1 hnext _⟩,
      hleads.grows.toStable, .inl hleads.environment⟩
  | call hcallee harguments harity =>
    obtain ⟨-, hscoped, heach⟩ := hfit.1
    obtain ⟨hleads₁, hholds⟩ := part_ok hmode hscoped hrunning hcallee
    have hvalues := (((executes hmode _).each heach (hrunning.leads hleads₁)).of_ok harguments).2
    exact ⟨⟨site, hplace, (hrunning.leads hleads₁).leads hvalues.1, hholds.grows hvalues.1.grows,
      hvalues.2, harity⟩, (hleads₁.then hvalues.1).grows.toStable,
      .inl (hleads₁.then hvalues.1).environment⟩
  | block =>
    exact ⟨⟨site.inside [], rfl, hrunning.block, hfit.1, rfl⟩, Store.stable_newEnvironment _ _,
      .inr (Machine.enclosing_nest _ _)⟩
  | @initializer depth p name value m =>
    obtain ⟨⟨-, hfree⟩, hscoped⟩ := hfit.1
    refine ⟨⟨site.initializer name.lexeme, ?_, hrunning.initializer hfree, hscoped.2,
      .inl hscoped.1⟩, .refl _, .inl rfl⟩
    rw [Site.place_initializer, hplace]
  | loop => exact ⟨⟨site, hplace, hrunning, hfit.1⟩, .refl _, .inl rfl⟩
  | condition => exact ⟨⟨site, hplace, hrunning, hfit.1.2, .inl hfit.1.1⟩, .refl _, .inl rfl⟩
  | body hcondition _ =>
    have hleads := (part_ok hmode hfit.1 hrunning hcondition).1
    exact ⟨⟨site, hplace, hrunning.leads hleads, hfit.2.2, .inl hfit.2.1⟩, hleads.grows.toStable,
      .inl hleads.environment⟩
  | again hcondition _ hbody =>
    have hleads := (part_ok hmode hfit.1 hrunning hcondition).1
    have hrunning₁ := hrunning.leads hleads
    have hleads₁ := (part_ok hmode hfit.2 hrunning₁ hbody).1
    exact ⟨⟨site, hplace, hrunning₁.leads hleads₁, hfit⟩, (hleads.then hleads₁).grows.toStable,
      .inl (hleads.then hleads₁).environment⟩
  | statement => exact ⟨⟨site, hplace, hrunning, hfit.1.1, .inr hfit.2⟩, .refl _, .inl rfl⟩
  | @later depth p n rest value m m₁ hn =>
    obtain ⟨⟨hscoped, hrest⟩, hsite⟩ := hfit
    have hleads := (((executes hmode depth).node ⟨hscoped, .inr hsite⟩ hrunning).of_ok hn).2.1
    obtain ⟨-, -, hinit, -, -⟩ := Site.after_context site n
    exact ⟨⟨site.after n, (Site.place_after site n).trans hplace, hrunning.after hsite hleads,
      hrest, hinit.trans hsite⟩, hleads.grows.toStable, .inl hleads.environment⟩
  | argument => exact ⟨⟨site, hplace, hrunning, hfit.1.2, .inl hfit.1.1⟩, .refl _, .inl rfl⟩
  | arguments hn =>
    have hleads := (part_ok hmode hfit.1 hrunning hn).1
    exact ⟨⟨site, hplace, hrunning.leads hleads, hfit.2⟩, hleads.grows.toStable,
      .inl hleads.environment⟩
  | function hclosure hparams _ =>
    obtain ⟨⟨f, hf, hcallable⟩, hvalues, harity⟩ := hfit
    obtain rfl := Option.some.inj (hclosure.symm.trans hf)
    obtain ⟨params, inner, hat, -⟩ := Machine.bodyAt_of_callable hrunning.sound hcallable hvalues
      (arity_of_closure? hf harity)
    obtain rfl := Except.ok.inj (hparams.symm.trans hat.parameters)
    refine ⟨⟨inner, hat.place_eq, hat.running, hat.body, hat.ready⟩,
      Store.stable_newEnvironment _ _, .inr ((Machine.enclosing_nest _ _).trans ?_)⟩
    simp only [Visit.home, hf, Option.map_some, Option.getD_some]
  | construct hinit =>
    obtain ⟨-, hvalues, harity⟩ := hfit
    obtain ⟨hleads, hholds, -, hexact⟩ := Machine.instantiate_spec hrunning.sound hinit harity
    exact ⟨⟨site, hplace, hrunning.leads hleads, hholds,
      fun a ha => (hvalues a ha).grows hleads.grows, hexact⟩, hleads.grows.toStable, .inl rfl⟩

theorem Comes.goesOn {v v' : Visit} (h : Comes mode v v') (hv : v.Ready) :
    v'.Ready ∧ v.machine.store.Stable v'.machine.store := by
  induction h with
  | refl => exact ⟨hv, .refl _⟩
  | tail _ h ih =>
    have hgoesOn := h.goesOn hmode ih.1
    exact ⟨hgoesOn.ready, ih.2.trans hgoesOn.stable⟩

theorem Comes.ready {v v' : Visit} (h : Comes mode v v') (hv : v.Ready) : v'.Ready :=
  (h.goesOn hmode hv).1

end

/-! ## What happens at a ready visit -/

theorem Ready.finds {v : Visit} (hv : v.Ready) : v.Finds := by
  obtain ⟨depth, place, task, m⟩ := v
  obtain ⟨site, -, hrunning, hfit⟩ := hv
  have hfinds : ∀ {hops name}, Site.Binds site.scopes hops name →
      ∃ value, Visit.FindsAt ⟨depth, place, task, m⟩ hops name value := by
    intro hops name hbinds
    obtain ⟨found, value, hfound, -, hbinding⟩ := hrunning.covers.getAt hbinds
    exact ⟨value, found, hfound, hbinding⟩
  unfold Visit.Finds
  split <;> rename_i htask <;> try exact trivial
  · obtain rfl : task = _ := htask
    intro hops hhops
    exact hfinds (Site.binds_of_hopsTo? (hfit.1.2.2.symm.trans hhops))
  · obtain rfl : task = _ := htask
    obtain ⟨-, -, hops, hhops, hbinds⟩ := hfit.1
    obtain ⟨value, hvalue⟩ := hfinds (Site.binds_of_hopsTo? hbinds)
    exact ⟨hops, value, hhops, hvalue⟩
  · obtain rfl : task = _ := htask
    obtain ⟨-, -, hops, hhops, hsuper, hthis⟩ := hfit.1
    obtain ⟨parent, found, hfound, hparent⟩ := hfinds hsuper
    obtain ⟨value, hvalue⟩ := hfinds (Site.binds_of_hopsTo? hthis)
    obtain ⟨cls, rfl⟩ := hrunning.sound.super found parent hparent
    exact ⟨hops, cls, value, hhops, ⟨found, hfound, hparent⟩, hvalue⟩

variable (hmode : mode.byDistance = true)

include hmode

/-- There is no binding yet in which the value could be stored. -/
theorem Ready.faults {v : Visit} {x : String} (hv : v.Ready) (h : StoresOwn mode x v) :
    Faults mode v (.unbound x) := by
  obtain ⟨depth, place, task, m⟩ := v
  obtain ⟨depth, target, value, result, m', rfl, rfl, rfl, hown, hrun⟩ := h
  obtain ⟨site, rfl, hrunning, hfit⟩ := hv
  obtain ⟨hname, hassigns, hvalue⟩ := hfit.1
  have hrunning' := hrunning.leads (part_ok hmode hvalue hrunning hrun).1
  have hassign := assign_own (v := result) hmode hrunning' hname.present hassigns hown
  exact ⟨m', bind_error ((bind_ok hrun).trans (bind_error hassign))⟩

/-- A fault is that execution comes to store in a variable inside its own initializer. -/
theorem Ready.faults_iff {v : Visit} {x : String} (hv : v.Ready)
    (horigin : ∀ f, Faults mode v f → Origin mode v f) :
    Faults mode v (.unbound x) ↔ ∃ w, Comes mode v w ∧ StoresOwn mode x w := by
  constructor
  · intro hfaults
    obtain ⟨y, w, hy, hcomes, hown⟩ := horigin _ hfaults
    cases hy
    exact ⟨w, hcomes, hown⟩
  · rintro ⟨w, hcomes, hown⟩
    exact hcomes.faults (Ready.faults hmode (hcomes.ready hmode hv) hown)

end Eval

end Lox
