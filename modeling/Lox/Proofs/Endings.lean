import Mathlib.Tactic
import Lox.Proofs.Phases
import Lox.Proofs.Ready
import Lox.Session.Step

/-!
# How runs end

In a session that has only ever run what it resolved, a run ends in one of the ways of `Ending`:
the source is refused, or its statements come to their end, to one runtime error, or to the one
fault that is left to a resolved program. Limits aside, nothing else ends a run, and every lookup
on the way finds its name at the distance it was resolved to (`run_ends`).

The machine stands in the global environment between runs, with a store in which every function
is closed over the scopes of its body. Both stay so whatever a run ends in, so that closures of a
failed run can be called by a later one.
-/

namespace Lox

namespace Reporter

/-- The flag for rejected sources is up when one of the reports is static. -/
def Flagged (r : Reporter) : Prop :=
  r.hadError = true → ∃ report ∈ r.reports, report.isStatic = true

theorem Flagged.add {r : Reporter} (h : r.Flagged) (report : Report) : (r.add report).Flagged := by
  intro hflag
  simp only [Reporter.add, Bool.or_eq_true] at hflag
  rcases hflag with hflag | hstatic
  · obtain ⟨earlier, hmem, hstatic⟩ := h hflag
    exact ⟨earlier, by simp [Reporter.add, hmem], hstatic⟩
  · exact ⟨report, by simp [Reporter.add], hstatic⟩

theorem Flagged.addAll {r : Reporter} (h : r.Flagged) (reports : List Report) :
    (r.addAll reports).Flagged := by
  induction reports generalizing r with
  | nil => exact h
  | cons report rest ih => exact ih (h.add report)

end Reporter

namespace Session

open Eval (Comes Faults Origin StoresOwn)

/-- A session after any steps but the one that runs what was not resolved. Time passes between
them. -/
inductive Reachable : Session → Prop
  | start (limits : Limits) : Reachable { limits }
  | wait {s : Session} (now : Clock) :
    Reachable s → Reachable { s with machine := { s.machine with now } }
  | step {s : Session} {step : Step} :
    (∀ source, step ≠ .runUnresolved source) → Reachable s → Reachable (s.perform step).1

/-- What holds of a session between its steps. -/
structure Settled (s : Session) : Prop where
  sound : s.machine.store.Sound
  environment : s.machine.environment = Store.globals
  flagged : s.reporter.Flagged

/-- Where execution begins with some statements. -/
def firstVisit (s : Session) (nodes : List Node) : Visit :=
  ⟨s.limits.depth, {}, .statements nodes, s.machine⟩

/-- How a run of the source can end, with what session and what crash. -/
inductive Ending (s : Session) (source : String) : Session × Option Crash → Prop
  /-- There are static reports, and nothing was executed. -/
  | refused {reports : List Report} : s.executed? source = none → Report.AllStatic reports →
    (∃ r ∈ (s.report reports).reporter.reports, r.isStatic = true) →
    Ending s source (s.report reports, none)
  /-- A limit was reached before anything was executed. -/
  | tooDeep {reports : List Report} : s.executed? source = none → Report.AllStatic reports →
    Ending s source (s.report reports, some .overflow)
  | completed {nodes : List Node} {machine : Machine} : s.executed? source = some nodes →
    Ending s source ({ s with machine }, none)
  /-- There is one report more, of a runtime error. -/
  | failed {nodes : List Node} {machine : Machine} {e : RuntimeError} :
    s.executed? source = some nodes →
    Ending s source ({ s with machine }.report [.runtime e.message e.token.line], none)
  /-- A variable was not bound when a value was to be stored in it. -/
  | unbound {nodes : List Node} {machine : Machine} {x : String} :
    s.executed? source = some nodes →
    Ending s source ({ s with machine }, some (.fault (.unbound x)))
  /-- A limit was reached in execution. -/
  | exhausted {nodes : List Node} {machine : Machine} : s.executed? source = some nodes →
    Ending s source ({ s with machine }, some .overflow)

variable {s : Session} {source : String} {nodes : List Node}

/-! ## Execution at the top level -/

/-- The machine between steps runs at the top level. -/
theorem Settled.running (h : s.Settled) : s.machine.Running {} := by
  refine ⟨h.sound, h.environment, nofun, nofun, ?_⟩
  rw [h.environment]
  exact h.sound.framed.globals

theorem Settled.ready (h : s.Settled) (hnodes : Node.ScopedAll {} nodes) :
    (s.firstVisit nodes).Ready := ⟨{}, rfl, h.running, hnodes, rfl⟩

/-- Scoped statements at the top level keep the machine in order and return nothing. -/
theorem Settled.keeps (h : s.Settled) (hnodes : Node.ScopedAll {} nodes) :
    Eval.Keeps (Eval.inOrder (Eval.eval (s.mode true) s.limits.depth) nodes) s.machine False
      (Origin (s.mode true) (s.firstVisit nodes)) fun _ _ => True := by
  have hmode : (s.mode true).byDistance = true := rfl
  have hkeeps := (Eval.executes hmode s.limits.depth).statements hnodes rfl h.running
  unfold Eval.Keeps at hkeeps ⊢
  split at hkeeps
  · exact hkeeps
  · refine ⟨hkeeps.1, ?_⟩
    rename_i signal _ _
    cases signal with
    | returning v => exact absurd rfl hkeeps.2.1
    | _ => exact hkeeps.2

theorem Settled.interpret (h : s.Settled) (hnodes : Node.ScopedAll {} nodes) :
    (s.interpret true nodes).1.Settled := by
  have hkeeps := h.keeps hnodes
  unfold Eval.Keeps at hkeeps
  unfold Session.interpret
  split at hkeeps <;> rename_i hresult <;> rw [hresult] <;>
    obtain ⟨⟨added, hleads⟩, hending⟩ := hkeeps
  · exact ⟨hleads.sound, hleads.environment.trans h.environment, h.flagged⟩
  · rename_i signal m'
    have hrest : ({ s with machine := m' } : Session).Settled :=
      ⟨hleads.sound, hleads.environment.trans h.environment, h.flagged⟩
    cases signal with
    | error e => exact ⟨hrest.sound, hrest.environment, h.flagged.addAll _⟩
    | _ => exact hrest

/-! ## Steps -/

theorem Settled.report (h : s.Settled) (reports : List Report) : (s.report reports).Settled :=
  ⟨h.sound, h.environment, h.flagged.addAll reports⟩

theorem Settled.run (h : s.Settled) (source : String) : (s.run source).1.Settled := by
  rcases run_cases s source with ⟨reports, hrefuses⟩ | ⟨nodes, -, hnodes, hrun⟩
  · rw [hrefuses.session]
    exact h.report reports
  · rw [hrun]
    exact h.interpret hnodes

theorem Settled.parse (h : s.Settled) (source : String) : (s.parse source).1.Settled := by
  obtain ⟨reports, -, hsession, -⟩ := parse_spec s source
  rw [hsession]
  exact h.report reports

theorem Settled.printTree (h : s.Settled) (source : String) : (s.printTree source).1.Settled := by
  have hparsed := h.parse source
  unfold Session.printTree
  split <;> rename_i hparse <;> rw [hparse] at hparsed
  · exact hparsed
  · split
    · exact hparsed
    · exact ⟨hparsed.sound, hparsed.environment, hparsed.flagged⟩

theorem Settled.perform (h : s.Settled) {step : Step}
    (hstep : ∀ source, step ≠ .runUnresolved source) : (s.perform step).1.Settled := by
  cases step with
  | run source => exact h.run source
  | parse source =>
    have hparsed := h.parse source
    simp only [Session.perform]
    split <;> rename_i hparse <;> rw [hparse] at hparsed <;> exact hparsed
  | printTree source => exact h.printTree source
  | runUnresolved source => exact absurd rfl (hstep source)
  | runScript bytes =>
    show (s.withText bytes Session.run).1.Settled
    unfold withText
    split
    · exact h
    · exact h.run _
  | reset => exact ⟨h.sound, h.environment, nofun⟩

theorem Reachable.settled (h : s.Reachable) : s.Settled := by
  induction h with
  | start limits => exact ⟨Store.sound_initial, rfl, nofun⟩
  | wait now _ ih => exact ⟨ih.sound, ih.environment, ih.flagged⟩
  | step hstep _ ih => exact ih.perform hstep

/-! ## Runs -/

theorem Settled.ending (h : s.Settled) (source : String) : Ending s source (s.run source) := by
  rcases run_cases s source with ⟨reports, hrefuses⟩ | ⟨nodes, hexecuted, hnodes, hrun⟩
  · have hpair : s.run source = (s.report reports, (s.run source).2) := by
      rw [← hrefuses.session]
    rw [hpair]
    rcases hrefuses.crash with hcrash | ⟨hcrash, hflag⟩ <;> rw [hcrash]
    · exact .tooDeep hrefuses.executed hrefuses.static
    · exact .refused hrefuses.executed hrefuses.static ((h.report reports).flagged hflag)
  · have hkeeps := h.keeps hnodes
    unfold Eval.Keeps at hkeeps
    rw [hrun]
    unfold Session.interpret
    split at hkeeps <;> rename_i hresult <;> rw [hresult]
    · exact .completed hexecuted
    · rename_i signal m'
      cases signal with
      | returning v => exact hkeeps.2.1.elim
      | error e => exact .failed hexecuted
      | fault f =>
        obtain ⟨x, -, rfl, -⟩ := hkeeps.2
        exact .unbound hexecuted
      | exhausted => exact .exhausted hexecuted

/-- A run crashes with a fault when its execution ends in it. -/
theorem interpret_fault_iff (s : Session) (nodes : List Node) (f : Fault) :
    (s.interpret true nodes).2 = some (.fault f) ↔ Faults (s.mode true) (s.firstVisit nodes) f := by
  have hperform : Eval.perform (s.mode true) (s.firstVisit nodes).depth (s.firstVisit nodes).task
      (s.firstVisit nodes).machine =
      Eval.inOrder (Eval.eval (s.mode true) s.limits.depth) nodes s.machine := rfl
  unfold Faults Session.interpret
  rw [hperform]
  rcases Eval.inOrder (Eval.eval (s.mode true) s.limits.depth) nodes s.machine with
    ⟨a, m'⟩ | ⟨signal, m'⟩
  · simp [conclude]
  · cases signal <;> simp [conclude]

/-- There is a fault just when execution comes to store in a variable inside its own
initializer. -/
theorem Settled.fault_iff (h : s.Settled) (source : String) (x : String) :
    (s.run source).2 = some (.fault (.unbound x)) ↔ ∃ nodes v, s.executed? source = some nodes ∧
      Comes (s.mode true) (s.firstVisit nodes) v ∧ StoresOwn (s.mode true) x v := by
  rcases run_cases s source with ⟨reports, hrefuses⟩ | ⟨nodes, hexecuted, hnodes, hrun⟩
  · rw [hrefuses.executed]
    rcases hrefuses.crash with hcrash | ⟨hcrash, -⟩ <;> simp [hcrash]
  · have horigin : ∀ f, Faults (s.mode true) (s.firstVisit nodes) f →
        Origin (s.mode true) (s.firstVisit nodes) f := by
      rintro f ⟨m', hfault⟩
      have hkeeps := h.keeps hnodes
      have hresult : Eval.inOrder (Eval.eval (s.mode true) s.limits.depth) nodes s.machine =
          .error (.fault f) m' := hfault
      rw [Eval.Keeps, hresult] at hkeeps
      exact hkeeps.2
    rw [hrun, interpret_fault_iff, Eval.Ready.faults_iff rfl (h.ready hnodes) horigin, hexecuted]
    simp

/-- Every way in which a run of a reachable session can end, the one fault among them, and the
lookups it makes until then. -/
theorem run_ends (h : s.Reachable) (source : String) :
    Ending s source (s.run source) ∧
      (∀ x, (s.run source).2 = some (.fault (.unbound x)) ↔
        ∃ nodes v, s.executed? source = some nodes ∧ Comes (s.mode true) (s.firstVisit nodes) v ∧
          StoresOwn (s.mode true) x v) ∧
      ∀ nodes v, s.executed? source = some nodes → Comes (s.mode true) (s.firstVisit nodes) v →
        v.Finds := by
  have hsettled := h.settled
  refine ⟨hsettled.ending source, hsettled.fault_iff source, fun nodes v hexecuted hcomes => ?_⟩
  rcases run_cases s source with ⟨reports, hrefuses⟩ | ⟨nodes', hexecuted', hnodes, -⟩
  · rw [hrefuses.executed] at hexecuted
    cases hexecuted
  · rw [hexecuted'] at hexecuted
    cases hexecuted
    exact Eval.Ready.finds (hcomes.ready rfl (hsettled.ready hnodes))

/-- A session that has run a source before. -/
theorem run_ends_second :
    Ending (({} : Session).perform (.run "var a = 1;")).1 "print a;"
      ((({} : Session).perform (.run "var a = 1;")).1.run "print a;") :=
  (run_ends (.step (fun _ => by simp) (.start {})) "print a;").1

end Session

end Lox
