import Mathlib.Tactic
import Lox.Proofs.Endings
import Lox.Proofs.Mapped
import Lox.Proofs.Simulation

/-!
# One session, two trees

A sound store whose globals are outermost is its own twin under every change that leaves the tokens
of its functions as they are (`Sound.twin`). So if two trees are alike, then to run the one or the
other in the same session makes no difference but what the change allows
(`Settled.interpret_alike`): the same is printed, the globals have the same values, and the run ends
the same way, with an error at a token that stands for the other's.
-/

namespace Lox

namespace Store

variable {c : Change} {s : Store}

/-- The token is in the code of a function. -/
def HasToken (s : Store) (t : Token) : Prop :=
  ∃ id f, s.closure? id = some f ∧ t ∈ f.declaration.tokens

theorem Covers.marked : ∀ {scopes : List (List String)} {env : Nat}, s.Covers scopes env →
    s.Marked (fun _ => false) (scopes.map fun _ => false) env
  | [], _, h => h
  | _ :: _, _, h => by
    obtain ⟨hlt, -, -, outer, houter, hrest⟩ := h
    exact ⟨hlt, rfl, outer, houter, hrest.marked⟩

/-- A closure matches itself. -/
theorem Closes.matches {missing : List (List String)} {f : Closure} (h : s.Closes missing f)
    (htokens : ∀ t ∈ f.declaration.tokens, c.Alike t t) :
    Matches c (fun _ => false) s (missing.map fun _ => false) f f := by
  obtain ⟨site, kind, name, params, body, scopes, hdeclaration, -, -, -, hcovers, hbody, -⟩ := h
  rw [hdeclaration] at htokens
  refine ⟨rfl, rfl, scopes.map fun _ => false, false, name, name, params, params, body, body,
    hcovers.marked, hdeclaration, hdeclaration, htokens _ (by simp [Node.tokens]), ?_, ?_⟩
  · have hpart : params ⊆ (Node.function name params body).tokens := by simp [Node.tokens]
    have hparams := c.params_map (f := id) (Token.forall_part htokens hpart)
    rwa [List.map_id] at hparams
  · have hmarks : ∀ b ∈ false :: (missing.map (fun _ => false) ++ scopes.map fun _ => false),
        b = false := by simp
    have hlike := Node.ScopedAll.like_map (f := id) hbody hmarks
      (Token.forall_part htokens fun t ht => by simp [Node.tokens, ht])
    rwa [Node.mapAll_id] at hlike

theorem Holds.shares {v : Value} (h : s.Holds v) (htokens : ∀ t, s.HasToken t → c.Alike t t) :
    Shares c (fun _ => false) s s v := by
  cases v with
  | function id =>
    obtain ⟨f, hf, hcallable⟩ := h
    exact ⟨f, f, hf, hf, Closes.matches hcallable fun t ht => htokens t ⟨id, f, hf, ht⟩⟩
  | _ => trivial

theorem Sound.twin (h : s.Sound) (houtermost : (s.environment Store.globals).enclosing = none)
    (htokens : ∀ t, s.HasToken t → c.Alike t t) : Twin c (fun _ => false) s s where
  size := rfl
  environments id := .self _
  functions := rfl
  classes := rfl
  instances := rfl
  natives := rfl
  globals_lt := h.globals
  globals_marked := rfl
  outermost := houtermost
  bindings env name v hv := (h.bindings env name v hv).shares htokens
  fields id i hi name v hv := (h.fields id i hi name v hv).shares htokens
  methods id cls hcls name k hk := by
    obtain ⟨f, hf, hunbound⟩ := h.methods id cls hcls name k hk
    exact ⟨f, f, hf, hf, Closes.matches hunbound fun t ht => htokens t ⟨k, f, hf, ht⟩⟩

/-- The globals of twins have the same values. -/
theorem Twin.bindings_eq {M : Nat → Bool} {s' : Store} (h : Twin c M s s') :
    s'.bindings globals = s.bindings globals := by
  have heq := (h.environments globals).bindings
  rw [h.globals_marked, Table.rename_id _ Change.rename_false] at heq
  rw [Store.bindings, heq, Store.bindings]

end Store

namespace Session

variable {c : Change} {s : Session} {ns ns' : List Node}

/-! ## The globals stay outermost -/

/-- Nothing is around the global environment. -/
def Rooted (s : Session) : Prop := (s.machine.store.environment Store.globals).enclosing = none

/-- However the statements end, the machine has grown from the one they began with. -/
theorem Settled.leads (h : s.Settled) (hnodes : Node.ScopedAll {} ns) :
    ∃ added, s.machine.Leads (s.interpret true ns).1.machine added := by
  have hkeeps := h.keeps hnodes
  unfold Eval.Keeps at hkeeps
  unfold Session.interpret
  split at hkeeps <;> rename_i hresult <;> rw [hresult]
  · exact hkeeps.1
  · rename_i signal _
    cases signal <;> exact hkeeps.1

theorem Rooted.run (hroot : s.Rooted) (h : s.Settled) (source : String) :
    (s.run source).1.Rooted := by
  rcases run_cases s source with ⟨reports, hrefuses⟩ | ⟨nodes, -, hnodes, hrun⟩
  · rw [hrefuses.session]
    exact hroot
  · obtain ⟨added, hleads⟩ := h.leads hnodes
    rw [hrun, Rooted, hleads.grows.enclosing _ h.sound.globals]
    exact hroot

theorem Rooted.perform (hroot : s.Rooted) (h : s.Settled) {step : Step}
    (hstep : ∀ source, step ≠ .runUnresolved source) : (s.perform step).1.Rooted := by
  cases step with
  | run source => exact hroot.run h source
  | parse source =>
    obtain ⟨reports, -, hsession, -⟩ := parse_spec s source
    have hparsed : (s.parse source).1.Rooted := by
      rw [hsession]
      exact hroot
    simp only [Session.perform]
    split <;> rename_i hparse <;> rw [hparse] at hparsed <;> exact hparsed
  | printTree source =>
    obtain ⟨reports, -, hsession, -⟩ := parse_spec s source
    show (s.printTree source).1.Rooted
    have hparsed : (s.parse source).1.Rooted := by
      rw [hsession]
      exact hroot
    unfold Session.printTree
    split <;> rename_i hparse <;> rw [hparse] at hparsed
    · exact hparsed
    · split
      · exact hparsed
      · exact hparsed
  | runUnresolved source => exact absurd rfl (hstep source)
  | runScript bytes =>
    show (s.withText bytes Session.run).1.Rooted
    unfold withText
    split
    · exact hroot
    · exact hroot.run h _
  | reset => exact hroot

theorem Reachable.rooted (h : s.Reachable) : s.Rooted := by
  induction h with
  | start limits => rfl
  | wait now _ ih => exact ih
  | step hstep hreachable ih => exact ih.perform hreachable.settled hstep

/-! ## Alike trees -/

/-- The session and its twin after one run each, from the session `s`. -/
inductive EndsAlike (c : Change) (s : Session) :
    Session × Option Crash → Session × Option Crash → Prop
  | completed {m m' : Machine} :
    EndsAlike c s ({ s with machine := m }, none) ({ s with machine := m' }, none)
  | failed {m m' : Machine} {e e' : RuntimeError} : c.ErrorTwin e e' →
    EndsAlike c s ({ s with machine := m }.report [.runtime e.message e.token.line], none)
      ({ s with machine := m' }.report [.runtime e'.message e'.token.line], none)
  | fault {m m' : Machine} {f f' : Fault} : c.FaultTwin f f' →
    EndsAlike c s ({ s with machine := m }, some (.fault f))
      ({ s with machine := m' }, some (.fault f'))
  | exhausted {m m' : Machine} :
    EndsAlike c s ({ s with machine := m }, some .overflow)
      ({ s with machine := m' }, some .overflow)

/-- The same was printed, and the globals have the same values, which are rendered alike. -/
structure Shown (s s' : Session) : Prop where
  printed : s'.machine.printed = s.machine.printed
  globals : s'.globals = s.globals
  rendered : ∀ name v, (s.machine.store.environment Store.globals).bindings.get? name = some v →
    s'.machine.store.stringify v = s.machine.store.stringify v

theorem shown_of_twin {s' : Session} {M : Nat → Bool}
    (h : Pair.Twin c ⟨M, s.machine, s'.machine⟩) : Shown s s' :=
  ⟨h.printed, h.store.bindings_eq, fun name v hv =>
    h.store.stringify_eq (h.store.bindings _ name v hv)⟩

/-- Trees that are alike end alike in one session. -/
theorem Settled.interpret_alike (h : s.Settled) (hroot : s.Rooted)
    (htokens : ∀ t, s.machine.store.HasToken t → c.Alike t t) (hnodes : Node.ScopedAll {} ns)
    (hlike : Node.LikeAll c [] ns ns') :
    EndsAlike c s (s.interpret true ns) (s.interpret true ns') ∧
      Shown (s.interpret true ns).1 (s.interpret true ns').1 := by
  let p : Pair := ⟨fun _ => false, s.machine, s.machine⟩
  have htwin : p.Twin c := ⟨h.sound.twin hroot htokens, rfl, rfl, rfl⟩
  have hmode : (s.mode true).byDistance = true := rfl
  have hsims := (Eval.simulates c hmode s.limits.depth).statements htwin
    (show p.Stands [] from h.environment) hlike
  have hkeeps := h.keeps hnodes
  unfold Eval.Sims at hsims
  unfold Eval.Keeps at hkeeps
  unfold Session.interpret
  rcases hrun : Eval.inOrder (Eval.eval (s.mode true) s.limits.depth) ns s.machine with
      ⟨a, m⟩ | ⟨signal, m⟩ <;>
    rcases hrun' : Eval.inOrder (Eval.eval (s.mode true) s.limits.depth) ns' s.machine with
      ⟨a', m'⟩ | ⟨signal', m'⟩ <;>
    simp only [p, hrun, hrun'] at hsims hkeeps
  · obtain ⟨-, M, hreaches, -⟩ := hsims
    exact ⟨.completed, shown_of_twin hreaches.twin⟩
  · obtain ⟨hsignal, M, hend, -⟩ := hsims
    cases signal with
    | returning v => exact hkeeps.2.1.elim
    | error e =>
      obtain ⟨e', rfl, herror⟩ := hsignal
      have hshown : Shown { s with machine := m } { s with machine := m' } := shown_of_twin hend
      exact ⟨.failed herror, hshown.printed, hshown.globals, hshown.rendered⟩
    | fault f =>
      obtain ⟨f', rfl, hfault⟩ := hsignal
      exact ⟨.fault hfault, shown_of_twin hend⟩
    | exhausted =>
      obtain rfl := hsignal
      exact ⟨.exhausted, shown_of_twin hend⟩

end Session

end Lox
