import Mathlib.Tactic
import Lox.Proofs.Endings

/-!
# What `this` and `super` mean inside a method

Wherever execution comes to in a session that has only ever run what it resolved, the code that is
inside a method is so by its environment: it leads to the receiver that the method was called on and
to the class that declares it. `this` is that receiver, and `super` goes to the superclass of that
class (`dispatch_fixed`). Neither depends on the class of the receiver or on what the variables that
named the classes hold by now.

Code does not leave the method it is inside: not as execution goes on to other parts of the code
(`GoesOn.inside`), and not when a function that was declared in it is called later on.
-/

namespace Lox

namespace Visit

variable (v : Visit)

/-- The code of the visit is inside a method that the class declares, called on the instance. -/
def Inside (inst cls : Nat) : Prop := v.machine.store.Inside v.machine.environment inst cls

/-- The visit runs a node, and has the depth that takes. -/
def Runs (n : Node) : Prop := v.task = .node n ∧ v.depth ≠ 0

/-- What is said inside a method, given the class that declares the method. -/
structure Dispatches (mode : Mode) (inst cls : Nat) : Prop where
  /-- The receiver is an instance of the class or of a class below it. -/
  isA : ∃ i, v.machine.store.instance? inst = some i ∧ v.machine.store.IsA i.cls cls
  /-- The code is inside no other method. -/
  unique : ∀ inst' cls', v.Inside inst' cls' → inst' = inst ∧ cls' = cls
  this : ∀ keyword, v.Runs (.receiver keyword) →
    Eval.eval mode v.depth (.receiver keyword) v.machine = .ok (.inst inst) v.machine
  /-- `super` gives the method of the superclass, bound to the receiver. -/
  super : ∀ keyword method parent f, v.Runs (.superMethod keyword method) →
    v.machine.store.Extends cls parent → v.machine.store.method? parent method.lexeme = some f →
    Eval.eval mode v.depth (.superMethod keyword method) v.machine =
      .ok (.function (v.machine.store.bind f (.inst inst)).1)
        { v.machine with store := (v.machine.store.bind f (.inst inst)).2 }
  /-- It is an error if the superclass has no such method. -/
  superMissing : ∀ keyword method parent, v.Runs (.superMethod keyword method) →
    v.machine.store.Extends cls parent → v.machine.store.method? parent method.lexeme = none →
    ∃ e : RuntimeError, e.token = method ∧ e.message = s!"Undefined property '{method.lexeme}'." ∧
      Eval.eval mode v.depth (.superMethod keyword method) v.machine = .error (.error e) v.machine
  /-- A function that is declared there is closed over an environment inside the method. -/
  declares : ∀ name params body value m', v.Runs (.function name params body) →
    Eval.eval mode v.depth (.function name params body) v.machine = .ok value m' →
    ∃ f, m'.store.closure? v.machine.store.functions.size = some f ∧
      f.declaration = .function name params body ∧ m'.store.Inside f.environment inst cls

/-- Which code is inside a method. -/
structure Methods (mode : Mode) : Prop where
  /-- `this` stands inside a method. -/
  receiver : ∀ keyword, v.task = .node (.receiver keyword) → ∃ inst cls, v.Inside inst cls
  /-- `super` stands inside a method of a class that has a superclass. -/
  superMethod : ∀ keyword method, v.task = .node (.superMethod keyword method) →
    ∃ inst cls parent, v.Inside inst cls ∧ v.machine.store.Extends cls parent
  /-- A function that has a receiver is a method bound to it by the class that declares it. -/
  bound : ∀ id f this, v.machine.store.closure? id = some f →
    (v.machine.store.environment f.environment).bindings.get? "this" = some this →
    ∃ inst cls, v.machine.store.BoundMethod inst cls f
  /-- Execution goes on inside the method, and inside that of a function that is called. -/
  goesOn : ∀ v' inst cls, Eval.Enters mode v v' → v.machine.store.Inside v.home inst cls →
    v'.Inside inst cls

variable {v} {v' : Visit} {inst cls : Nat}

/-- What execution goes on to is inside the method that it goes on from. -/
theorem GoesOn.inside (h : v.GoesOn v') (hhome : v.machine.store.Inside v.home inst cls) :
    v'.Inside inst cls := by
  have hlater := hhome.later h.stable
  rcases h.environment with hsame | hnested
  · rw [Inside, hsame]
    exact hlater
  · obtain ⟨site, -, hrunning, -⟩ := h.ready
    exact .nested hrunning.ordinary.1 hnested hlater

theorem Ready.framed (hv : v.Ready) : v.machine.store.Framed := by
  obtain ⟨site, -, hrunning, -⟩ := hv
  exact hrunning.sound.framed

end Visit

namespace Eval

variable {mode : Mode} {v : Visit} {inst cls : Nat}

/-- A function is closed over the environment in which it is declared. -/
theorem eval_function {name : Token} (hname : name.isMissing = false) (params : List Token)
    (body : List Node) (depth : Nat) (m : Machine) :
    eval mode (depth + 1) (.function name params body) m = .ok .nil { m with
      store := (m.store.newFunction ⟨.function name params body, m.environment, false⟩).2.define
        m.environment name.lexeme (.function m.store.functions.size) } := by
  have hdefine : ∀ v m, define name v m =
      .ok () { m with store := m.store.define m.environment name.lexeme v } := by
    intro v m
    rw [define, checkToken_eq hname]
    rfl
  exact bind_ok (hdefine _ _)

variable (hmode : mode.byDistance = true)

include hmode

/-- `this` stands inside a method and is its receiver. -/
theorem Ready.receiver {keyword : Reference} (hv : v.Ready)
    (htask : v.task = .node (.receiver keyword)) :
    ∃ inst cls, v.Inside inst cls ∧ ∀ depth,
      eval mode (depth + 1) (.receiver keyword) v.machine = .ok (.inst inst) v.machine := by
  obtain ⟨site, -, hrunning, hfit⟩ := hv
  rw [htask] at hfit
  obtain ⟨hpresent, hlexeme, hops, hhops, hthis⟩ := hfit.1
  obtain ⟨inst, cls, hinside, hget, -⟩ := hrunning.covers.inside hrunning.sound.framed hthis
  refine ⟨inst, cls, hinside, fun depth => ?_⟩
  have hlookup := lookup_eq (m := v.machine) hmode hpresent
  simp only [hhops, hlexeme, getAt, hget] at hlookup
  exact hlookup

/-- `super` stands inside a method of a class that has a superclass, and goes to it. -/
theorem Ready.superMethod {keyword : Reference} {method : Token} (hv : v.Ready)
    (htask : v.task = .node (.superMethod keyword method)) :
    ∃ inst cls parent, v.Inside inst cls ∧ v.machine.store.Extends cls parent ∧
      ∀ depth, eval mode (depth + 1) (.superMethod keyword method) v.machine =
        (match v.machine.store.method? parent method.lexeme with
          | some f => .ok (.function (v.machine.store.bind f (.inst inst)).1)
              { v.machine with store := (v.machine.store.bind f (.inst inst)).2 }
          | none =>
            .error (.error ⟨method, .undefinedProperty method.lexeme⟩) v.machine) := by
  obtain ⟨site, -, hrunning, hfit⟩ := hv
  rw [htask] at hfit
  obtain ⟨hmethod, -, hops, hhops, hsuper, hthis⟩ := hfit.1
  obtain ⟨inst, cls, hinside, hget, hframe⟩ := hrunning.covers.inside hrunning.sound.framed hthis
  obtain ⟨found, value, hfound, hparent, hbinding⟩ := hrunning.covers.getAt hsuper
  obtain ⟨parent, hextends, rfl⟩ := hframe found value hfound hbinding
  refine ⟨inst, cls, parent, hinside, hextends, fun depth => ?_⟩
  refine (superMethod_eq hmode hmethod hhops hparent hget).trans ?_
  rcases v.machine.store.method? parent method.lexeme with _ | f
  · simp only [fail, checkToken_eq hmethod]
    rfl
  · rfl

theorem Ready.dispatches (hv : v.Ready) (h : v.Inside inst cls) : v.Dispatches mode inst cls := by
  have hunique : ∀ inst' cls', v.Inside inst' cls' → inst' = inst ∧ cls' = cls :=
    fun _ _ h' => h.unique hv.framed h'
  have hdepth : v.depth ≠ 0 → v.depth = v.depth - 1 + 1 := by omega
  refine ⟨h.isA, hunique, ?_, ?_, ?_, ?_⟩
  · rintro keyword ⟨htask, hne⟩
    obtain ⟨inst', cls', hinside, heval⟩ := Ready.receiver hmode hv htask
    obtain ⟨rfl, rfl⟩ := hunique inst' cls' hinside
    rw [hdepth hne]
    exact heval _
  · rintro keyword method parent f ⟨htask, hne⟩ hextends hf
    obtain ⟨inst', cls', parent', hinside, hextends', heval⟩ := Ready.superMethod hmode hv htask
    obtain ⟨rfl, rfl⟩ := hunique inst' cls' hinside
    obtain rfl := hextends.unique hextends'
    rw [hdepth hne, heval, hf]
  · rintro keyword method parent ⟨htask, hne⟩ hextends hf
    obtain ⟨inst', cls', parent', hinside, hextends', heval⟩ := Ready.superMethod hmode hv htask
    obtain ⟨rfl, rfl⟩ := hunique inst' cls' hinside
    obtain rfl := hextends.unique hextends'
    refine ⟨⟨method, .undefinedProperty method.lexeme⟩, rfl, rfl, ?_⟩
    rw [hdepth hne, heval, hf]
  · rintro name params body value m' ⟨htask, hne⟩ heval
    obtain ⟨site, -, hrunning, hfit⟩ := hv
    rw [htask] at hfit
    have hleads := (((executes hmode v.depth).node hfit hrunning).of_ok heval).2.1
    rw [hdepth hne, eval_function hfit.1.1.toIsName.present] at heval
    cases heval
    exact ⟨_, (Store.closure?_newFunction _ _ _).trans (if_pos rfl), rfl,
      h.later hleads.grows.toStable⟩

theorem Ready.methods (hv : v.Ready) : v.Methods mode := by
  refine ⟨fun keyword htask => ?_, fun keyword method htask => ?_, fun id f this => ?_,
    fun v' inst cls henters => ?_⟩
  · obtain ⟨inst, cls, hinside, -⟩ := Ready.receiver hmode hv htask
    exact ⟨inst, cls, hinside⟩
  · obtain ⟨inst, cls, parent, hinside, hextends, -⟩ := Ready.superMethod hmode hv htask
    exact ⟨inst, cls, parent, hinside, hextends⟩
  · exact hv.framed.bound id f this
  · exact (henters.goesOn hmode hv).inside

end Eval

namespace Session

open Eval (Comes)

variable {s : Session} {source : String} {nodes : List Node} {v : Visit}

/-- A run leaves all in the store where it was. -/
theorem Settled.stable_run (h : s.Settled) (source : String) :
    s.machine.store.Stable (s.run source).1.machine.store := by
  rcases run_cases s source with ⟨reports, hrefuses⟩ | ⟨nodes, -, hnodes, hrun⟩
  · rw [hrefuses.session]
    exact .refl _
  · have hkeeps := h.keeps hnodes
    unfold Eval.Keeps at hkeeps
    rw [hrun]
    unfold Session.interpret
    split at hkeeps <;> rename_i hresult <;> rw [hresult] <;>
      obtain ⟨⟨added, hleads⟩, -⟩ := hkeeps
    · exact hleads.grows.toStable
    · rename_i signal m'
      cases signal <;> exact hleads.grows.toStable

theorem Settled.ready_of_comes (h : s.Settled) (hexecuted : s.executed? source = some nodes)
    (hcomes : Comes (s.mode true) (s.firstVisit nodes) v) : v.Ready := by
  rcases run_cases s source with ⟨reports, hrefuses⟩ | ⟨nodes', hexecuted', hnodes, -⟩
  · rw [hrefuses.executed] at hexecuted
    cases hexecuted
  · rw [hexecuted'] at hexecuted
    cases hexecuted
    exact hcomes.ready rfl (h.ready hnodes)

/-- Inside a method, wherever execution comes to, `this` is the receiver of the method and `super`
the superclass of the class that declares it, and so it stays from then on. -/
theorem dispatch_fixed (h : s.Reachable) (hexecuted : s.executed? source = some nodes)
    (hcomes : Comes (s.mode true) (s.firstVisit nodes) v) :
    v.Methods (s.mode true) ∧
      (∀ inst cls, v.Inside inst cls → v.Dispatches (s.mode true) inst cls) ∧
      (∀ env inst cls, v.machine.store.Inside env inst cls →
        ∀ w, Comes (s.mode true) v w → w.machine.store.Inside env inst cls) ∧
      ∀ env inst cls, s.machine.store.Inside env inst cls →
        (s.run source).1.machine.store.Inside env inst cls := by
  have hready := h.settled.ready_of_comes hexecuted hcomes
  refine ⟨Eval.Ready.methods rfl hready, fun inst cls => Eval.Ready.dispatches rfl hready,
    fun env inst cls hinside w hw => ?_, fun env inst cls hinside => ?_⟩
  · exact hinside.later (hw.goesOn rfl hready).2
  · exact hinside.later (h.settled.stable_run source)

/-- The statements are one call without arguments, of a function that has a receiver. -/
def callsMethod (s : Session) (depth : Nat) : List Node → Bool
  | [.expression (.call callee _ [])] =>
    match Eval.eval (s.mode true) depth callee s.machine with
    | .ok (.function id) m => (m.store.closure? id).any fun f =>
      f.declaration.parameters.toOption == some [] &&
        (m.store.environment f.environment).bindings.contains "this"
    | _ => false
  | _ => false

/-- Execution comes to the call, and from there to the body of the function. -/
theorem comes_of_callsMethod {depth : Nat} (hdepth : s.limits.depth = depth + 3)
    (h : s.callsMethod (depth + 1) nodes = true) :
    ∃ v v' id arguments f this, Comes (s.mode true) (s.firstVisit nodes) v ∧
      Eval.Enters (s.mode true) v v' ∧ v.task = .call (.function id) arguments ∧
      v.machine.store.closure? id = some f ∧
      (v.machine.store.environment f.environment).bindings.get? "this" = some this := by
  unfold callsMethod at h
  split at h
  · rename_i callee paren
    split at h
    · rename_i id m hcallee
      obtain ⟨f, hf, htest⟩ := (Option.any_eq_true _ _).1 h
      simp only [Bool.and_eq_true, beq_iff_eq] at htest
      obtain ⟨hparams, hthis⟩ := htest
      obtain ⟨this, hthis⟩ := Option.isSome_iff_exists.1 hthis
      have hparams : f.declaration.parameters = .ok [] := by
        rcases hresult : f.declaration.parameters with e | params <;>
          rw [hresult] at hparams <;> cases hparams
        rfl
      have harity : m.store.arity? (.function id) = .ok (some 0) := by
        simp [Store.arity?, hf, Closure.arity, hparams, Except.map]
      refine ⟨⟨depth + 1, {}, .call (.function id) [], m⟩, _, id, [], f, this, ?_,
        .function hf hparams rfl, rfl, hf, hthis⟩
      unfold firstVisit
      rw [hdepth]
      exact .head .statement (.head (.first rfl) (.single (.call hcallee rfl harity)))
    · cases h
  · cases h

theorem dispatch_fixed_called :
    let s := (({} : Session).perform
      (.run "class A {} class B < A { m() { return super.n; } } var f = B().m;")).1
    ∃ nodes v inst cls, s.executed? "f();" = some nodes ∧
      Comes (s.mode true) (s.firstVisit nodes) v ∧ v.Inside inst cls ∧
      v.Dispatches (s.mode true) inst cls := by
  intro s
  have hreachable : s.Reachable := .step (fun _ => by simp) (.start {})
  have hcalls : (s.executed? "f();").any (s.callsMethod 3998) = true := by decide +kernel
  obtain ⟨nodes, hexecuted, hcalls⟩ := (Option.any_eq_true _ _).1 hcalls
  obtain ⟨v, v', id, arguments, f, this, hcomes, henters, htask, hf, hthis⟩ :=
    comes_of_callsMethod (by decide +kernel) hcalls
  have hmethods := (dispatch_fixed hreachable hexecuted hcomes).1
  obtain ⟨inst, cls, hbound⟩ := hmethods.bound id f this hf hthis
  have hhome : v.home = f.environment := by
    simp only [Visit.home, htask, hf, Option.map_some, Option.getD_some]
  have hinside : v'.Inside inst cls := by
    refine hmethods.goesOn v' inst cls henters ?_
    rw [hhome]
    exact .method hbound.receives
  have hcomes' := hcomes.tail henters
  exact ⟨nodes, v', inst, cls, hexecuted, hcomes', hinside,
    (dispatch_fixed hreachable hexecuted hcomes').2.1 inst cls hinside⟩

end Session

end Lox
