import Mathlib
import Lox.Proofs.Belonging
import Lox.Proofs.LoopRules
import Lox.Proofs.Moments
import Lox.Proofs.ShiftedRuns
import Lox.Proofs.SideBySide

/-!
# For loops mean what their rules say

The tree that a `for` loop is read as puts a block around body and increment if there is an
increment. The block makes an environment in every turn, so the machine that ran the tree is not
that which ran the loop by its rules. Nothing can tell the two (`Machine.Alike`): the block is
padding, and the tree runs in step with the loop (`sims_tree`).

So the tree does what the rules say (`ForLoop.Follows`). Resolution sees no name in the block
(`ForLoop.Resolves`), and the variable of the loop is one binding for all turns and for all functions
that are made in them (`ForLoop.Shares`). `Session.forStatement_meaning` says this of every loop that
is read and run.
-/

namespace Lox

namespace Padding

/-! ## A store beside itself -/

section Itself

variable {s : Store}

/-- Each environment stands for itself. -/
def itself (s : Store) (env env' : Nat) : Prop := env' = env ∧ env < s.environments.size

theorem along_itself : ∀ {scopes : List (List String)} {env : Nat}, s.Covers scopes env →
    Along (itself s) s s (scopes.map fun _ => false) env env
  | [], _, h => ⟨h, h⟩
  | _ :: _, _, h => by
    obtain ⟨hlt, -, -, outer, houter, hrest⟩ := h
    exact ⟨⟨rfl, hlt⟩, outer, outer, houter, houter, along_itself hrest⟩

theorem matches_itself {missing : List (List String)} {f : Closure} (h : s.Closes missing f) :
    Matches (itself s) s s (missing.map fun _ => false) f f := by
  obtain ⟨site, kind, name, params, body, scopes, hdeclaration, -, -, -, hcovers, hbody, -⟩ := h
  have hmarks : ∀ b ∈ false :: (missing.map (fun _ => false) ++ scopes.map fun _ => false),
      b = false := by simp
  refine ⟨rfl, scopes.map fun _ => false, site.body kind params, name, params, body,
    along_itself hcovers, fun hhead => ?_, ?_, hdeclaration, gaps_of_false hmarks _, ?_⟩
  · have hfalse := hmarks true (List.mem_cons_of_mem _ (List.mem_of_head? hhead))
    cases hfalse
  · rw [hops_eq_id hmarks, Node.shiftAll_id, hdeclaration]
  · rwa [hops_eq_id hmarks, Node.shiftAll_id]

theorem shares_itself {v : Value} (h : s.Holds v) : Shares (itself s) s s v := by
  cases v with
  | function id =>
    obtain ⟨f, hf, hcallable⟩ := h
    exact ⟨f, f, hf, hf, matches_itself hcallable⟩
  | _ => trivial

theorem padded_itself (h : s.Sound) (houtermost : (s.environment Store.globals).enclosing = none) :
    Padded (itself s) s s where
  related env env' hR := by
    obtain ⟨rfl, hlt⟩ := hR
    exact ⟨hlt, hlt, rfl⟩
  unique env env' other other' hR hother := by rw [hR.1, hother.1]
  globals := ⟨rfl, h.globals⟩
  outermost := houtermost
  outermost' := houtermost
  functions := rfl
  classes := rfl
  instances := rfl
  natives := rfl
  bindings env _ name v _ hv := shares_itself (h.bindings env name v hv)
  fields id i hi name v hv := shares_itself (h.fields id i hi name v hv)
  methods id cls hcls name k hk := by
    obtain ⟨f, hf, hunbound⟩ := h.methods id cls hcls name k hk
    exact ⟨f, f, hf, hf, matches_itself hunbound⟩

end Itself

/-! ## The tree in step with the loop -/

section Loop

open Eval Couple

variable {mode : Mode} (hmode : mode.byDistance = true) {p : Couple} {L : List Bool} {site : Site}

include hmode

/-- The block around body and increment is padding. -/
theorem sims_turn (depth : Nat) {body step : Node} (hp : p.Agrees) (hL : p.Stands L)
    (hbody : Placed (true :: L) site body) (hstep : Placed (true :: L) site (.expression step)) :
    Sims (eval mode (depth + 1) (.block [body.shift (hops (true :: L)),
        .expression (step.shift (hops (true :: L)))]))
      (eval mode depth body >>= fun _ => eval mode depth (.expression step)) p
      fun _ _ _ => True := by
  have hIH := simulates hmode depth
  let inner : Environment := ⟨.empty, some p.left.environment⟩
  let q := p.withStores p.links (p.left.store.newEnvironment inner).2 p.right.store
  have hq : p.Reaches q := hp.reaches (hp.store.pad inner) (onward_pad ..)
  have hinside := hq.agrees.inside p.left.store.environments.size p.right.environment
  have hstands : Stands (q.inside p.left.store.environments.size p.right.environment)
      (true :: L) := Along.pad hp.store hL rfl
  have hturn := (hIH.node hinside hstands hbody).bind fun _ _ _ hr _ =>
    (hIH.node hr.agrees (hstands.reaches hinside hr) hstep).drop ()
  have hblock := (sims_withinLeft (Q := fun _ _ _ => True) hturn fun _ _ _ _ => trivial).drop
    Value.nil
  exact .after (q := q) (eval_block depth _ p.left) rfl hq (hblock.mono fun _ _ _ _ _ => trivial)

/-- A part that has no padding around it is run as it is. -/
theorem sims_part (hfalse : ∀ b ∈ L, b = false) {n : Node} (hn : n.Scoped site) (depth : Nat)
    (hp : p.Agrees) (hL : p.Stands L) :
    Sims (eval mode depth n) (eval mode depth n) p Same := by
  have hplaced : Placed L site n := by
    refine ⟨by rwa [hops_eq_id hfalse, Node.shift_id], gaps_of_false hfalse _, fun hhead => ?_⟩
    have hhead := hfalse true (List.mem_of_head? hhead)
    cases hhead
  have hnode := (simulates hmode depth).node hp hL hplaced
  rwa [hops_eq_id hfalse, Node.shift_id] at hnode

section Parts

variable {l : ForLoop} (hfalse : ∀ b ∈ L, b = false) (depth : Nat)

include hfalse

/-- What the tree repeats runs in step with the body and then the increment. -/
theorem sims_body (hbody : l.body.declared? = none)
    (hscoped : l.padded.turn.Scoped site) (hp : p.Agrees) (hL : p.Stands L) :
    Sims (eval mode (l.conditionDepth depth) l.padded.turn)
      ((l.parts mode depth).body >>= fun _ => (l.parts mode depth).step) p fun _ _ _ => True := by
  rcases hincrement : l.increment with _ | step
  · rw [l.turn_padded_bare hincrement] at hscoped ⊢
    have hparts : ((l.parts mode depth).body >>= fun _ => (l.parts mode depth).step) =
        eval mode (l.conditionDepth depth) l.body >>= fun _ => pure .nil := by
      simp [ForLoop.parts, Loop.step, ForLoop.bodyDepth, hincrement]
    have hrun := (sims_part hmode hfalse hscoped (l.conditionDepth depth) hp hL).bind
      (k := pure) (l := fun _ => pure Value.nil) (Q := fun _ _ _ => True) fun _ _ r hr _ =>
        sims_pure hr.agrees trivial
    rw [hparts]
    rwa [bind_pure] at hrun
  · have hparts : ((l.parts mode depth).body >>= fun _ => (l.parts mode depth).step) =
        eval mode (l.conditionDepth depth - 1) l.body >>= fun _ =>
          eval mode (l.conditionDepth depth - 1) (.expression step) := by
      simp [ForLoop.parts, Loop.step, ForLoop.bodyDepth, hincrement]
    rw [hparts]
    rw [l.turn_padded_block hincrement, ← hops_pad hfalse] at hscoped ⊢
    obtain ⟨hfirst, hlast, -⟩ := hscoped
    rw [Site.after_shift, Site.after_eq_self hbody] at hlast
    have hgaps := (gaps_of_false hfalse site.scopes).pad
    rcases l.conditionDepth depth with _ | depth
    · exact sims_of_error .exhausted rfl rfl hp (by simp)
    · have hplaced : Placed (true :: L) (site.inside []) l.body := ⟨hfirst, hgaps, fun _ => hbody⟩
      exact sims_turn hmode depth hp hL hplaced ⟨hlast, hgaps, fun _ => rfl⟩

/-- The condition that the tree repeats runs in step with that of the loop. -/
theorem sims_guard (hscoped : l.guard.Scoped site)
    (hdepth : l.condition = none → l.conditionDepth depth ≠ 0) (hp : p.Agrees) (hL : p.Stands L) :
    Sims (eval mode (l.conditionDepth depth) l.guard) (l.parts mode depth).test p Same := by
  rcases hcondition : l.condition with _ | condition
  · have hguard : l.guard = .literal (.bool true) := by rw [ForLoop.guard, hcondition]; rfl
    have htest : (l.parts mode depth).test = pure (.bool true) := by
      rw [Loop.test, ForLoop.parts, hcondition]
      rfl
    obtain ⟨inner, hinner⟩ := Nat.exists_eq_succ_of_ne_zero (hdepth hcondition)
    rw [hguard, htest, hinner]
    exact sims_pure hp ⟨rfl, trivial⟩
  · have hguard : l.guard = condition := by rw [ForLoop.guard, hcondition]; rfl
    have htest : (l.parts mode depth).test = eval mode (l.conditionDepth depth) condition := by
      rw [Loop.test, ForLoop.parts, hcondition]
      rfl
    rw [hguard] at hscoped ⊢
    rw [htest]
    exact sims_part hmode hfalse hscoped _ hp hL

theorem sims_turns (hbody : l.body.declared? = none) (hguard : l.guard.Scoped site)
    (hturn : l.padded.turn.Scoped site) (count : Nat) (hp : p.Agrees) (hL : p.Stands L) :
    Sims (repeatWhile (eval mode (l.conditionDepth depth) l.guard)
        (eval mode (l.conditionDepth depth) l.padded.turn) count)
      ((l.parts mode depth).turns count) p fun _ _ _ => True := by
  by_cases hdepth : l.condition = none ∧ l.conditionDepth depth = 0
  -- without depth the tree cannot come to know that its condition is true, but neither can any
  -- body be run
  · obtain ⟨hnone, hzero⟩ := hdepth
    have hdepth : l.bodyDepth depth = 0 := by simp [ForLoop.bodyDepth, hzero]
    have htest : (l.parts mode depth).test p.right = .ok (.bool true) p.right := by
      rw [Loop.test, ForLoop.parts, hnone]
      rfl
    have hrun : (l.parts mode depth).body p.right = .error .exhausted p.right := by
      rw [ForLoop.parts, hdepth]
      rfl
    rw [hzero]
    cases count with
    | zero => exact sims_of_error .exhausted rfl rfl hp (by simp)
    | succ count =>
      exact sims_of_error .exhausted rfl ((Loop.turns_of_test htest rfl).trans (bind_error hrun)) hp
        (by simp)
  · exact sims_repeatWhile
      (fun hq hL => sims_guard hmode hfalse depth hguard (fun hnone hzero => hdepth ⟨hnone, hzero⟩)
        hq hL)
      (fun hq hL => sims_body hmode hfalse depth hbody hturn hq hL) hp hL

/-- The block runs in step with the initializer and then the turns of the loop. -/
theorem sims_block {first : Node} (hfirst : l.initializer = some first)
    (hbody : l.body.declared? = none) (hstart : first.Scoped site)
    (hloop : (Node.loop l.guard l.padded.turn).Scoped (site.after first)) (hp : p.Agrees)
    (hL : p.Stands L) :
    Sims (inOrder (eval mode depth) [first, .loop l.guard l.padded.turn])
      (eval mode depth first >>= fun _ => (l.parts mode depth).turns mode.turns) p
      fun _ _ _ => True := by
  cases depth with
  | zero => exact sims_of_error .exhausted rfl rfl hp (by simp)
  | succ depth =>
    refine (sims_part hmode hfalse hstart (depth + 1) hp hL).bind fun _ _ r hr _ => ?_
    have hdepth : l.conditionDepth (depth + 1) = depth := by simp [ForLoop.conditionDepth, hfirst]
    have hturns := sims_turns hmode hfalse (depth + 1) hbody hloop.1.2 hloop.2.2 mode.turns
      hr.agrees (hL.reaches hp hr)
    rw [hdepth] at hturns
    exact ((hturns.drop Value.nil).drop ()).mono fun _ _ _ _ _ => trivial

/-- The tree that a loop is read as runs in step with the loop. -/
theorem sims_tree (hbody : l.body.declared? = none) (hscoped : l.padded.tree.Scoped site)
    (hp : p.Agrees) (hL : p.Stands L) :
    Sims (eval mode (depth + 1) l.padded.tree) ((l.parts mode depth).run mode.turns) p
      fun v _ _ => v = .nil := by
  rcases hfirst : l.initializer with _ | first
  · have hdepth : l.conditionDepth depth = depth := by simp [ForLoop.conditionDepth, hfirst]
    have hnone : (l.parts mode depth).initializer = none := by rw [ForLoop.parts, hfirst]; rfl
    rw [l.padded.tree_bare (by rw [l.initializer_padded, hfirst]), l.guard_padded] at hscoped ⊢
    have hturns := sims_turns hmode hfalse depth hbody hscoped.1.2 hscoped.2.2 mode.turns hp hL
    rw [hdepth] at hturns
    rw [Loop.run_bare hnone]
    exact hturns.drop _
  · have hsome : (l.parts mode depth).initializer = some (eval mode depth first) := by
      rw [ForLoop.parts, hfirst]
      rfl
    rw [l.padded.tree_block (by rw [l.initializer_padded, hfirst]), l.guard_padded] at hscoped ⊢
    obtain ⟨hstart, hloop, -⟩ := hscoped
    rw [Loop.run, hsome]
    refine sims_get hp _ _ ((sims_newEnvironment hp hL (by simp)).bind
      fun env env' q hq hinner => ?_)
    have hblock := sims_block hmode (List.forall_mem_cons.2 ⟨rfl, hfalse⟩) depth hfirst hbody hstart
      hloop (hq.agrees.inside env env') hinner
    exact (sims_within (Q := fun _ _ _ => True) hblock fun _ _ _ h => h).drop _

end Parts

end Loop

end Padding

/-! ## What cannot be told apart -/

/-- Two machines that went on from a third, and that cannot be told apart: the same was printed, what
there was before is the same, and whatever can be run where the third machine could run it ends in
the same way on both and prints the same. -/
structure Machine.Alike (mode : Mode) (m m₁ m₂ : Machine) : Prop where
  printed : m₂.printed = m₁.printed
  now : m₂.now = m₁.now
  environments : ∀ env < m.store.environments.size,
    m₂.store.environment env = m₁.store.environment env
  classes : m₂.store.classes = m₁.store.classes
  instances : m₂.store.instances = m₁.store.instances
  next : ∀ (site : Site) (environment depth : Nat) (n : Node),
    m.store.Covers site.scopes environment → n.Scoped site →
      Eval.ending (Eval.eval mode depth n { m₂ with environment }) =
        Eval.ending (Eval.eval mode depth n { m₁ with environment }) ∧
      (Eval.machineAfter (Eval.eval mode depth n { m₂ with environment })).printed =
        (Eval.machineAfter (Eval.eval mode depth n { m₁ with environment })).printed

namespace Padding

open Eval

theorem Sims.ends {α β : Type} {x : Eval α} {y : Eval β} {p : Couple}
    {P : α → β → Couple → Prop} (h : Sims x y p P) :
    ∃ R, Couple.Agrees ⟨R, machineAfter (x p.left), machineAfter (y p.right)⟩ ∧
      p.Onward ⟨R, machineAfter (x p.left), machineAfter (y p.right)⟩ ∧
      ((∃ a b q, ending (x p.left) = .ok a ∧ ending (y p.right) = .ok b ∧ P a b q) ∨
        ∃ signal, ending (x p.left) = .error signal ∧ ending (y p.right) = .error signal) := by
  unfold Sims at h
  split at h
  · rename_i hx hy
    obtain ⟨R, hq, hP⟩ := h
    rw [hx, hy]
    exact ⟨R, hq.agrees, hq.onward, .inl ⟨_, _, _, rfl, rfl, hP⟩⟩
  · rename_i hx hy
    obtain ⟨rfl, R, hq, honward, -⟩ := h
    rw [hx, hy]
    exact ⟨R, hq, honward, .inr ⟨_, rfl, rfl⟩⟩
  · exact h.elim

theorem Couple.Agrees.alike {mode : Mode} (hmode : mode.byDistance = true) {m : Machine}
    {q : Couple} (hm : Padded (itself m.store) m.store m.store) (hq : q.Agrees)
    (honward : Couple.Onward ⟨itself m.store, m, m⟩ q) : m.Alike mode q.left q.right := by
  refine ⟨hq.printed, hq.now, fun env henv => ?_, hq.store.classes, hq.store.instances,
    fun site environment depth n hcovers hn => ?_⟩
  · have hR := honward.links env env ⟨rfl, henv⟩
    have hbindings := (hq.store.related _ _ hR).2.2
    have henclosing := (honward.right.enclosing env henv).trans
      (honward.left.enclosing env henv).symm
    exact congrArg₂ Environment.mk hbindings henclosing
  · have hstands : (q.inside environment environment).Stands (site.scopes.map fun _ => false) :=
      (along_itself hcovers).onward hm honward
    obtain ⟨R, hend, -, hsame⟩ :=
      (sims_part hmode (by simp) hn depth (hq.inside _ _) hstands).ends
    refine ⟨?_, hend.printed⟩
    rcases hsame with ⟨v, w, r, hv, hw, rfl, -⟩ | ⟨signal, hv, hw⟩ <;> exact hw.trans hv.symm

end Padding

/-! ## The meaning of a loop -/

namespace ForLoop

open Eval

/-- How the tree of a loop is resolved at a site. -/
structure Resolves (l : ForLoop) (outer : Site) : Prop where
  /-- Resolution gives each reference its distance, and is at the same site afterwards. -/
  resolved : ∀ s : Surroundings, s.StandsAt outer →
    (Resolver.node l.tree s).value = l.tree.locate outer false ∧
      (Resolver.node l.tree s).surroundings.StandsAt outer
  /-- The condition, the increment and the body are resolved as they are without the block around
  body and increment, where all that is outside of them is one scope further out. -/
  located : l.tree.locate outer false = (l.locate outer).padded.tree
  /-- The variable of the loop is bound where they stand. -/
  bound : ∀ name value, l.initializer = some (.varDecl name value) →
    (l.site outer).scopes = [name.lexeme] :: outer.scopes
  /-- Nothing is declared in the block that the increment could see. -/
  undeclared : ((l.site outer).inside []).afterAll [l.body] = (l.site outer).inside []

/-- The tree does what the rules say of the loop. -/
structure Follows (l : ForLoop) (mode : Mode) (depth : Nat) (n : Node) (m : Machine) : Prop where
  runs : ∃ e m', (∀ e' m'', (l.parts mode depth).Runs mode.turns m e' m'' ↔ e' = e ∧ m'' = m') ∧
    ending (eval mode (depth + 1) n m) = e.map (fun _ => .nil) ∧
    m.Alike mode (machineAfter (eval mode (depth + 1) n m)) m'
  restored : (machineAfter (eval mode (depth + 1) n m)).environment = m.environment

/-- All code of the loop, in whatever turn, and that of the functions and methods declared there,
whenever they are called, is run inside of the one environment that was made for the initializer.
In that one the variable of the loop is bound and looked up. -/
structure Shares (l : ForLoop) (mode : Mode) (v start : Visit) : Prop where
  comes : Comes mode v start
  bound : ∀ name value, l.initializer = some (.varDecl name value) →
    start.machine.store.Has v.machine.store.environments.size name.lexeme
  within : ∀ w, Belongs mode start w → ∃ count,
    w.machine.store.environmentAt count w.machine.environment =
      .ok v.machine.store.environments.size ∧
    ∀ name value, l.initializer = some (.varDecl name value) → w.Refers name.lexeme count
  makes : ∀ w, Belongs mode start w → w.Makes mode

theorem follows {mode : Mode} (hmode : mode.byDistance = true) {l : ForLoop} {site : Site}
    {m : Machine} (hbody : l.body.declared? = none) (hrunning : m.Running site)
    (houtermost : (m.store.environment Store.globals).enclosing = none)
    (hfit : Fit site l.padded.tree) (depth : Nat) : l.Follows mode depth l.padded.tree m := by
  have hpadded := Padding.padded_itself hrunning.sound houtermost
  have hsims := Padding.sims_tree hmode (p := ⟨Padding.itself m.store, m, m⟩) (by simp) depth hbody
    hfit.1 ⟨hpadded, rfl, rfl⟩ (Padding.along_itself hrunning.covers)
  have hkeeps := (executes hmode (depth + 1)).node hfit hrunning
  obtain ⟨R, hq, honward, hend⟩ := hsims.ends
  refine ⟨⟨_, _, fun _ _ => Loop.runs_iff, ?_, hq.alike hmode hpadded honward⟩, ?_⟩
  · rcases hend with ⟨v, u, r, hv, hu, rfl⟩ | ⟨signal, hv, hu⟩ <;> rw [hv, hu] <;> rfl
  · unfold Keeps at hkeeps
    split at hkeeps <;> rename_i hrun <;> obtain ⟨⟨added, hleads⟩, -⟩ := hkeeps <;> rw [hrun] <;>
      exact hleads.environment

theorem Fits.resolves {ok : Token → Prop} {l : ForLoop} (h : l.Fits ok) {outer : Site}
    (houter : outer.initializing = none) : l.Resolves outer where
  resolved s hs := by
    have htree : l.tree.Fits ok .statement :=
      Parser.forLoop_fits (.inl rfl) h.initializer h.condition h.increment h.body
    have hdeclared := Resolver.declared?_eq_none htree (.inr rfl)
    obtain ⟨hvalue, hstands, -⟩ := Resolver.node_follows l.tree htree (fun _ => houter) [] s hs
    rw [Site.after_eq_self hdeclared] at hvalue hstands
    exact ⟨hvalue, hstands⟩
  located := tree_locate h outer
  bound name value hvalue := l.scopes_site hvalue outer
  undeclared := h.after (l.site outer)

theorem Fits.shares {ok : Token → Prop} {l : ForLoop} (h : l.Fits ok) {mode : Mode}
    (hmode : mode.byDistance = true) {outer : Site} {depth : Nat} {place : Place} {m m₁ : Machine}
    {first : Node} {value : Value}
    (hv : Visit.Ready ⟨depth + 1, place, .node (l.tree.locate outer false), m⟩)
    (hfirst : (l.locate outer).initializer = some first)
    (hrun : eval mode depth first (m.nest ⟨.empty, some m.environment⟩) = .ok value m₁) :
    l.Shares mode ⟨depth + 1, place, .node (l.tree.locate outer false), m⟩
      ⟨depth, .inner, .node (.loop (l.locate outer).guard (l.locate outer).padded.turn), m₁⟩ := by
  have htree : l.tree.locate outer false =
      .block [first, .loop (l.locate outer).guard (l.locate outer).padded.turn] := by
    rw [tree_locate h, tree_block _ (by rw [initializer_padded, hfirst]), guard_padded]
  rw [htree] at hv ⊢
  have hblock : Enters mode
      ⟨depth + 1, place, .node (.block [first, .loop (l.locate outer).guard
        (l.locate outer).padded.turn]), m⟩ _ := .block
  have hcomes : Comes mode _ _ := .head hblock (.head (.later hrun) (.single .statement))
  obtain ⟨site, -, hrunning, ⟨hscoped, -⟩, hsite⟩ := (hblock.goesOn hmode hv).ready
  have hleads := (((executes hmode depth).node ⟨hscoped, .inr hsite⟩ hrunning).of_ok hrun).2.1
  have hstart : Visit.Within ⟨depth, .inner, .node (.loop (l.locate outer).guard
      (l.locate outer).padded.turn), m₁⟩ (l.site outer) m.store.environments.size [] := by
    refine ⟨⟨l.site outer, .node (.loop l.guard l.turn), rfl, ?_, rfl, by simp⟩, ?_⟩
    · rw [Task.locate, loop_locate h]
    · exact congrArg Except.ok hleads.environment
  have hbelongs : ∀ w, Belongs mode _ w → w.Ready ∧ ∃ inner, w.Within (l.site outer) _ inner :=
    fun w hw => hw.within hmode (hcomes.ready hmode hv) hstart
  refine ⟨hcomes, fun name value hvalue => ?_, fun w hw => ?_,
    fun w hw => Ready.makes hmode (hbelongs w hw).1⟩
  · have hdeclared : first.declared? = some name.lexeme := by
      rw [locate, hvalue] at hfirst
      cases hfirst
      rfl
    exact (hleads.grows.has _ (by simp [Machine.nest, Store.newEnvironment]) _).2
      (.inr ⟨rfl, hdeclared⟩)
  · obtain ⟨hready, inner, hwithin⟩ := hbelongs w hw
    exact ⟨inner.length, hwithin.environment, fun name value hvalue =>
      hwithin.refers hready (l.scopes_site hvalue outer) (List.mem_singleton_self _)⟩

end ForLoop

namespace Session

open Eval

/-- Nothing is around the globals when execution comes to a visit. -/
theorem Visited.outermost {s : Session} {mode : Mode} {v : Visit} (h : s.Visited mode v) :
    (v.machine.store.environment Store.globals).enclosing = none := by
  induction h with
  | @run s source nodes v hs hexecuted hcomes =>
    have hfirst : (s.firstVisit nodes).Ready := hs.settled.ready_of_comes hexecuted .refl
    have hstable := (hcomes.goesOn rfl hfirst).2
    exact (hstable.enclosing _ hs.settled.sound.globals).trans hs.rooted
  | wait _ _ ih => exact ih
  | step _ _ ih => exact ih

/-- What is read as a `for` loop means what the rules say. Its variable is one binding for all
turns and for all functions that are made in them, and the block around body and increment can be
told by nothing. -/
theorem forStatement_meaning {depth : Nat} {tokens rest : List Token} {n : Node}
    (h : (Parser.forStatement depth tokens).result = .ok n rest) :
    ∃ l : ForLoop, l.ReadFrom depth tokens rest ∧ n = l.tree ∧
      (∀ outer : Site, outer.initializing = none → l.Resolves outer) ∧
      ∀ (s : Session) mode v outer depth, s.Visited mode v →
        v.task = .node (n.locate outer false) → v.depth = depth + 1 →
        (l.locate outer).Follows mode depth (n.locate outer false) v.machine ∧
        ∀ first value m, (l.locate outer).initializer = some first →
          eval mode depth first (v.machine.nest ⟨.empty, some v.machine.environment⟩) =
            .ok value m →
          l.Shares mode v ⟨depth, .inner,
            .node (.loop (l.locate outer).guard (l.locate outer).padded.turn), m⟩ := by
  obtain ⟨l, hread, rfl, hl⟩ := Parser.exists_of_forStatement h
  refine ⟨l, hread, rfl, fun outer houter => hl.resolves houter, ?_⟩
  rintro s mode ⟨_, place, task, m⟩ outer depth hv htask hdepth
  obtain rfl : task = _ := htask
  obtain rfl : _ = depth + 1 := hdepth
  obtain ⟨hmode, hready⟩ := hv.ready
  refine ⟨?_, fun first value m₁ hfirst hrun => hl.shares hmode hready hfirst hrun⟩
  have hbody : (l.locate outer).body.declared? = none :=
    (Node.declared?_locate _ _ _).trans hl.declared?
  obtain ⟨site, -, hrunning, hfit⟩ := hready
  rw [ForLoop.tree_locate hl] at hfit ⊢
  exact ForLoop.follows hmode hbody hrunning hv.outermost hfit depth

def sourceWithClosure : String :=
  "for (var i = true; i; i = false) \x7b fun f() \x7b i; \x7d f(); \x7d"

/-- What is read there. -/
def loopWithClosure : ForLoop where
  initializer := some (.varDecl ⟨.identifier, "i", .nil, 1⟩ (some (.literal (.bool true))))
  condition := some (.ident ⟨⟨.identifier, "i", .nil, 1⟩, none⟩)
  increment := some (.assign ⟨⟨.identifier, "i", .nil, 1⟩, none⟩ (.literal (.bool false)))
  body := .block
    [.function ⟨.identifier, "f", .nil, 1⟩ []
      [.expression (.ident ⟨⟨.identifier, "i", .nil, 1⟩, none⟩)],
    .expression (.call (.ident ⟨⟨.identifier, "f", .nil, 1⟩, none⟩) ⟨.rightParen, ")", .nil, 1⟩ [])]

set_option maxRecDepth 3000 in
theorem forStatement_meaning_closure :
    let mode := Session.mode {} true
    ∃ l : ForLoop, l.ReadFrom 9998 ((scan sourceWithClosure).tokens.drop 1) [⟨.eof, "", .nil, 1⟩] ∧
      l.Resolves {} ∧ ∃ v start, (Session.run {} sourceWithClosure).1.Visited mode v ∧
        v.task = .node (l.tree.locate {} false) ∧
        (l.locate {}).Follows mode 3999 (l.tree.locate {} false) v.machine ∧
        l.Shares mode v start := by
  intro mode
  have hread : (Parser.forStatement 9998 ((scan sourceWithClosure).tokens.drop 1)).result =
      .ok loopWithClosure.tree [⟨.eof, "", .nil, 1⟩] := by cbv
  have hexecuted : Session.executed? {} sourceWithClosure =
      some [loopWithClosure.tree.locate {} false] := by cbv
  obtain ⟨l, hclauses, htree, hresolves, hmeaning⟩ := forStatement_meaning hread
  have hvisited : (Session.run {} sourceWithClosure).1.Visited mode
      ⟨4000, {}, .node (loopWithClosure.tree.locate {} false), {}⟩ :=
    .run (.start {}) hexecuted (.single .statement)
  obtain ⟨hfollows, hshares⟩ := hmeaning _ _ _ {} 3999 hvisited rfl rfl
  have hinitializer : l.initializer = loopWithClosure.initializer := by
    rcases hfirst : l.initializer with _ | first
    · rw [l.tree_bare hfirst] at htree
      cases htree
    · rw [l.tree_block hfirst] at htree
      exact congrArg some (List.cons.inj (Node.block.inj htree)).1.symm
  have hlocated := congrArg (Node.locateOption (l.site {})) hinitializer
  rw [htree] at hvisited hfollows hshares
  exact ⟨l, hclauses, hresolves {} rfl, _, _, hvisited, rfl, hfollows,
    hshares _ _ _ hlocated rfl⟩

end Session

end Lox
