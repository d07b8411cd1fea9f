import Mathlib.Tactic
import Lox.Proofs.CallFrame
import Lox.Proofs.Shifted

/-!
# The rules of `for` loops

What a `for` loop means, without the blocks and the `while` loop it is read as: the initializer is
run once, in an environment of its own, and then turn after turn is made in that environment
(`Loop.Runs`). The rules say of each part what is done when it does not come to its end. They leave
no choice, so that there is one way in which a loop can run (`Loop.runs_iff`).

A `ForLoop` is made of the clauses and the body that were read. Where the tree that it is read as
gets its distances, the clauses and the body get those that they have without the block around body
and increment, and one more for what is outside of them if there is that block
(`ForLoop.tree_locate`).
-/

namespace Lox

/-- How a computation ended: with its value or in a signal. -/
def Eval.ending {α : Type} : EStateM.Result Signal Machine α → Except Signal α
  | .ok a _ => .ok a
  | .error signal _ => .error signal

open Eval (machineAfter inEnvironment ending bind_ok bind_error)

/-- The computations that a loop is made of. -/
structure Loop where
  initializer : Option (Eval Value)
  condition : Option (Eval Value)
  increment : Option (Eval Value)
  body : Eval Value

namespace Loop

section Rules

variable (l : Loop)

/-- An absent condition is true. -/
def test : Eval Value := l.condition.getD (return .bool true)

/-- An absent increment does nothing. -/
def step : Eval Value := l.increment.getD (return .nil)

/-- At most so many turns, from one machine to another. What stops them is the signal in which some
part ends, or else a condition that does not hold. -/
inductive Turns : (count : Nat) → Machine → Except Signal Unit → Machine → Prop
  | tooMany {m : Machine} : Turns 0 m (.error .exhausted) m
  | condition {count : Nat} {signal : Signal} {m m' : Machine} : l.test m = .error signal m' →
    Turns (count + 1) m (.error signal) m'
  | stop {count : Nat} {v : Value} {m m' : Machine} : l.test m = .ok v m' →
    v.isTruthy = false → Turns (count + 1) m (.ok ()) m'
  | body {count : Nat} {v : Value} {signal : Signal} {m m₁ m' : Machine} : l.test m = .ok v m₁ →
    v.isTruthy = true → l.body m₁ = .error signal m' → Turns (count + 1) m (.error signal) m'
  | increment {count : Nat} {v w : Value} {signal : Signal} {m m₁ m₂ m' : Machine} :
    l.test m = .ok v m₁ → v.isTruthy = true → l.body m₁ = .ok w m₂ →
    l.step m₂ = .error signal m' → Turns (count + 1) m (.error signal) m'
  | again {count : Nat} {v w u : Value} {e : Except Signal Unit} {m m₁ m₂ m₃ m' : Machine} :
    l.test m = .ok v m₁ → v.isTruthy = true → l.body m₁ = .ok w m₂ → l.step m₂ = .ok u m₃ →
    Turns count m₃ e m' → Turns (count + 1) m e m'

/-- A run of the loop. With an initializer it is in a new environment, which is left at the end. -/
inductive Runs (count : Nat) : Machine → Except Signal Unit → Machine → Prop
  | bare {e : Except Signal Unit} {m m' : Machine} : l.initializer = none →
    Turns l count m e m' → Runs count m e m'
  | initializer {first : Eval Value} {signal : Signal} {m m' : Machine} :
    l.initializer = some first → first (m.nest ⟨.empty, some m.environment⟩) = .error signal m' →
    Runs count m (.error signal) { m' with environment := m.environment }
  | turns {first : Eval Value} {v : Value} {e : Except Signal Unit} {m m₁ m' : Machine} :
    l.initializer = some first → first (m.nest ⟨.empty, some m.environment⟩) = .ok v m₁ →
    Turns l count m₁ e m' → Runs count m e { m' with environment := m.environment }

/-- The turns as a computation. -/
def turns (count : Nat) : Eval Unit := Eval.repeatWhile l.test (l.body >>= fun _ => l.step) count

/-- The loop as a computation. -/
def run (count : Nat) : Eval Unit :=
  match l.initializer with
  | none => l.turns count
  | some first => do
    let outer := (← get).environment
    let inner ← Eval.alloc (·.newEnvironment ⟨.empty, some outer⟩)
    Eval.within inner do
      let _ ← first
      l.turns count

end Rules

variable {l : Loop} {count : Nat} {m m' : Machine} {e : Except Signal Unit}

theorem turns_of_test {v : Value} (h : l.test m = .ok v m') (htruthy : v.isTruthy = true) :
    l.turns (count + 1) m = (l.body >>= fun _ => l.step >>= fun _ => l.turns count) m' := by
  refine (Eval.repeatWhile_condition h).trans ?_
  rw [if_pos htruthy, bind_assoc]
  rfl

theorem turns_of_falsy {v : Value} (h : l.test m = .ok v m') (hfalsy : v.isTruthy = false) :
    l.turns (count + 1) m = .ok () m' := by
  refine (Eval.repeatWhile_condition h).trans ?_
  rw [hfalsy]
  rfl

theorem turns_of_error {signal : Signal} (h : l.test m = .error signal m') :
    l.turns (count + 1) m = .error signal m' := bind_error h

theorem turns_turns (l : Loop) (count : Nat) (m : Machine) :
    l.Turns count m (ending (l.turns count m)) (machineAfter (l.turns count m)) := by
  induction count generalizing m with
  | zero => exact .tooMany
  | succ count ih =>
    rcases htest : l.test m with ⟨v, m₁⟩ | ⟨signal, m₁⟩
    · rcases htruthy : v.isTruthy with _ | _
      · rw [turns_of_falsy htest htruthy]
        exact .stop htest htruthy
      · rw [turns_of_test htest htruthy]
        rcases hbody : l.body m₁ with ⟨w, m₂⟩ | ⟨signal, m₂⟩
        · rw [bind_ok hbody]
          rcases hstep : l.step m₂ with ⟨u, m₃⟩ | ⟨signal, m₃⟩
          · rw [bind_ok hstep]
            exact .again htest htruthy hbody hstep (ih m₃)
          · rw [bind_error hstep]
            exact .increment htest htruthy hbody hstep
        · rw [bind_error hbody]
          exact .body htest htruthy hbody
    · rw [turns_of_error htest]
      exact .condition htest

theorem Turns.eq (h : l.Turns count m e m') :
    e = ending (l.turns count m) ∧ m' = machineAfter (l.turns count m) := by
  induction h with
  | tooMany => exact ⟨rfl, rfl⟩
  | condition htest =>
    rw [turns_of_error htest]
    exact ⟨rfl, rfl⟩
  | stop htest hfalsy =>
    rw [turns_of_falsy htest hfalsy]
    exact ⟨rfl, rfl⟩
  | body htest htruthy hbody =>
    rw [turns_of_test htest htruthy, bind_error hbody]
    exact ⟨rfl, rfl⟩
  | increment htest htruthy hbody hstep =>
    rw [turns_of_test htest htruthy, bind_ok hbody, bind_error hstep]
    exact ⟨rfl, rfl⟩
  | again htest htruthy hbody hstep _ ih =>
    rw [turns_of_test htest htruthy, bind_ok hbody, bind_ok hstep]
    exact ih

theorem run_bare (h : l.initializer = none) : l.run count = l.turns count := by
  rw [run, h]

theorem run_within {first : Eval Value} (h : l.initializer = some first) (m : Machine) :
    l.run count m = Eval.within m.store.environments.size (first >>= fun _ => l.turns count)
      { m with store := (m.store.newEnvironment ⟨.empty, some m.environment⟩).2 } := by
  rw [run, h]
  rfl

theorem run_turns {first : Eval Value} (h : l.initializer = some first) (m : Machine) :
    l.run count m = inEnvironment m.environment
      ((first >>= fun _ => l.turns count) (m.nest ⟨.empty, some m.environment⟩)) := by
  rw [run_within h, Eval.within]
  rcases hrun : (first >>= fun _ => l.turns count) (m.nest ⟨.empty, some m.environment⟩) with
    ⟨u, m'⟩ | ⟨signal, m'⟩ <;> rw [Machine.nest] at hrun <;>
    rw [show m.store.environments.size =
      (m.store.newEnvironment ⟨.empty, some m.environment⟩).1 from rfl, hrun] <;> rfl

theorem ending_inEnvironment {α : Type} (environment : Nat)
    (r : EStateM.Result Signal Machine α) : ending (inEnvironment environment r) = ending r := by
  cases r <;> rfl

theorem machineAfter_inEnvironment {α : Type} (environment : Nat)
    (r : EStateM.Result Signal Machine α) :
    machineAfter (inEnvironment environment r) = { machineAfter r with environment } := by
  cases r <;> rfl

/-- The rules leave no choice. -/
theorem runs_iff : l.Runs count m e m' ↔
    e = ending (l.run count m) ∧ m' = machineAfter (l.run count m) := by
  constructor
  · intro h
    cases h with
    | bare hnone hturns =>
      rw [run_bare hnone]
      exact hturns.eq
    | initializer hsome hfirst =>
      rw [run_turns hsome, bind_error hfirst]
      exact ⟨rfl, rfl⟩
    | turns hsome hfirst hturns =>
      obtain ⟨rfl, rfl⟩ := hturns.eq
      rw [run_turns hsome, bind_ok hfirst, ending_inEnvironment, machineAfter_inEnvironment]
      exact ⟨rfl, rfl⟩
  · rintro ⟨rfl, rfl⟩
    rcases hfirst : l.initializer with _ | first
    · rw [run_bare hfirst]
      exact .bare hfirst (turns_turns l count m)
    · rw [run_turns hfirst, ending_inEnvironment, machineAfter_inEnvironment]
      rcases hrun : first (m.nest ⟨.empty, some m.environment⟩) with ⟨v, m₁⟩ | ⟨signal, m₁⟩
      · rw [bind_ok hrun]
        exact .turns hfirst hrun (turns_turns l count m₁)
      · rw [bind_error hrun]
        exact .initializer hfirst hrun

end Loop

/-- The clauses and the body of a loop as they are read. -/
structure ForLoop where
  initializer : Option Node
  condition : Option Node
  increment : Option Node
  body : Node

namespace ForLoop

section Syntax

variable (l : ForLoop)

/-- The tree that the loop is read as. -/
def tree : Node := .forLoop l.initializer l.condition l.increment l.body

/-- The condition that the tree repeats. -/
def guard : Node := l.condition.getD (.literal (.bool true))

/-- The body that the tree repeats. -/
def turn : Node := l.increment.elim l.body fun n => .block [l.body, .expression n]

/-- The clauses and the body are what the grammar has there. -/
structure Fits (ok : Token → Prop) : Prop where
  initializer : Node.FitsOption ok .declaration l.initializer
  condition : Node.FitsOption ok .expression l.condition
  increment : Node.FitsOption ok .expression l.increment
  body : l.body.Fits ok .statement

/-- Where the condition, the increment and the body stand: in the scope of the initializer. -/
def site (outer : Site) : Site := l.initializer.elim outer (outer.inside []).after

/-- The clauses and the body with the distances that they have there. -/
def locate (outer : Site) : ForLoop where
  initializer := Node.locateOption (l.site outer) l.initializer
  condition := Node.locateOption (l.site outer) l.condition
  increment := Node.locateOption (l.site outer) l.increment
  body := l.body.locate (l.site outer) false

/-- The loop with one more scope around body and increment, if there is an increment. -/
def padded : ForLoop :=
  if l.increment.isSome then
    { l with increment := Node.shiftOption (· + 1) l.increment, body := l.body.shift (· + 1) }
  else l

/-- How deep the condition may nest in a loop whose initializer may nest so deep. -/
def conditionDepth (depth : Nat) : Nat := if l.initializer.isSome then depth - 1 else depth

/-- How deep the body and the increment may nest. -/
def bodyDepth (depth : Nat) : Nat :=
  if l.increment.isSome then l.conditionDepth depth - 1 else l.conditionDepth depth

/-- The parts of the loop, to be run. The increment is run as an expression statement. -/
def parts (mode : Mode) (depth : Nat) : Loop where
  initializer := l.initializer.map (Eval.eval mode depth)
  condition := l.condition.map (Eval.eval mode (l.conditionDepth depth))
  increment := l.increment.map fun n => Eval.eval mode (l.bodyDepth depth) (.expression n)
  body := Eval.eval mode (l.bodyDepth depth) l.body

theorem scopes_site {name : Token} {value : Option Node}
    (h : l.initializer = some (.varDecl name value)) (outer : Site) :
    (l.site outer).scopes = [name.lexeme] :: outer.scopes := by
  rw [site, h]
  rfl

theorem tree_bare (h : l.initializer = none) : l.tree = .loop l.guard l.turn := by
  obtain ⟨_, _, increment, _⟩ := l
  obtain rfl := h
  cases increment <;> rfl

theorem tree_block {first : Node} (h : l.initializer = some first) :
    l.tree = .block [first, .loop l.guard l.turn] := by
  obtain ⟨_, _, increment, _⟩ := l
  obtain rfl := h
  cases increment <;> rfl

@[simp] theorem initializer_padded : l.padded.initializer = l.initializer := by
  unfold padded
  split <;> rfl

@[simp] theorem guard_padded : l.padded.guard = l.guard := by
  unfold padded
  split <;> rfl

theorem turn_padded_bare (h : l.increment = none) : l.padded.turn = l.body := by
  simp [padded, turn, h]

theorem turn_padded_block {step : Node} (h : l.increment = some step) :
    l.padded.turn = .block [l.body.shift (· + 1), .expression (step.shift (· + 1))] := by
  simp [padded, turn, h, Node.shiftOption]

end Syntax

/-- The clauses and the body are what is read one after the other, each by its own rule. -/
inductive ReadFrom (l : ForLoop) : (depth : Nat) → (tokens rest : List Token) → Prop
  | clauses {depth : Nat} {opening semicolon closing : Token} {ts us vs ws rest : List Token} :
    opening.kind = .leftParen → (Parser.forInitializer depth ts).result = .ok l.initializer us →
    (Parser.expressionUnless .semicolon depth us).result = .ok l.condition (semicolon :: vs) →
    semicolon.kind = .semicolon →
    (Parser.expressionUnless .rightParen depth vs).result = .ok l.increment (closing :: ws) →
    closing.kind = .rightParen → (Parser.statement depth ws).result = .ok l.body rest →
    ReadFrom l (depth + 1) (opening :: ts) rest

end ForLoop

namespace Parser

variable {α β : Type} {p : Parser α} {tokens rest : List Token}

theorem exists_of_bind_ok {f : α → Parser β} {b : β}
    (h : ((p >>= f) tokens).result = .ok b rest) :
    ∃ a middle, (p tokens).result = .ok a middle ∧ (f a middle).result = .ok b rest := by
  rcases hp : p tokens with ⟨complaints, ⟨a, middle⟩ | middle | _ | _⟩ <;>
    simp only [Bind.bind, Parser.bind, hp] at h
  · exact ⟨a, middle, rfl, h⟩
  all_goals cases h

theorem expect_ok {kind : TokenKind} {problem : Problem} {t : Token}
    (h : (expect kind problem tokens).result = .ok t rest) : t.kind = kind ∧ tokens = t :: rest := by
  cases tokens with
  | nil => cases h
  | cons first more =>
    by_cases hkind : first.kind = kind <;>
      simp only [expect, Bind.bind, Parser.bind, accept?, List.mem_singleton, hkind] at h <;>
      cases h
    exact ⟨hkind, rfl⟩

theorem Yields.of_ok {Q : α → Prop} {a : α} (h : Yields (fun _ => True) p Q)
    (hok : (p tokens).result = .ok a rest) : Q a := by
  have hsatisfies := h tokens fun _ _ => trivial
  rw [hok] at hsatisfies
  exact hsatisfies.2

/-- All that is read as a loop is the tree of one. -/
theorem exists_of_forStatement {depth : Nat} {n : Node}
    (h : (forStatement depth tokens).result = .ok n rest) :
    ∃ l : ForLoop, l.ReadFrom depth tokens rest ∧ n = l.tree ∧ l.Fits fun _ => True := by
  cases depth with
  | zero => cases h
  | succ depth =>
    rw [forStatement] at h
    obtain ⟨opening, ts, hopening, h⟩ := exists_of_bind_ok h
    obtain ⟨initializer, us, hinitializer, h⟩ := exists_of_bind_ok h
    obtain ⟨condition, us', hcondition, h⟩ := exists_of_bind_ok h
    obtain ⟨semicolon, vs, hsemicolon, h⟩ := exists_of_bind_ok h
    obtain ⟨increment, vs', hincrement, h⟩ := exists_of_bind_ok h
    obtain ⟨closing, ws, hclosing, h⟩ := exists_of_bind_ok h
    obtain ⟨body, _, hbody, h⟩ := exists_of_bind_ok h
    cases h
    obtain ⟨hleft, rfl⟩ := expect_ok hopening
    obtain ⟨hend, rfl⟩ := expect_ok hsemicolon
    obtain ⟨hright, rfl⟩ := expect_ok hclosing
    exact ⟨⟨initializer, condition, increment, body⟩, .clauses hleft hinitializer hcondition hend
      hincrement hright hbody, rfl, yields_forInitializer.of_ok hinitializer,
      yields_expressionUnless.of_ok hcondition, yields_expressionUnless.of_ok hincrement,
      (statementsFit depth).statement.of_ok hbody⟩

end Parser

namespace ForLoop

variable {ok : Token → Prop} {l : ForLoop} (h : l.Fits ok)

include h

theorem Fits.declared? : l.body.declared? = none := Resolver.declared?_eq_none h.body (.inr rfl)

/-- The block around body and increment declares nothing, so that the increment stands where the
body does. -/
theorem Fits.after (outer : Site) : (outer.inside []).after l.body = outer.inside [] :=
  Site.after_eq_self h.declared?

/-- The block puts what is outside of body and increment one scope further out. -/
theorem turn_locate (outer : Site) :
    l.turn.locate (l.site outer) false = (l.locate outer).padded.turn := by
  have hmoved : ∀ {n : Node} {role : Role}, n.Fits ok role →
      n.locate ((l.site outer).inside []) false = (n.locate (l.site outer) false).shift (· + 1) :=
    fun hn => Node.locate_eq_shift false hn (l.site outer).moved_inside_nil
  rcases hincrement : l.increment with _ | step
  · rw [turn_padded_bare _ (by rw [locate, hincrement]; rfl), turn, hincrement]
    rfl
  · have hstep : step.Fits ok .expression := by
      have hstep := h.increment
      rwa [hincrement] at hstep
    rw [turn_padded_block _ (by rw [locate, hincrement]; rfl), turn, hincrement]
    show Node.block (Node.locateAll _ _) = _
    rw [Node.locateAll, h.after, hmoved h.body, Node.locateAll,
      Site.after_eq_self (n := .expression step) rfl, Node.locate, hmoved hstep, Node.locateAll]
    rfl

theorem loop_locate (outer : Site) : (Node.loop l.guard l.turn).locate (l.site outer) false =
    .loop (l.locate outer).guard (l.locate outer).padded.turn := by
  have hguard : l.guard.locate (l.site outer) false = (l.locate outer).guard := by
    rw [guard, guard, locate]
    cases l.condition <;> rfl
  rw [Node.locate, hguard, turn_locate h]

theorem tree_locate (outer : Site) :
    l.tree.locate outer false = (l.locate outer).padded.tree := by
  have hloop : (Node.loop l.guard l.turn).locate (l.site outer) false =
      .loop (l.locate outer).padded.guard (l.locate outer).padded.turn := by
    rw [loop_locate h, guard_padded]
  rcases hfirst : l.initializer with _ | first
  · have hnone : (l.locate outer).padded.initializer = none := by
      rw [initializer_padded, locate, hfirst]
      rfl
    rw [site, hfirst] at hloop
    rw [tree_bare _ hfirst, tree_bare _ hnone]
    exact hloop
  · have hsome : (l.locate outer).padded.initializer =
        some (first.locate (l.site outer) false) := by
      rw [initializer_padded, locate, hfirst]
      rfl
    have hsite : (outer.inside []).after first = l.site outer := by
      rw [site, hfirst]
      rfl
    rw [tree_block _ hfirst, tree_block _ hsome, ← hloop, Node.locate, Node.locateAll,
      Node.locateAll, hsite, Site.after_eq_self (n := .loop l.guard l.turn) rfl, Node.locateAll]

end ForLoop

end Lox
