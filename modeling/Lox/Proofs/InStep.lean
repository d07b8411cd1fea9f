import Mathlib.Tactic
import Lox.Proofs.CallFrame
import Lox.Proofs.Padded
import Lox.Proofs.Simulation

/-!
# Padded machines run in step

A `Couple` is two machines, the first of them padded. Two computations run in step on a couple
(`Sims`) when both end with a value or both in the same signal, and the machines they leave are
padded as before. There is a rule for sequences and one for each operation of the machine.
-/

namespace Lox

namespace Padding

structure Couple where
  /-- The environments that stand for one another. -/
  links : Nat → Nat → Prop
  left : Machine
  right : Machine

namespace Couple

structure Agrees (p : Couple) : Prop where
  store : Padded p.links p.left.store p.right.store
  printed : p.right.printed = p.left.printed
  now : p.right.now = p.left.now

def Onward (p q : Couple) : Prop :=
  Padding.Onward p.links p.left.store p.right.store q.links q.left.store q.right.store

/-- The value means the same to both machines. -/
def Shares (p : Couple) (v : Value) : Prop := Padding.Shares p.links p.left.store p.right.store v

/-- The machines are running where the first has this padding around it. -/
def Stands (p : Couple) (L : List Bool) : Prop :=
  Along p.links p.left.store p.right.store L p.left.environment p.right.environment

/-- Both computations gave the same value. -/
def Same (v w : Value) (p : Couple) : Prop := w = v ∧ p.Shares v

/-- The machines came to be from others, and are back in their environments. -/
structure Reaches (p q : Couple) : Prop where
  agrees : q.Agrees
  onward : p.Onward q
  left : q.left.environment = p.left.environment
  right : q.right.environment = p.right.environment

/-- The couple in other environments. -/
def inside (p : Couple) (env env' : Nat) : Couple :=
  ⟨p.links, { p.left with environment := env }, { p.right with environment := env' }⟩

/-- The couple with other stores. -/
def withStores (p : Couple) (links : Nat → Nat → Prop) (s s' : Store) : Couple :=
  ⟨links, { p.left with store := s }, { p.right with store := s' }⟩

variable {p q r : Couple} {L : List Bool}

theorem Agrees.inside (h : p.Agrees) (env env' : Nat) : (p.inside env env').Agrees :=
  ⟨h.store, h.printed, h.now⟩

theorem Reaches.refl (h : p.Agrees) : p.Reaches p := ⟨h, .refl _ _ _, rfl, rfl⟩

theorem Reaches.trans (h : p.Reaches q) (h' : q.Reaches r) : p.Reaches r :=
  ⟨h'.agrees, Padding.Onward.trans h.onward h'.onward, h'.left.trans h.left, h'.right.trans h.right⟩

theorem Agrees.reaches (h : p.Agrees) {links : Nat → Nat → Prop} {s s' : Store}
    (hstores : Padded links s s')
    (honward : Padding.Onward p.links p.left.store p.right.store links s s') :
    p.Reaches (p.withStores links s s') :=
  ⟨⟨hstores, h.printed, h.now⟩, honward, rfl, rfl⟩

theorem Stands.reaches (h : p.Stands L) (hp : p.Agrees) (hq : p.Reaches q) : q.Stands L := by
  unfold Stands
  rw [hq.left, hq.right]
  exact Along.onward hp.store hq.onward h

theorem Shares.reaches {v : Value} (h : p.Shares v) (hp : p.Agrees) (hq : p.Reaches q) :
    q.Shares v :=
  Padding.Shares.onward hp.store hq.onward h

end Couple

/-! ## Sequences -/

section Rules

open Eval Couple

variable {α β γ δ : Type} {p q : Couple} {L : List Bool}

/-- The computations end alike. -/
def Sims (x : Eval α) (y : Eval β) (p : Couple) (P : α → β → Couple → Prop) : Prop :=
  match x p.left, y p.right with
  | .ok a m, .ok b m' => ∃ R, p.Reaches ⟨R, m, m'⟩ ∧ P a b ⟨R, m, m'⟩
  | .error signal m, .error signal' m' => signal' = signal ∧ ∃ R, Agrees ⟨R, m, m'⟩ ∧
      p.Onward ⟨R, m, m'⟩ ∧ ∀ v, signal = .returning v → Couple.Shares ⟨R, m, m'⟩ v
  | _, _ => False

variable {x : Eval α} {y : Eval β} {P : α → β → Couple → Prop}

theorem sims_of_ok {a : α} {b : β} (hx : x p.left = .ok a q.left) (hy : y p.right = .ok b q.right)
    (hq : p.Reaches q) (hP : P a b q) : Sims x y p P := by
  rw [Sims, hx, hy]
  exact ⟨q.links, hq, hP⟩

theorem sims_of_error (signal : Signal) (hx : x p.left = .error signal p.left)
    (hy : y p.right = .error signal p.right) (hp : p.Agrees)
    (hvalue : ∀ v, signal = .returning v → p.Shares v) : Sims x y p P := by
  rw [Sims, hx, hy]
  exact ⟨rfl, p.links, hp, .refl _ _ _, hvalue⟩

theorem sims_of_runtimeError {e : RuntimeError} (hx : x p.left = .error (.error e) p.left)
    (hy : y p.right = .error (.error e) p.right) (hp : p.Agrees) : Sims x y p P :=
  sims_of_error _ hx hy hp (by simp)

theorem sims_of_fault {f : Fault} (hx : x p.left = .error (.fault f) p.left)
    (hy : y p.right = .error (.fault f) p.right) (hp : p.Agrees) : Sims x y p P :=
  sims_of_error _ hx hy hp (by simp)

theorem sims_pure {a : α} {b : β} (hp : p.Agrees) (hP : P a b p) : Sims (pure a) (pure b) p P :=
  sims_of_ok rfl rfl (.refl hp) hP

theorem Sims.mono {Q : α → β → Couple → Prop} (h : Sims x y p P)
    (hPQ : ∀ a b q, p.Reaches q → P a b q → Q a b q) : Sims x y p Q := by
  unfold Sims at h ⊢
  split at h
  · obtain ⟨R, hq, hP⟩ := h
    exact ⟨R, hq, hPQ _ _ _ hq hP⟩
  · exact h
  · exact h.elim

/-- What goes on from a couple that was reached ends as it does from there. -/
theorem Sims.after {x' : Eval α} {y' : Eval β} (hx : x p.left = x' q.left)
    (hy : y p.right = y' q.right) (hq : p.Reaches q) (h : Sims x' y' q P) : Sims x y p P := by
  unfold Sims at h ⊢
  rw [hx, hy]
  split at h
  · obtain ⟨R, hr, hP⟩ := h
    exact ⟨R, hq.trans hr, hP⟩
  · obtain ⟨hsignal, R, hr, honward, hvalue⟩ := h
    exact ⟨hsignal, R, hr, Padding.Onward.trans hq.onward honward, hvalue⟩
  · exact h.elim

theorem Sims.bind {k : α → Eval γ} {l : β → Eval δ} {Q : γ → δ → Couple → Prop} (h : Sims x y p P)
    (hk : ∀ a b q, p.Reaches q → P a b q → Sims (k a) (l b) q Q) :
    Sims (x >>= k) (y >>= l) p Q := by
  unfold Sims at h
  rcases hx : x p.left with ⟨a, m⟩ | ⟨signal, m⟩ <;>
    rcases hy : y p.right with ⟨b, m'⟩ | ⟨signal', m'⟩ <;> rw [hx, hy] at h
  · obtain ⟨R, hq, hP⟩ := h
    exact .after (bind_ok hx) (bind_ok hy) hq (hk _ _ _ hq hP)
  · exact h.elim
  · exact h.elim
  · rw [Sims, bind_error hx, bind_error hy]
    exact h

/-- A value that is dropped for another does not matter. -/
theorem Sims.drop (h : Sims x y p P) (c : γ) :
    Sims (x >>= fun _ => pure c) y p fun a _ _ => a = c := by
  rw [← bind_pure y]
  exact h.bind fun _ _ q hq _ => sims_pure hq.agrees rfl

theorem sims_throw {signal : Signal} (hp : p.Agrees)
    (hvalue : ∀ v, signal = .returning v → p.Shares v) :
    Sims (throw signal : Eval α) (throw signal : Eval β) p P :=
  sims_of_error signal rfl rfl hp hvalue

theorem sims_fault {f : Fault} (hp : p.Agrees) :
    Sims (fault f : Eval α) (fault f : Eval β) p P :=
  sims_throw hp (by simp)

theorem sims_checkToken (t : Token) (hp : p.Agrees) :
    Sims (checkToken t) (checkToken t) p fun _ _ q => q = p := by
  unfold checkToken
  split
  · exact sims_fault hp
  · exact sims_pure hp rfl

theorem sims_fail {t : Token} {cause : RuntimeError.Cause} (hp : p.Agrees) :
    Sims (fail t cause : Eval α) (fail t cause : Eval β) p P :=
  (sims_checkToken t hp).bind fun _ _ _ hq _ => sims_throw hq.agrees (by simp)

theorem sims_get (hp : p.Agrees) (k : Machine → Eval γ) (l : Machine → Eval δ)
    {Q : γ → δ → Couple → Prop} (h : Sims (k p.left) (l p.right) p Q) :
    Sims (get >>= k) (get >>= l) p Q :=
  Sims.after (bind_ok rfl) (bind_ok rfl) (.refl hp) h

/-! ## Names -/

/-- What is read at the distances that stand for one another is the same. -/
theorem sims_getAt (k : Nat) (name : String) (hp : p.Agrees) (hL : p.Stands L) :
    Sims (getAt (hops L k) name) (getAt k name) p fun v w q => q = p ∧ Same v w q := by
  rcases Along.environmentAt hp.store hL k with ⟨found, found', hfound, hfound', hR⟩ | ⟨he, he'⟩
  · have hget := hp.store.get?_eq hR name
    rcases hv : (p.left.store.environment found).bindings.get? name with _ | v <;> rw [hv] at hget
    · exact sims_of_fault (f := .unbound name) (by simp [getAt, Store.getAt, hfound, hv])
        (by simp [getAt, Store.getAt, hfound', hget]) hp
    · exact sims_of_ok (by simp only [getAt, Store.getAt, hfound, hv])
        (by simp only [getAt, Store.getAt, hfound', hget]) (.refl hp)
        ⟨rfl, rfl, hp.store.bindings _ _ name v hR hv⟩
  · exact sims_of_fault (f := .noEnvironment) (by simp [getAt, Store.getAt, he])
      (by simp [getAt, Store.getAt, he']) hp

/-- A value is defined in environments that stand for one another. -/
theorem sims_store {x y : Eval Unit} {found found' : Nat} (name : String) {v : Value}
    (hp : p.Agrees) (hR : p.links found found') (hv : p.Shares v)
    (hx : x p.left = .ok () { p.left with store := p.left.store.define found name v })
    (hy : y p.right = .ok () { p.right with store := p.right.store.define found' name v }) :
    Sims x y p fun _ _ q => q.left.store = p.left.store.define found name v :=
  sims_of_ok (q := p.withStores p.links _ _) hx hy
    (hp.reaches (hp.store.define hR hv) (onward_define ..)) rfl

theorem sims_define (name : Token) {v : Value} (hp : p.Agrees) (hL : p.Stands L)
    (hhead : L.head? ≠ some true) (hv : p.Shares v) :
    Sims (define name v) (define name v) p fun _ _ q =>
      q.left.store.Has q.left.environment name.lexeme := by
  refine (sims_checkToken name hp).bind fun _ _ q _ heq => ?_
  subst heq
  have hR := Along.related hp.store hL hhead
  refine (sims_store _ hp hR hv rfl rfl).mono fun _ _ r hr hstore => ?_
  rw [hr.left, hstore]
  exact (Store.has_define _ _ _ _ (hp.store.related _ _ hR).1 _).2 (.inr ⟨rfl, rfl⟩)

section References

variable {mode : Mode} (hmode : mode.byDistance = true)

include hmode

theorem sims_lookup (r : Reference) (hp : p.Agrees) (hL : p.Stands L) :
    Sims (lookup mode (r.shift (hops L))) (lookup mode r) p Same := by
  refine (sims_checkToken r.name hp).bind fun _ _ q _ heq => ?_
  subst heq
  rw [Eval.hops_eq hmode, Eval.hops_eq hmode]
  rcases hhops : r.hops with _ | k <;> simp only [Reference.shift, hhops, Option.map]
  · have hleft := Store.get_globals hp.store.outermost r.name
    have hright := Store.get_globals hp.store.outermost' r.name
    rw [hp.store.get?_eq hp.store.globals] at hright
    rcases hv : (q.left.store.environment Store.globals).bindings.get? r.name.lexeme with _ | v <;>
      rw [hv] at hleft hright
    · exact sims_of_runtimeError (by rw [hleft]) (by rw [hright]) hp
    · exact sims_of_ok (by rw [hleft]) (by rw [hright]) (.refl hp)
        ⟨rfl, hp.store.bindings _ _ r.name.lexeme v hp.store.globals hv⟩
  · exact (sims_getAt k r.name.lexeme hp hL).mono fun _ _ _ _ hv => hv.2

/-- A binding is held by environments that stand for one another, or by none on either side. -/
theorem holder_cases (r : Reference) (hp : p.Agrees) (hL : p.Stands L) :
    (∃ found found', holder mode (r.shift (hops L)) p.left = .ok found ∧
      holder mode r p.right = .ok found' ∧ p.links found found') ∨
    ∃ signal, holder mode (r.shift (hops L)) p.left = .error signal ∧
      holder mode r p.right = .error signal ∧ ∀ v, signal ≠ .returning v := by
  have hcontains : ∀ {found found' : Nat}, p.links found found' →
      (p.right.store.environment found').bindings.contains r.name.lexeme =
        (p.left.store.environment found).bindings.contains r.name.lexeme := fun hR => by
    rw [(hp.store.related _ _ hR).2.2]
  simp only [holder, Eval.hops_eq hmode, Reference.shift]
  rcases r.hops with _ | k <;> simp only [Option.map]
  · rw [Store.holder_globals hp.store.outermost, Store.holder_globals hp.store.outermost',
      hcontains hp.store.globals]
    split
    · exact .inl ⟨_, _, rfl, rfl, hp.store.globals⟩
    · exact .inr ⟨_, rfl, rfl, by simp⟩
  · simp only [Store.holderAt]
    rcases Along.environmentAt hp.store hL k with ⟨found, found', hfound, hfound', hR⟩ | ⟨he, he'⟩
    · simp only [hfound, hfound', hcontains hR]
      split
      · exact .inl ⟨_, _, rfl, rfl, hR⟩
      · exact .inr ⟨_, rfl, rfl, by simp⟩
    · simp only [he, he']
      exact .inr ⟨_, rfl, rfl, by simp⟩

theorem sims_assign (r : Reference) {v : Value} (hp : p.Agrees) (hL : p.Stands L)
    (hv : p.Shares v) :
    Sims (assign mode (r.shift (hops L)) v) (assign mode r v) p fun _ _ _ => True := by
  refine (sims_checkToken r.name hp).bind fun _ _ q _ heq => ?_
  subst heq
  rcases holder_cases hmode r hp hL with ⟨found, found', hfound, hfound', hR⟩ |
    ⟨signal, herror, herror', hsignal⟩
  · exact (sims_store r.name.lexeme hp hR hv (by simp only [hfound]; rfl)
      (by simp only [hfound'])).mono
      fun _ _ _ _ _ => trivial
  · exact sims_of_error signal (by simp only [herror]) (by simp only [herror']) hp
      fun w hw => absurd hw (hsignal w)

end References

/-! ## Objects -/

/-- A method is bound on both sides. -/
theorem sims_bind {f f' : Closure} {receiver : Value} (hp : p.Agrees)
    (hf : Matches p.links p.left.store p.right.store [false] f f') (hreceiver : p.Shares receiver) :
    Sims (alloc (·.bind f receiver)) (alloc (·.bind f' receiver)) p fun id id' q =>
      Same (.function id) (.function id') q := by
  obtain ⟨hid, honward, hpadded, hshares⟩ := hp.store.bind hf hreceiver
  exact sims_of_ok (q := p.withStores _ _ _) rfl rfl (hp.reaches hpadded honward)
    ⟨congrArg _ hid, hshares⟩

theorem sims_getProperty (inst : Nat) (name : Token) (hp : p.Agrees) :
    Sims (getProperty inst name) (getProperty inst name) p Same := by
  refine (sims_checkToken name hp).bind fun _ _ q _ heq => ?_
  subst heq
  rcases hp.store.property inst name with ⟨v, hv, hv', hshares⟩ | ⟨f, f', hf, hf', hmatches⟩ |
    ⟨e, he, he'⟩
  · exact sims_of_ok (by rw [hv]) (by rw [hv']) (.refl hp) ⟨rfl, hshares⟩
  · have hbind := (sims_bind hp hmatches (show q.Shares (.inst inst) from trivial)).bind
      fun id id' r hr hv => sims_pure (P := Same) (a := .function id) (b := .function id') hr.agrees
        hv
    exact hbind.after (by rw [hf]; rfl) (by rw [hf']; rfl) (.refl hp)
  · exact sims_of_runtimeError (by rw [he]) (by rw [he']) hp

theorem sims_setProperty (inst : Nat) (name : Token) {v : Value} (hp : p.Agrees)
    (hv : p.Shares v) :
    Sims (setProperty inst name v) (setProperty inst name v) p fun _ _ _ => True := by
  refine (sims_checkToken name hp).bind fun _ _ q _ heq => ?_
  subst heq
  exact sims_of_ok (q := q.withStores q.links _ _) rfl rfl
    (hp.reaches (hp.store.setField hv inst) ⟨.of_eq rfl rfl, .of_eq rfl rfl, fun _ _ h => h⟩)
    trivial

/-- What ends without objects ends alike. -/
theorem sims_ofExcept {result : Except Signal Value} (hp : p.Agrees) (h : EndsPlainly result) :
    Sims (Eval.ofExcept result) (Eval.ofExcept result) p Same := by
  rcases result with signal | v
  · exact sims_of_error signal rfl rfl hp fun w hw => absurd hw (h w)
  · refine sims_of_ok rfl rfl (.refl hp) ⟨rfl, ?_⟩
    cases v with
    | function id => cases h
    | _ => trivial

/-! ## Environments and functions -/

theorem sims_newEnvironment {table : Table Value} {outer outer' : Nat} (hp : p.Agrees)
    (hL : Along p.links p.left.store p.right.store L outer outer')
    (hvalues : ∀ name v, table.get? name = some v → p.Shares v) :
    Sims (alloc (·.newEnvironment ⟨table, some outer⟩))
      (alloc (·.newEnvironment ⟨table, some outer'⟩)) p fun env env' q =>
        Along q.links q.left.store q.right.store (false :: L) env env' :=
  sims_of_ok (q := p.withStores _ _ _) rfl rfl
    (hp.reaches (hp.store.newEnvironment table outer outer' hvalues) (onward_newEnvironment ..))
    (hL.newEnvironment hp.store rfl rfl)

theorem sims_newFunction {f f' : Closure} {missing : List Bool} (hp : p.Agrees)
    (hf : Matches p.links p.left.store p.right.store missing f f') :
    Sims (alloc (·.newFunction f)) (alloc (·.newFunction f')) p fun id id' q => id' = id ∧
      ∃ f f', q.left.store.closure? id = some f ∧ q.right.store.closure? id = some f' ∧
        Matches q.links q.left.store q.right.store missing f f' := by
  have honward := onward_newFunction p.links p.left.store p.right.store f f'
  refine sims_of_ok (q := p.withStores p.links _ _) rfl rfl
    (hp.reaches (hp.store.newFunction f f') honward)
    ⟨hp.store.functions, f, f', ?_, ?_, hf.onward hp.store honward⟩
  · exact (Store.closure?_newFunction _ _ _).trans (if_pos rfl)
  · exact (Store.closure?_newFunction _ _ _).trans (if_pos hp.store.functions.symm)

/-- What is run in other environments leaves the couple in its own. -/
theorem sims_within {env env' : Nat} {Q : α → β → Couple → Prop} (h : Sims x y (p.inside env env') P)
    (hPQ : ∀ a b q, P a b q → Q a b (q.inside p.left.environment p.right.environment)) :
    Sims (within env x) (within env' y) p Q := by
  unfold Sims at h ⊢
  unfold within
  rw [show x { p.left with environment := env } = x (p.inside env env').left from rfl,
    show y { p.right with environment := env' } = y (p.inside env env').right from rfl]
  rcases hx : x (p.inside env env').left with ⟨a, m⟩ | ⟨signal, m⟩ <;>
    rcases hy : y (p.inside env env').right with ⟨b, m'⟩ | ⟨signal', m'⟩ <;> rw [hx, hy] at h
  · obtain ⟨R, hq, hP⟩ := h
    exact ⟨R, ⟨hq.agrees.inside _ _, hq.onward, rfl, rfl⟩, hPQ _ _ _ hP⟩
  · exact h.elim
  · exact h.elim
  · obtain ⟨hsignal, R, hq, honward, hvalue⟩ := h
    exact ⟨hsignal, R, hq.inside _ _, honward, hvalue⟩

/-- What the first machine alone runs in another environment leaves it in its own. -/
theorem sims_withinLeft {env : Nat} {Q : α → β → Couple → Prop}
    (h : Sims x y (p.inside env p.right.environment) P)
    (hPQ : ∀ a b q, P a b q → Q a b (q.inside p.left.environment q.right.environment)) :
    Sims (within env x) y p Q := by
  unfold Sims at h ⊢
  unfold within
  rw [show x { p.left with environment := env } = x (p.inside env p.right.environment).left from rfl,
    show y p.right = y (p.inside env p.right.environment).right from rfl]
  rcases hx : x (p.inside env p.right.environment).left with ⟨a, m⟩ | ⟨signal, m⟩ <;>
    rcases hy : y (p.inside env p.right.environment).right with ⟨b, m'⟩ | ⟨signal', m'⟩ <;>
    rw [hx, hy] at h
  · obtain ⟨R, hq, hP⟩ := h
    exact ⟨R, ⟨hq.agrees.inside _ m'.environment, hq.onward, rfl, hq.right⟩, hPQ _ _ _ hP⟩
  · exact h.elim
  · exact h.elim
  · obtain ⟨hsignal, R, hq, honward, hvalue⟩ := h
    exact ⟨hsignal, R, hq.inside _ m'.environment, honward, hvalue⟩

/-- A `return` from what is run in other environments is caught. -/
theorem sims_catchReturn {env env' : Nat} {x y : Eval Value}
    (h : Sims x y (p.inside env env') Same) :
    Sims (catchReturn (within env x)) (catchReturn (within env' y)) p Same := by
  have hwithin := sims_within (Q := Same) h fun _ _ _ hv => hv
  unfold Sims at hwithin ⊢
  unfold catchReturn
  rcases hx : within env x p.left with ⟨a, m⟩ | ⟨signal, m⟩ <;>
    rcases hy : within env' y p.right with ⟨b, m'⟩ | ⟨signal', m'⟩ <;> rw [hx, hy] at hwithin
  · exact hwithin
  · exact hwithin.elim
  · exact hwithin.elim
  · obtain ⟨rfl, R, hq, honward, hvalue⟩ := hwithin
    cases signal' with
    | returning v =>
      exact ⟨R, ⟨hq, honward, environment_within hx, environment_within hy⟩, rfl, hvalue v rfl⟩
    | _ => exact ⟨rfl, R, hq, honward, hvalue⟩

/-! ## Declarations -/

theorem sims_methodEnvironment (hp : p.Agrees) (hL : p.Stands L) :
    ∀ parent : Option Nat, Sims (methodEnvironment parent) (methodEnvironment parent) p
      fun inner inner' q => Along q.links q.left.store q.right.store
        (parent.elim L fun _ => false :: L) inner inner'
  | none => sims_get hp _ _ (sims_pure hp hL)
  | some parent => by
    refine sims_get hp _ _ (sims_newEnvironment hp hL fun name v hv => ?_)
    rw [Table.get?_insert] at hv
    split at hv
    · cases hv
      trivial
    · simp at hv

theorem sims_newClass {name : String} {parent : Option Nat} {table : Table Nat} (hp : p.Agrees)
    (htable : MethodsMatch p.links p.left.store p.right.store table) :
    Sims (alloc (·.newClass ⟨name, parent, table⟩)) (alloc (·.newClass ⟨name, parent, table⟩)) p
      fun id id' _ => id' = id :=
  sims_of_ok (q := p.withStores p.links _ _) rfl rfl
    (hp.reaches (hp.store.newClass htable) ⟨.of_eq rfl rfl, .of_eq rfl rfl, fun _ _ h => h⟩)
    (congrArg Array.size hp.store.classes)

theorem sims_newInstance (hp : p.Agrees) (cls : Nat) :
    Sims (alloc (·.newInstance ⟨cls, .empty⟩)) (alloc (·.newInstance ⟨cls, .empty⟩)) p
      fun id id' _ => id' = id :=
  sims_of_ok (q := p.withStores p.links _ _) rfl rfl
    (hp.reaches (hp.store.newInstance cls) ⟨.of_eq rfl rfl, .of_eq rfl rfl, fun _ _ h => h⟩)
    (congrArg Array.size hp.store.instances)

/-- What is run in environments that are entered, and then left for those before. -/
theorem sims_entered {env env' : Nat} {k : α → Eval γ} {l : β → Eval δ} {Q : γ → δ → Couple → Prop}
    (h : Sims x y (p.inside env env') P)
    (hk : ∀ a b q, p.Reaches (q.inside p.left.environment p.right.environment) → P a b q →
      Sims (k a) (l b) (q.inside p.left.environment p.right.environment) Q) :
    Sims (enter env >>= fun _ => x >>= fun a => enter p.left.environment >>= fun _ => k a)
      (enter env' >>= fun _ => y >>= fun b => enter p.right.environment >>= fun _ => l b) p Q := by
  have hleft : (enter env >>= fun _ => x >>= fun a =>
      enter p.left.environment >>= fun _ => k a) p.left =
      (x >>= fun a => enter p.left.environment >>= fun _ => k a) (p.inside env env').left := rfl
  have hright : (enter env' >>= fun _ => y >>= fun b =>
      enter p.right.environment >>= fun _ => l b) p.right =
      (y >>= fun b => enter p.right.environment >>= fun _ => l b) (p.inside env env').right := rfl
  unfold Sims at h
  rcases hx : x (p.inside env env').left with ⟨a, m⟩ | ⟨signal, m⟩ <;>
    rcases hy : y (p.inside env env').right with ⟨b, m'⟩ | ⟨signal', m'⟩ <;> rw [hx, hy] at h
  · obtain ⟨R, hq, hP⟩ := h
    have hr : p.Reaches (Couple.inside ⟨R, m, m'⟩ p.left.environment p.right.environment) :=
      ⟨hq.agrees.inside _ _, hq.onward, rfl, rfl⟩
    have hleft' := hleft.trans (bind_ok hx)
    have hright' := hright.trans (bind_ok hy)
    exact .after (q := Couple.inside ⟨R, m, m'⟩ p.left.environment p.right.environment) hleft'
      hright' hr (hk a b ⟨R, m, m'⟩ hr hP)
  · exact h.elim
  · exact h.elim
  · rw [Sims, hleft, hright, bind_error hx, bind_error hy]
    exact h

/-- A class is stored under its name where it was declared. -/
theorem sims_assignNearest (name : Token) {v : Value} (hp : p.Agrees) (hL : p.Stands L)
    (hhead : L.head? ≠ some true) (hhas : p.left.store.Has p.left.environment name.lexeme)
    (hv : p.Shares v) :
    Sims (assignNearest name v) (assignNearest name v) p fun _ _ _ => True := by
  have hR := Along.related hp.store hL hhead
  have hhas' : p.right.store.Has p.right.environment name.lexeme := by
    rw [Store.Has, (hp.store.related _ _ hR).2.2]
    exact hhas
  exact (sims_store _ hp hR hv (assignNearest_eq (Store.holder_of_has hhas))
    (assignNearest_eq (Store.holder_of_has hhas'))).mono fun _ _ _ _ _ => trivial

theorem sims_print (hp : p.Agrees) (text : String) :
    Sims (print text) (print text) p fun _ _ _ => True :=
  sims_of_ok (q := ⟨p.links, { p.left with printed := p.left.printed.push text },
      { p.right with printed := p.right.printed.push text }⟩) rfl rfl
    ⟨⟨hp.store, by rw [hp.printed], hp.now⟩, .refl _ _ _, rfl, rfl⟩ trivial

theorem sims_callNative (hp : p.Agrees) (n : Native) (values : List Value) :
    Sims (callNative n values) (callNative n values) p Same := by
  unfold callNative
  split
  · have hread : p.left.now.read = p.right.now.read := by rw [hp.now]
    exact sims_of_ok (q := ⟨p.links, { p.left with now := p.left.now.read },
        { p.right with now := p.right.now.read }⟩) rfl rfl
      ⟨⟨hp.store, hp.printed, hread.symm⟩, .refl _ _ _, rfl, rfl⟩ ⟨by rw [hp.now], trivial⟩
  · exact sims_pure hp ⟨rfl, trivial⟩

/-- Turns are in step when their conditions and bodies are. -/
theorem sims_repeatWhile {condition condition' body body' : Eval Value}
    (hcondition : ∀ {q : Couple}, q.Agrees → q.Stands L → Sims condition condition' q Same)
    (hbody : ∀ {q : Couple}, q.Agrees → q.Stands L → Sims body body' q fun _ _ _ => True) :
    ∀ {count : Nat} {p : Couple}, p.Agrees → p.Stands L →
      Sims (repeatWhile condition body count) (repeatWhile condition' body' count) p
        fun _ _ _ => True
  | 0, p, hp, _ => sims_throw hp (by simp)
  | count + 1, p, hp, hL => by
    rw [repeatWhile, repeatWhile]
    refine (hcondition hp hL).bind fun v w q hq hv => ?_
    obtain ⟨rfl, -⟩ := hv
    have hL := hL.reaches hp hq
    split
    · exact (hbody hq.agrees hL).bind fun _ _ r hr _ =>
        sims_repeatWhile hcondition hbody hr.agrees (hL.reaches hq.agrees hr)
    · exact sims_pure hq.agrees trivial

end Rules

end Padding

end Lox
