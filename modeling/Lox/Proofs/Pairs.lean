import Mathlib.Tactic
import Lox.Proofs.Keeping
import Lox.Proofs.Twins

/-!
# Machines side by side

A `Pair` is two machines with the marks of their environments. Two computations simulate one
another on a pair (`Sims`) when both end in the same value, or both in signals that tell the same
up to the change, and leave twins either way. There is a rule for sequences, and one for each
operation of the machine.
-/

namespace Lox

structure Pair where
  marks : Nat → Bool
  left : Machine
  right : Machine

namespace Pair

/-- The machines are twins. -/
structure Twin (c : Change) (p : Pair) : Prop where
  store : Store.Twin c p.marks p.left.store p.right.store
  environment : p.right.environment = p.left.environment
  printed : p.right.printed = p.left.printed
  now : p.right.now = p.left.now

def Onward (p q : Pair) : Prop :=
  Store.Onward p.marks p.left.store p.right.store q.marks q.left.store q.right.store

/-- The value means the same to both machines. -/
def Shares (c : Change) (p : Pair) (v : Value) : Prop :=
  Store.Shares c p.marks p.left.store p.right.store v

/-- The machines are running where the scopes have the marks. -/
def Stands (p : Pair) (L : List Bool) : Prop :=
  p.left.store.Marked p.marks L p.left.environment

/-- Twins came to be from others, and are back in their environment. -/
structure Reaches (c : Change) (p q : Pair) : Prop where
  twin : q.Twin c
  onward : p.Onward q
  environment : q.left.environment = p.left.environment

/-- The pair in another environment. -/
def inside (p : Pair) (env : Nat) : Pair :=
  ⟨p.marks, { p.left with environment := env }, { p.right with environment := env }⟩

variable {c : Change} {p q r : Pair} {L : List Bool}

theorem Twin.inside (h : p.Twin c) (env : Nat) : (p.inside env).Twin c :=
  ⟨h.store, rfl, h.printed, h.now⟩

theorem Reaches.refl (h : p.Twin c) : p.Reaches c p := ⟨h, .refl _ _ _, rfl⟩

theorem Reaches.trans (h : p.Reaches c q) (h' : q.Reaches c r) : p.Reaches c r :=
  ⟨h'.twin, Store.Onward.trans h.onward h'.onward, h'.environment.trans h.environment⟩

theorem Stands.reaches (h : p.Stands L) (hq : p.Reaches c q) : q.Stands L := by
  unfold Stands
  rw [hq.environment]
  exact Store.Marked.onward hq.onward h

theorem Shares.reaches {v : Value} (h : p.Shares c v) (hq : p.Reaches c q) : q.Shares c v :=
  Store.Shares.onward hq.onward h

end Pair

/-! ## Signals -/

namespace Change

/-- The errors are at tokens that stand for one another, and say the same up to the name that
changes. -/
def ErrorTwin (c : Change) (e e' : RuntimeError) : Prop :=
  ∃ marked, c.Named marked e.token e'.token ∧
    (e'.cause = e.cause ∨ ∃ name, e.cause = .uninitializedVariable name ∧
      e'.cause = .uninitializedVariable (c.rename marked name))

def FaultTwin (c : Change) (f f' : Fault) : Prop :=
  f' = f ∨ ∃ marked name, f = .unbound name ∧ f' = .unbound (c.rename marked name)

def SignalTwin (c : Change) : Signal → Signal → Prop
  | .returning v, signal => signal = .returning v
  | .error e, signal => ∃ e', signal = .error e' ∧ c.ErrorTwin e e'
  | .fault f, signal => ∃ f', signal = .fault f' ∧ c.FaultTwin f f'
  | .exhausted, signal => signal = .exhausted

theorem errorTwin_of_alike {c : Change} {t t' : Token} (h : c.Alike t t')
    (cause : RuntimeError.Cause) : c.ErrorTwin ⟨t, cause⟩ ⟨t', cause⟩ :=
  ⟨false, named_of_alike h, .inl rfl⟩

end Change

namespace Eval

variable {α β : Type} {c : Change} {p q : Pair} {L : List Bool}

/-- The computations end alike, and leave twins. -/
def Sims (c : Change) (x y : Eval α) (p : Pair) (P : α → Pair → Prop) : Prop :=
  match x p.left, y p.right with
  | .ok a m, .ok a' m' => a' = a ∧ ∃ M, p.Reaches c ⟨M, m, m'⟩ ∧ P a ⟨M, m, m'⟩
  | .error signal m, .error signal' m' => c.SignalTwin signal signal' ∧
      ∃ M, Pair.Twin c ⟨M, m, m'⟩ ∧ p.Onward ⟨M, m, m'⟩ ∧
        ∀ v, signal = .returning v → Pair.Shares c ⟨M, m, m'⟩ v
  | _, _ => False

variable {x y : Eval α} {P : α → Pair → Prop}

theorem sims_of_ok {a : α} (hx : x p.left = .ok a q.left) (hy : y p.right = .ok a q.right)
    (hq : p.Reaches c q) (hP : P a q) : Sims c x y p P := by
  rw [Sims, hx, hy]
  exact ⟨rfl, q.marks, hq, hP⟩

theorem sims_of_error {signal signal' : Signal} (hx : x p.left = .error signal p.left)
    (hy : y p.right = .error signal' p.right) (hp : p.Twin c)
    (hsignal : c.SignalTwin signal signal')
    (hvalue : ∀ v, signal = .returning v → p.Shares c v) : Sims c x y p P := by
  rw [Sims, hx, hy]
  exact ⟨hsignal, p.marks, hp, .refl _ _ _, hvalue⟩

theorem sims_of_runtimeError {e e' : RuntimeError} (hx : x p.left = .error (.error e) p.left)
    (hy : y p.right = .error (.error e') p.right) (hp : p.Twin c) (he : c.ErrorTwin e e') :
    Sims c x y p P := sims_of_error hx hy hp ⟨e', rfl, he⟩ (by simp)

theorem sims_of_fault {f f' : Fault} (hx : x p.left = .error (.fault f) p.left)
    (hy : y p.right = .error (.fault f') p.right) (hp : p.Twin c) (hf : c.FaultTwin f f') :
    Sims c x y p P := sims_of_error hx hy hp ⟨f', rfl, hf⟩ (by simp)

theorem sims_pure {a : α} (hp : p.Twin c) (hP : P a p) : Sims c (pure a) (pure a) p P :=
  sims_of_ok rfl rfl (.refl hp) hP

theorem Sims.mono {Q : α → Pair → Prop} (h : Sims c x y p P)
    (hPQ : ∀ a q, p.Reaches c q → P a q → Q a q) : Sims c x y p Q := by
  unfold Sims at h ⊢
  split at h
  · obtain ⟨heq, M, hq, hP⟩ := h
    exact ⟨heq, M, hq, hPQ _ _ hq hP⟩
  · exact h
  · exact h.elim

/-- What goes on from a reached pair ends as it does from there. -/
theorem Sims.after {x' y' : Eval α} (hx : x p.left = x' q.left) (hy : y p.right = y' q.right)
    (hq : p.Reaches c q) (h : Sims c x' y' q P) : Sims c x y p P := by
  unfold Sims at h ⊢
  rw [hx, hy]
  split at h
  · obtain ⟨heq, M, hr, hP⟩ := h
    exact ⟨heq, M, hq.trans hr, hP⟩
  · obtain ⟨hsignal, M, hr, honward, hvalue⟩ := h
    exact ⟨hsignal, M, hr, Store.Onward.trans hq.onward honward, hvalue⟩
  · exact h.elim

theorem Sims.bind {k k' : α → Eval β} {Q : β → Pair → Prop} (h : Sims c x y p P)
    (hk : ∀ a q, p.Reaches c q → P a q → Sims c (k a) (k' a) q Q) :
    Sims c (x >>= k) (y >>= k') p Q := by
  unfold Sims at h
  rcases hx : x p.left with ⟨a, m⟩ | ⟨signal, m⟩ <;>
    rcases hy : y p.right with ⟨a', m'⟩ | ⟨signal', m'⟩ <;> rw [hx, hy] at h
  · obtain ⟨rfl, M, hq, hP⟩ := h
    exact .after (bind_ok hx) (bind_ok hy) hq (hk _ _ hq hP)
  · exact h.elim
  · exact h.elim
  · rw [Sims, bind_error hx, bind_error hy]
    exact h

theorem sims_throw {signal signal' : Signal} (hp : p.Twin c)
    (hsignal : c.SignalTwin signal signal')
    (hvalue : ∀ v, signal = .returning v → p.Shares c v) :
    Sims c (throw signal : Eval α) (throw signal') p P :=
  sims_of_error rfl rfl hp hsignal hvalue

theorem sims_fault {f : Fault} (hp : p.Twin c) : Sims c (fault f : Eval α) (fault f) p P :=
  sims_throw hp ⟨f, rfl, .inl rfl⟩ (by simp)

theorem sims_checkToken {t t' : Token} (hp : p.Twin c) (h : t'.isMissing = t.isMissing) :
    Sims c (checkToken t) (checkToken t') p fun _ q => q = p := by
  unfold checkToken
  rw [h]
  split
  · exact sims_fault hp
  · exact sims_pure hp rfl

theorem sims_fail {marked : Bool} {t t' : Token} {cause cause' : RuntimeError.Cause}
    (hp : p.Twin c) (ht : c.Named marked t t')
    (hcause : cause' = cause ∨ ∃ name, cause = .uninitializedVariable name ∧
      cause' = .uninitializedVariable (c.rename marked name)) :
    Sims c (fail t cause : Eval α) (fail t' cause') p P := by
  refine (sims_checkToken hp ht.isMissing_eq).bind fun _ q hq heq => ?_
  exact sims_throw hq.twin ⟨_, rfl, marked, ht, hcause⟩ (by simp)

theorem sims_get (hp : p.Twin c) (f f' : Machine → Eval β) {Q : β → Pair → Prop}
    (h : Sims c (f p.left) (f' p.right) p Q) : Sims c (get >>= f) (get >>= f') p Q :=
  Sims.after (bind_ok rfl) (bind_ok rfl) (.refl hp) h

/-! ## Names -/

/-- What is read so many environments out is shared, or not bound on either side. -/
theorem sims_getAt (hops : Nat) {name : String} (hp : p.Twin c) (hL : p.Stands L)
    (hname : Change.mark L (some hops) = true → name ≠ c.new) :
    Sims c (getAt hops name) (getAt hops (c.rename (Change.mark L (some hops)) name)) p
      fun v q => q = p ∧ q.Shares c v := by
  have hat := hp.store.environmentAt_eq hops p.left.environment
  rcases hfound : p.left.store.environmentAt hops p.left.environment with f | found
  · have hleft : getAt hops name p.left = .error (.fault f) p.left := by
      simp [getAt, Store.getAt, hfound]
    have hright : getAt hops (c.rename (Change.mark L (some hops)) name) p.right =
        .error (.fault f) p.right := by
      simp [getAt, Store.getAt, hat, hp.environment, hfound]
    exact sims_of_error hleft hright hp ⟨f, rfl, .inl rfl⟩ (by simp)
  · have hmark := Store.Marked.mark_eq hp.store hL hfound
    have hget := (hp.store.environments found).get?_eq name (by rwa [hmark])
    rw [hmark] at hget
    rcases hv : (p.left.store.environment found).bindings.get? name with _ | v
    · rw [hv] at hget
      have hleft : getAt hops name p.left = .error (.fault (.unbound name)) p.left := by
        simp [getAt, Store.getAt, hfound, hv]
      have hright : getAt hops (c.rename (Change.mark L (some hops)) name) p.right =
          .error (.fault (.unbound (c.rename (Change.mark L (some hops)) name))) p.right := by
        simp [getAt, Store.getAt, hat, hp.environment, hfound, hget]
      exact sims_of_error hleft hright hp ⟨_, rfl, .inr ⟨_, _, rfl, rfl⟩⟩ (by simp)
    · rw [hv] at hget
      have hleft : getAt hops name p.left = .ok v p.left := by
        simp [getAt, Store.getAt, hfound, hv]
      have hright : getAt hops (c.rename (Change.mark L (some hops)) name) p.right =
          .ok v p.right := by
        simp [getAt, Store.getAt, hat, hp.environment, hfound, hget]
      exact sims_of_ok hleft hright (.refl hp) ⟨rfl, hp.store.bindings found name v hv⟩

/-- Names that never change are read under any mark. -/
theorem sims_getAt_self (hops : Nat) {name : String} (hp : p.Twin c) (hL : p.Stands L)
    (hold : name ≠ c.old) (hnew : name ≠ c.new) :
    Sims c (getAt hops name) (getAt hops name) p fun v q => q = p ∧ q.Shares c v := by
  have h := sims_getAt hops hp hL fun _ => hnew
  rwa [Change.rename_of_ne hold] at h

/-- A value is defined in one environment on both sides. -/
theorem sims_store {x y : Eval Unit} (found : Nat) {name name' : Token} {v : Value}
    (hp : p.Twin c) (hname : c.Named (p.marks found) name name') (hv : p.Shares c v)
    (hx : x p.left =
      .ok () { p.left with store := p.left.store.define found name.lexeme v })
    (hy : y p.right =
      .ok () { p.right with store := p.right.store.define found name'.lexeme v }) :
    Sims c x y p fun _ q => q.left.store = p.left.store.define found name.lexeme v := by
  have htwin := hp.store.define found hname.fresh hv
  rw [← hname.lexeme] at htwin
  exact sims_of_ok (q := ⟨p.marks, _, _⟩) hx hy
    ⟨⟨htwin, hp.environment, hp.printed, hp.now⟩, Store.onward_define .., rfl⟩ rfl

theorem sims_define {name name' : Token} {v : Value} (hp : p.Twin c) (hL : p.Stands L)
    (hname : c.Named (L.headD false) name name') (hv : p.Shares c v) :
    Sims c (define name v) (define name' v) p fun _ q =>
      q.left.store.Has q.left.environment name.lexeme := by
  refine (sims_checkToken hp hname.isMissing_eq).bind fun _ q _ heq => ?_
  subst heq
  rw [← Store.Marked.headD_eq hp.store hL] at hname
  refine (sims_store _ hp hname hv rfl (by rw [← hp.environment])).mono fun _ r hr hstore => ?_
  rw [hr.environment, hstore]
  exact (Store.has_define _ _ _ _ (Store.Marked.lt hp.store hL) _).2 (.inr ⟨rfl, rfl⟩)

section References

variable {mode : Mode} (hmode : mode.byDistance = true)

include hmode

theorem sims_lookup {r r' : Reference} (hp : p.Twin c) (hL : p.Stands L) (hr : c.Refers L r r') :
    Sims c (lookup mode r) (lookup mode r') p fun v q => q.Shares c v := by
  refine (sims_checkToken hp hr.named.isMissing_eq).bind fun _ q _ heq => ?_
  subst heq
  rw [hops_eq hmode, hops_eq hmode, hr.hops]
  have hnamed := hr.named
  rcases hhops : r.hops with _ | hops <;> rw [hhops] at hnamed <;> simp only
  · have hlexeme := c.lexeme_eq hnamed.alike_of_false
    have hleft := Store.get_globals hp.store.outermost r.name
    have hright := Store.get_globals hp.store.outermost' r'.name
    rw [hlexeme, hp.store.get?_globals] at hright
    rcases hv : (q.left.store.environment Store.globals).bindings.get? r.name.lexeme with _ | v <;>
      rw [hv] at hleft hright
    · exact sims_of_runtimeError (by rw [hleft]) (by rw [hright]) hp
        (Change.errorTwin_of_alike hnamed.alike_of_false _)
    · exact sims_of_ok (by rw [hleft]) (by rw [hright]) (.refl hp)
        (hp.store.bindings Store.globals r.name.lexeme v hv)
  · rw [hnamed.lexeme]
    exact (sims_getAt hops hp hL hnamed.fresh).mono fun _ _ _ hv => hv.2

/-- A value is stored in one environment on both sides, or in none on either. -/
theorem sims_assign {r r' : Reference} {v : Value} (hp : p.Twin c) (hL : p.Stands L)
    (hr : c.Refers L r r') (hv : p.Shares c v) :
    Sims c (assign mode r v) (assign mode r' v) p fun _ _ => True := by
  refine (sims_checkToken hp hr.named.isMissing_eq).bind fun _ q _ heq => ?_
  subst heq
  have hnamed := hr.named
  rcases hhops : r.hops with _ | hops <;> rw [hhops] at hnamed
  · have hlexeme := c.lexeme_eq hnamed.alike_of_false
    have hcontains := hp.store.contains_globals r.name.lexeme
    have hleft : holder mode r q.left =
        (q.left.store.holder Store.globals r.name).mapError .error := by
      simp only [holder, hops_eq hmode, hhops]
    have hright : holder mode r' q.right =
        (q.right.store.holder Store.globals r'.name).mapError .error := by
      simp only [holder, hops_eq hmode, hr.hops, hhops]
    rw [Store.holder_globals hp.store.outermost] at hleft
    rw [Store.holder_globals hp.store.outermost', hlexeme, hcontains] at hright
    rcases hfound : (q.left.store.environment Store.globals).bindings.contains r.name.lexeme
      with _ | _ <;> rw [hfound] at hleft hright
    · exact sims_of_runtimeError (by rw [hleft]; rfl) (by rw [hright]; rfl) hp
        (Change.errorTwin_of_alike hnamed.alike_of_false _)
    · have hglobal : c.Named (q.marks Store.globals) r.name r'.name := by
        rw [hp.store.globals_marked]
        exact hnamed
      exact (sims_store Store.globals hp hglobal hv (by rw [hleft]; rfl) (by rw [hright]; rfl)).mono
        fun _ _ _ _ => trivial
  · have hat := hp.store.environmentAt_eq hops q.left.environment
    have hleft : holder mode r q.left =
        (q.left.store.holderAt hops q.left.environment r.name.lexeme).mapError .fault := by
      simp only [holder, hops_eq hmode, hhops]
    have hright : holder mode r' q.right =
        (q.right.store.holderAt hops q.left.environment r'.name.lexeme).mapError .fault := by
      simp only [holder, hops_eq hmode, hr.hops, hhops, hp.environment]
    rw [Store.holderAt] at hleft hright
    rw [hat] at hright
    rcases hfound : q.left.store.environmentAt hops q.left.environment with f | found <;>
      rw [hfound] at hleft hright <;> simp only at hleft hright
    · exact sims_of_fault (by rw [hleft]; rfl) (by rw [hright]; rfl) hp (.inl rfl)
    · have hmark := Store.Marked.mark_eq hp.store hL hfound
      rw [← hmark] at hnamed
      have hcontains := (hp.store.environments found).contains_eq r.name.lexeme hnamed.fresh
      rw [hnamed.lexeme, hcontains] at hright
      rcases hbound : (q.left.store.environment found).bindings.contains r.name.lexeme
        with _ | _ <;> rw [hbound] at hleft hright
      · exact sims_of_fault (by rw [hleft]; rfl) (by rw [hright]; rfl) hp
          (.inr ⟨_, _, rfl, rfl⟩)
      · exact (sims_store found hp hnamed hv (by rw [hleft]; rfl) (by rw [hright]; rfl)).mono
          fun _ _ _ _ => trivial

end References

/-! ## Objects -/

/-- A method is bound on both sides. -/
theorem sims_bind {f f' : Closure} {receiver : Value} (hp : p.Twin c)
    (hf : Store.Matches c p.marks p.left.store [false] f f') (hreceiver : p.Shares c receiver) :
    Sims c (alloc (·.bind f receiver)) (alloc (·.bind f' receiver)) p fun id q =>
      q.Shares c (.function id) := by
  obtain ⟨hid, honward, htwin, hshares⟩ := hp.store.bind hf hreceiver
  have hright : alloc (·.bind f' receiver) p.right = .ok (p.left.store.bind f receiver).1
      { p.right with store := (p.right.store.bind f' receiver).2 } := by
    rw [← hid]
    rfl
  exact sims_of_ok (q := ⟨_, { p.left with store := (p.left.store.bind f receiver).2 }, _⟩) rfl
    hright ⟨⟨htwin, hp.environment, hp.printed, hp.now⟩, honward, rfl⟩ hshares

theorem sims_getProperty {inst : Nat} {name name' : Token} (hp : p.Twin c)
    (hname : c.Alike name name') :
    Sims c (getProperty inst name) (getProperty inst name') p fun v q => q.Shares c v := by
  refine (sims_checkToken hp (Change.isMissing_eq hname)).bind fun _ q _ heq => ?_
  subst heq
  rcases hp.store.property hname inst with ⟨v, hv, hv', hshares⟩ | ⟨f, f', hf, hf', hmatches⟩ |
    ⟨cause, he, he'⟩
  · exact sims_of_ok (by rw [hv]) (by rw [hv']) (.refl hp) hshares
  · have hbind := (sims_bind hp hmatches (show q.Shares c (.inst inst) from trivial)).bind
      fun id r hr hv => sims_pure (P := fun v q => q.Shares c v) (a := .function id) hr.twin hv
    exact hbind.after (by rw [hf]; rfl) (by rw [hf']; rfl) (.refl hp)
  · exact sims_of_runtimeError (by rw [he]) (by rw [he']) hp (Change.errorTwin_of_alike hname _)

theorem sims_setProperty {inst : Nat} {name name' : Token} {v : Value} (hp : p.Twin c)
    (hname : c.Alike name name') (hv : p.Shares c v) :
    Sims c (setProperty inst name v) (setProperty inst name' v) p fun _ _ => True := by
  refine (sims_checkToken hp (Change.isMissing_eq hname)).bind fun _ q _ heq => ?_
  subst heq
  rw [c.lexeme_eq hname]
  exact sims_of_ok (q := ⟨_, { q.left with store := _ }, { q.right with store := _ }⟩) rfl rfl
    ⟨⟨hp.store.setField hv inst, hp.environment, hp.printed, hp.now⟩,
      Store.Onward.of_eq rfl rfl rfl, rfl⟩ trivial

/-- An operator that gives a value that is no object, or ends in the same error or fault. -/
theorem sims_ofExcept {operator operator' : Token} {result result' : Except Signal Value}
    (hp : p.Twin c) (hoperator : c.Alike operator operator')
    (h : (∃ v, result = .ok v ∧ result' = .ok v ∧ p.Shares c v) ∨
      (∃ cause, result = .error (.error ⟨operator, cause⟩) ∧
        result' = .error (.error ⟨operator', cause⟩)) ∨
      ∃ f, result = .error (.fault f) ∧ result' = .error (.fault f)) :
    Sims c (ofExcept result) (ofExcept result') p fun v q => q.Shares c v := by
  rcases h with ⟨v, rfl, rfl, hv⟩ | ⟨cause, rfl, rfl⟩ | ⟨f, rfl, rfl⟩
  · exact sims_of_ok rfl rfl (.refl hp) hv
  · exact sims_of_runtimeError rfl rfl hp (Change.errorTwin_of_alike hoperator cause)
  · exact sims_of_fault rfl rfl hp (.inl rfl)

/-- Operators see the kind of their token only. -/
theorem sims_binary {operator operator' : Token} (hp : p.Twin c)
    (h : c.Alike operator operator') (left right : Value) :
    Sims c (ofExcept (Operator.binary operator left right))
      (ofExcept (Operator.binary operator' left right)) p fun v q => q.Shares c v := by
  refine sims_ofExcept hp h ?_
  have hnumbers : ∀ f : Number → Number → Value, (∀ x y, p.Shares c (f x y)) →
      (∃ v, Operator.ofNumbers operator f left right = .ok v ∧
        Operator.ofNumbers operator' f left right = .ok v ∧ p.Shares c v) ∨
      (∃ cause, Operator.ofNumbers operator f left right = .error (.error ⟨operator, cause⟩) ∧
        Operator.ofNumbers operator' f left right = .error (.error ⟨operator', cause⟩)) ∨
      ∃ f', Operator.ofNumbers operator f left right = .error (.fault f') ∧
        Operator.ofNumbers operator' f left right = .error (.fault f') := by
    intro f hf
    unfold Operator.ofNumbers
    split
    · exact .inl ⟨_, rfl, rfl, hf _ _⟩
    · exact .inr (.inl ⟨_, rfl, rfl⟩)
  simp only [Operator.binary, c.kind_eq h]
  split
  case h_8 =>
    unfold Operator.add
    split
    case h_5 => exact .inr (.inl ⟨_, rfl, rfl⟩)
    all_goals exact .inl ⟨_, rfl, rfl, trivial⟩
  all_goals first
    | exact hnumbers _ fun _ _ => trivial
    | exact .inl ⟨_, rfl, rfl, trivial⟩
    | exact .inr (.inr ⟨_, rfl, rfl⟩)

theorem sims_unary {operator operator' : Token} (hp : p.Twin c)
    (h : c.Alike operator operator') (right : Value) :
    Sims c (ofExcept (Operator.unary operator right))
      (ofExcept (Operator.unary operator' right)) p fun v q => q.Shares c v := by
  refine sims_ofExcept hp h ?_
  simp only [Operator.unary, c.kind_eq h]
  split
  · exact .inl ⟨_, rfl, rfl, trivial⟩
  · split
    · exact .inl ⟨_, rfl, rfl, trivial⟩
    · exact .inr (.inl ⟨_, rfl, rfl⟩)
  · exact .inr (.inr ⟨_, rfl, rfl⟩)
  · exact .inr (.inr ⟨_, rfl, rfl⟩)

theorem sims_superMethod {mode : Mode} (hmode : mode.byDistance = true)
    {keyword keyword' : Reference} {method method' : Token} (hp : p.Twin c) (hL : p.Stands L)
    (hkeyword : keyword'.hops = keyword.hops) (hmethod : c.Alike method method') :
    Sims c (superMethod mode keyword method) (superMethod mode keyword' method') p
      fun v q => q.Shares c v := by
  unfold superMethod
  rw [hops_eq hmode, hops_eq hmode, hkeyword]
  rcases keyword.hops with _ | hops
  · exact sims_fault hp
  · refine (sims_getAt_self hops hp hL c.old_ne_super.symm c.new_ne_super.symm).bind
      fun parent q _ hparent => ?_
    obtain ⟨rfl, -⟩ := hparent
    refine (sims_getAt_self (hops - 1) hp hL c.old_ne_this.symm c.new_ne_this.symm).bind
      fun receiver q _ hreceiver => ?_
    obtain ⟨rfl, hreceiver⟩ := hreceiver
    cases parent with
    | cls id =>
      refine (sims_checkToken hp (Change.isMissing_eq hmethod)).bind fun _ r _ heq => ?_
      subst heq
      refine sims_get hp _ _ ?_
      rw [c.lexeme_eq hmethod]
      rcases hp.store.method? id method.lexeme with ⟨hf, hf'⟩ | ⟨f, f', hf, hf', hmatches⟩ <;>
        rw [hf, hf']
      · exact sims_fail hp (Change.named_of_alike hmethod) (.inl rfl)
      · exact (sims_bind hp hmatches hreceiver).bind fun id r hr hv => sims_pure hr.twin hv
    | _ => exact sims_fault hp

/-! ## Environments and functions -/

theorem sims_newEnvironment {marked : Bool} {e e' : Environment} {outer : Nat} (hp : p.Twin c)
    (he : c.EnvironmentTwin marked e e') (henclosing : e.enclosing = some outer)
    (hL : p.left.store.Marked p.marks L outer)
    (hvalues : ∀ name v, e.bindings.get? name = some v → p.Shares c v) :
    Sims c (alloc (·.newEnvironment e)) (alloc (·.newEnvironment e')) p fun id q =>
      q.left.store.Marked q.marks (marked :: L) id := by
  have htwin := hp.store.newEnvironment he hvalues
  have hright : alloc (·.newEnvironment e') p.right = .ok p.left.store.environments.size
      { p.right with store := (p.right.store.newEnvironment e').2 } := by
    rw [← hp.store.size]
    rfl
  exact sims_of_ok
    (q := ⟨_, { p.left with store := (p.left.store.newEnvironment e).2 }, _⟩) rfl hright
    ⟨⟨htwin, hp.environment, hp.printed, hp.now⟩, Store.onward_newEnvironment .., rfl⟩
    (hL.newEnvironment henclosing)

theorem sims_newFunction {f f' : Closure} {missing : List Bool} (hp : p.Twin c)
    (hf : Store.Matches c p.marks p.left.store missing f f') :
    Sims c (alloc (·.newFunction f)) (alloc (·.newFunction f')) p fun id q =>
      ∃ f f', q.left.store.closure? id = some f ∧ q.right.store.closure? id = some f' ∧
        Store.Matches c q.marks q.left.store missing f f' := by
  have hright : alloc (·.newFunction f') p.right = .ok p.left.store.functions.size
      { p.right with store := (p.right.store.newFunction f').2 } := by
    rw [← hp.store.functions]
    rfl
  have honward := Store.onward_newFunction p.marks p.left.store p.right.store f f'
  refine sims_of_ok
    (q := ⟨p.marks, { p.left with store := (p.left.store.newFunction f).2 }, _⟩) rfl hright
    ⟨⟨hp.store.newFunction f f', hp.environment, hp.printed, hp.now⟩, honward, rfl⟩
    ⟨f, f', ?_, ?_, hf.onward honward⟩
  · rw [Store.closure?_newFunction, if_pos rfl]
  · rw [Store.closure?_newFunction, if_pos hp.store.functions.symm]

/-- What is run in another environment leaves the pair in its own. -/
theorem sims_within {env : Nat} {Q : α → Pair → Prop} (hp : p.Twin c)
    (h : Sims c x y (p.inside env) P)
    (hPQ : ∀ a q, P a q → Q a (q.inside p.left.environment)) :
    Sims c (within env x) (within env y) p Q := by
  unfold Sims at h ⊢
  unfold within
  rw [show x { p.left with environment := env } = x (p.inside env).left from rfl,
    show y { p.right with environment := env } = y (p.inside env).right from rfl]
  rcases hx : x (p.inside env).left with ⟨a, m⟩ | ⟨signal, m⟩ <;>
    rcases hy : y (p.inside env).right with ⟨a', m'⟩ | ⟨signal', m'⟩ <;> rw [hx, hy] at h
  · obtain ⟨rfl, M, hq, hP⟩ := h
    rw [hp.environment]
    exact ⟨rfl, M, ⟨hq.twin.inside _, hq.onward, rfl⟩, hPQ _ _ hP⟩
  · exact h.elim
  · exact h.elim
  · obtain ⟨hsignal, M, hq, honward, hvalue⟩ := h
    rw [hp.environment]
    exact ⟨hsignal, M, hq.inside _, honward, hvalue⟩

/-- A `return` from what is run in another environment is caught in its own. -/
theorem sims_catchReturn {env : Nat} {x y : Eval Value} (hp : p.Twin c)
    (h : Sims c x y (p.inside env) fun v q => q.Shares c v) :
    Sims c (catchReturn (within env x)) (catchReturn (within env y)) p
      fun v q => q.Shares c v := by
  have hwithin := sims_within (Q := fun v q => q.Shares c v) hp h fun _ _ hv => hv
  unfold Sims at hwithin ⊢
  unfold catchReturn
  rcases hx : within env x p.left with ⟨a, m⟩ | ⟨signal, m⟩ <;>
    rcases hy : within env y p.right with ⟨a', m'⟩ | ⟨signal', m'⟩ <;> rw [hx, hy] at hwithin
  · exact hwithin
  · exact hwithin.elim
  · exact hwithin.elim
  · obtain ⟨hsignal, M, hq, honward, hvalue⟩ := hwithin
    have henv := environment_within hx
    cases signal with
    | returning v =>
      obtain rfl := hsignal
      exact ⟨rfl, M, ⟨hq, honward, henv⟩, hvalue v rfl⟩
    | error e =>
      obtain ⟨e', rfl, he⟩ := hsignal
      exact ⟨⟨e', rfl, he⟩, M, hq, honward, by simp⟩
    | fault f =>
      obtain ⟨f', rfl, hf⟩ := hsignal
      exact ⟨⟨f', rfl, hf⟩, M, hq, honward, by simp⟩
    | exhausted =>
      obtain rfl := hsignal
      exact ⟨rfl, M, hq, honward, by simp⟩

end Eval

end Lox
