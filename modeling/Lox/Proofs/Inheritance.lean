import Mathlib.Tactic
import Lox.Store

/-!
# Which method a class has

A class has the method of the nearest class that declares one, going up from the class itself
(`Nearest`). The search for it is bounded by the number of classes, and needs no more: on the way to
a method that is found for the first time no class is passed twice, since from a class that was
passed before the method would have been found before (`FoundAt.lt`).
-/

namespace Lox

namespace Store

variable {s : Store} {name : String} {cls k : Nat}

/-- The class so many steps up. -/
def above? (s : Store) : (steps : Nat) → Nat → Option Nat
  | 0, cls => some cls
  | steps + 1, cls => ((s.class? cls).bind (·.superclass)).bind (s.above? steps)

/-- The method that the class itself has. -/
def ownMethod? (s : Store) (cls : Nat) (name : String) : Option Nat :=
  (s.class? cls).bind (·.methods.get? name)

/-- So many steps up is the first class that has the method. -/
def FoundAt (s : Store) (name : String) (cls steps k : Nat) : Prop :=
  (∃ c, s.above? steps cls = some c ∧ s.ownMethod? c name = some k) ∧
    ∀ i < steps, ∀ c, s.above? i cls = some c → s.ownMethod? c name = none

/-- The method is that of the nearest class that has one, up from the class. -/
def Nearest (s : Store) (cls : Nat) (name : String) (k : Nat) : Prop :=
  ∃ steps, s.FoundAt name cls steps k

theorem above?_add (i j : Nat) (cls : Nat) :
    s.above? (i + j) cls = (s.above? i cls).bind (s.above? j) := by
  induction i generalizing cls with
  | zero => simp [above?]
  | succ i ih =>
    rw [Nat.succ_add, above?, above?]
    rcases (s.class? cls).bind (·.superclass) with _ | parent
    · rfl
    · exact ih parent

theorem foundAt_zero : s.FoundAt name cls 0 k ↔ s.ownMethod? cls name = some k := by
  simp [FoundAt, above?]

theorem foundAt_succ {steps : Nat} : s.FoundAt name cls (steps + 1) k ↔
    s.ownMethod? cls name = none ∧
      ∃ parent, (s.class? cls).bind (·.superclass) = some parent ∧
        s.FoundAt name parent steps k := by
  constructor
  · rintro ⟨⟨c, hc, hk⟩, hbelow⟩
    obtain ⟨parent, hparent, hc⟩ := Option.bind_eq_some_iff.1 hc
    refine ⟨hbelow 0 (Nat.succ_pos steps) cls rfl, parent, hparent, ⟨c, hc, hk⟩, ?_⟩
    intro i hi d hd
    refine hbelow (i + 1) (Nat.succ_lt_succ hi) d ?_
    rw [above?, hparent]
    exact hd
  · rintro ⟨hown, parent, hparent, ⟨c, hc, hk⟩, hbelow⟩
    refine ⟨⟨c, ?_, hk⟩, fun i hi d hd => ?_⟩
    · rw [above?, hparent]
      exact hc
    · cases i with
      | zero =>
        cases hd
        exact hown
      | succ i =>
        rw [above?, hparent] at hd
        exact hbelow i (Nat.lt_of_succ_lt_succ hi) d hd

theorem findMethodWithin_eq_some_iff : ∀ {bound cls : Nat},
    s.findMethodWithin name bound cls = some k ↔ ∃ steps < bound, s.FoundAt name cls steps k
  | 0, cls => by simp [findMethodWithin]
  | bound + 1, cls => by
    rw [Nat.exists_lt_succ_left, foundAt_zero, findMethodWithin]
    simp only [foundAt_succ]
    rcases hc : s.class? cls with _ | c
    · simp [ownMethod?, hc]
    · rcases hmethod : c.methods.get? name with _ | method
      · rcases hparent : c.superclass with _ | parent
        · simp [ownMethod?, hc, hmethod, hparent]
        · simp [ownMethod?, hc, hmethod, hparent, findMethodWithin_eq_some_iff]
      · simp [ownMethod?, hc, hmethod]

/-- On the way to a class that has methods there is a class at each step. -/
theorem above?_lt {i steps c : Nat} (hi : i ≤ steps) (hc : s.above? steps cls = some c)
    (hk : s.ownMethod? c name = some k) :
    ∃ d < s.classes.size, s.above? i cls = some d ∧ s.above? (steps - i) d = some c := by
  rw [← Nat.add_sub_cancel' hi, above?_add] at hc
  obtain ⟨d, hd, hc⟩ := Option.bind_eq_some_iff.1 hc
  have hclass : ∃ e, s.class? d = some e := by
    rcases hleft : steps - i with _ | left <;> rw [hleft] at hc
    · cases hc
      obtain ⟨e, he, -⟩ := Option.bind_eq_some_iff.1 hk
      exact ⟨e, he⟩
    · obtain ⟨parent, hparent, -⟩ := Option.bind_eq_some_iff.1 hc
      obtain ⟨e, he, -⟩ := Option.bind_eq_some_iff.1 hparent
      exact ⟨e, he⟩
  obtain ⟨e, he⟩ := hclass
  exact ⟨d, (Array.getElem?_eq_some_iff.1 he).1, hd, hc⟩

/-- A first method is found before all classes were passed. -/
theorem FoundAt.lt {steps : Nat} (h : s.FoundAt name cls steps k) : steps < s.classes.size := by
  obtain ⟨⟨c, hc, hk⟩, hbelow⟩ := h
  have hway : ∀ i : Fin (steps + 1), ∃ d : Fin s.classes.size,
      s.above? i cls = some d ∧ s.above? (steps - i) d = some c := by
    intro i
    obtain ⟨d, hlt, hd⟩ := above?_lt (Nat.lt_succ_iff.1 i.isLt) hc hk
    exact ⟨⟨d, hlt⟩, hd⟩
  choose way hway using hway
  -- from a class that was passed before, the method would have been found before
  have hne : ∀ a b : Fin (steps + 1), a < b → way a ≠ way b := by
    intro a b hab hsame
    have hearlier : s.above? (a + (steps - b)) cls = some c := by
      rw [above?_add, (hway a).1, hsame]
      exact (hway b).2
    rw [hbelow _ (by omega) c hearlier] at hk
    cases hk
  have hinjective : Function.Injective way := by
    intro a b hsame
    rcases lt_trichotomy a b with hab | hab | hab
    · exact absurd hsame (hne a b hab)
    · exact hab
    · exact absurd hsame.symm (hne b a hab)
  simpa using Fintype.card_le_of_injective way hinjective

theorem findMethod?_eq_some_iff : s.findMethod? cls name = some k ↔ s.Nearest cls name k := by
  rw [findMethod?, findMethodWithin_eq_some_iff]
  constructor
  · rintro ⟨steps, -, hfound⟩
    exact ⟨steps, hfound⟩
  · rintro ⟨steps, hfound⟩
    exact ⟨steps, hfound.lt.trans (Nat.lt_succ_self _), hfound⟩

theorem Nearest.unique {k' : Nat} (h : s.Nearest cls name k) (h' : s.Nearest cls name k') :
    k = k' :=
  Option.some.inj ((findMethod?_eq_some_iff.2 h).symm.trans (findMethod?_eq_some_iff.2 h'))

end Store

end Lox
