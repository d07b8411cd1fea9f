import Mathlib.Tactic
import Lox.Proofs.Mapped
import Lox.Proofs.Twins

/-!
# Resolving trees that are alike

If a tree is resolved without complaints, then so is every tree that is alike, and it comes out
with the same distances (`resolve_retraces`). The scopes of the two resolutions are twins all
along: a marked scope has the new name where the other has the old one. The new name must not be
among the tokens of the tree, lest it be taken for what it hides.
-/

namespace Lox

namespace Change

variable {c : Change}

/-- The name is not the new one, if there is a new one. -/
def Fresh (c : Change) (name : String) : Prop := c.old = c.new ∨ name ≠ c.new

/-- Fresh names stay apart under any marks. -/
theorem eq_of_rename_eq {marked marked' : Bool} {name other : String} (hname : c.Fresh name)
    (hother : c.Fresh other) (h : c.rename marked name = c.rename marked' other) :
    name = other := by
  rcases hname with hsame | hname
  · have hid : ∀ b x, c.rename b x = x := by
      intro b x
      unfold rename
      split
      · rename_i hx
        rw [← hsame, hx.2]
      · rfl
    rwa [hid, hid] at h
  · have hother := hother.resolve_left
    unfold rename at h
    split at h <;> split at h <;> grind

structure ScopeTwin (c : Change) (marked : Bool) (scope scope' : Scope) : Prop where
  names : scope'.names = scope.names.rename (c.rename marked)
  fresh : ∀ name ∈ scope.names.names, c.Fresh name
  unused : ∀ name ∈ scope'.unused.names, ∃ other ∈ scope.unused.names,
    name = c.rename marked other

namespace ScopeTwin

variable {marked : Bool} {scope scope' : Scope} {name : String}

theorem apart (h : c.ScopeTwin marked scope scope') (hname : c.Fresh name) :
    scope.names.Apart (c.rename marked) name :=
  fun key hkey heq => eq_of_rename_eq (h.fresh key hkey) hname heq

theorem get?_eq (h : c.ScopeTwin marked scope scope') (hname : c.Fresh name) :
    scope'.names.get? (c.rename marked name) = scope.names.get? name := by
  rw [h.names, Table.get?_rename (h.apart hname)]

theorem contains_eq (h : c.ScopeTwin marked scope scope') (hname : c.Fresh name) :
    scope'.names.contains (c.rename marked name) = scope.names.contains name := by
  rw [Table.contains, h.get?_eq hname, Table.contains]

/-- A name that is not in the one scope is not in the other, whatever it is called there. -/
theorem not_contains (h : c.ScopeTwin marked scope scope') (hname : c.Fresh name)
    (hfree : scope.names.contains name = false) (other : Bool) :
    scope'.names.contains (c.rename other name) = false := by
  by_contra hcontains
  have hmem := Table.contains_iff_mem_names.1 (eq_true_of_ne_false hcontains)
  rw [h.names, Table.names_rename] at hmem
  obtain ⟨key, hkey, heq⟩ := List.mem_map.1 hmem
  obtain rfl := eq_of_rename_eq (h.fresh key hkey) hname heq
  rw [Table.contains_iff_mem_names.2 hkey] at hfree
  cases hfree

/-- A name is declared or defined in both scopes. -/
theorem insert (h : c.ScopeTwin marked scope scope') (hname : c.Fresh name) (finished : Bool) :
    c.ScopeTwin marked { scope with names := scope.names.insert name finished }
      { scope' with names := scope'.names.insert (c.rename marked name) finished } := by
  refine ⟨?_, fun key hkey => ?_, h.unused⟩
  · show scope'.names.insert _ finished = _
    rw [h.names, Table.insert_rename (h.apart hname)]
  · rcases Table.mem_names_insert.1 hkey with rfl | hkey
    · exact hname
    · exact h.fresh key hkey

theorem watch (h : c.ScopeTwin marked scope scope') {t t' : Token}
    (ht : t'.lexeme = c.rename marked t.lexeme) :
    c.ScopeTwin marked { scope with unused := scope.unused.insert t.lexeme t }
      { scope' with unused := scope'.unused.insert t'.lexeme t' } := by
  refine ⟨h.names, h.fresh, fun key hkey => ?_⟩
  rcases Table.mem_names_insert.1 hkey with rfl | hkey
  · exact ⟨t.lexeme, Table.mem_names_insert.2 (.inl rfl), ht⟩
  · obtain ⟨other, hother, heq⟩ := h.unused key hkey
    exact ⟨other, Table.mem_names_insert.2 (.inr hother), heq⟩

theorem erase (h : c.ScopeTwin marked scope scope') (name : String) :
    c.ScopeTwin marked { scope with unused := scope.unused.erase name }
      { scope' with unused := scope'.unused.erase (c.rename marked name) } := by
  refine ⟨h.names, h.fresh, fun key hkey => ?_⟩
  obtain ⟨hkey, hne⟩ := Table.mem_names_erase.1 hkey
  obtain ⟨other, hother, rfl⟩ := h.unused key hkey
  exact ⟨other, Table.mem_names_erase.2 ⟨hother, fun heq => hne (by rw [heq])⟩, rfl⟩

/-- A scope without a mark is its own twin. -/
theorem self {scope : Scope} (h : ∀ name ∈ scope.names.names, c.Fresh name) :
    c.ScopeTwin false scope scope :=
  ⟨(Table.rename_id _ rename_false).symm, h, fun name hname => ⟨name, hname, (rename_false _).symm⟩⟩

theorem empty (marked : Bool) : c.ScopeTwin marked {} {} :=
  ⟨rfl, by simp [Table.names, Table.empty], by simp [Table.names, Table.empty]⟩

end ScopeTwin

/-- Scopes that are twins one by one, with their marks. -/
def ScopesTwin (c : Change) : List Bool → List Scope → List Scope → Prop
  | [], scopes, scopes' => scopes = [] ∧ scopes' = []
  | marked :: L, scopes, scopes' => ∃ scope rest scope' rest', scopes = scope :: rest ∧
      scopes' = scope' :: rest' ∧ c.ScopeTwin marked scope scope' ∧ c.ScopesTwin L rest rest'

/-- A reference goes as far out as the one that stands for it. -/
theorem ScopesTwin.hopsTo?_eq {name : String} (hname : c.Fresh name) :
    ∀ {L : List Bool} {scopes scopes' : List Scope}, c.ScopesTwin L scopes scopes' →
      Resolver.hopsTo? (c.rename (mark L (Resolver.hopsTo? name scopes)) name) scopes' =
        Resolver.hopsTo? name scopes
  | [], _, _, h => by
    obtain ⟨rfl, rfl⟩ := h
    rfl
  | marked :: L, _, _, h => by
    obtain ⟨scope, rest, scope', rest', rfl, rfl, htwin, hrest⟩ := h
    have hrest := hrest.hopsTo?_eq hname
    simp only [Resolver.hopsTo?, List.findIdx?_cons] at hrest ⊢
    rcases hcontains : scope.names.contains name with _ | _
    · have hmark : ∀ hops : Option Nat, mark (marked :: L) (hops.map (· + 1)) = mark L hops := by
        intro hops
        cases hops <;> rfl
      simp only [htwin.not_contains hname hcontains, Bool.false_eq_true, if_false, hmark, hrest]
    · have hcontains' := htwin.contains_eq hname
      rw [hcontains] at hcontains'
      have hmark : mark (marked :: L) (some 0) = marked := rfl
      simp only [if_true, hmark, hcontains']

/-- What is not in initialization is not so under the name that stands for it. -/
theorem ScopesTwin.isUnfinished_eq {name : String} (hname : c.Fresh name) {L : List Bool}
    {scopes scopes' : List Scope} (h : c.ScopesTwin L scopes scopes') :
    Resolver.isUnfinished (c.rename (mark L (Resolver.hopsTo? name scopes)) name) scopes' =
      Resolver.isUnfinished name scopes := by
  cases L with
  | nil =>
    obtain ⟨rfl, rfl⟩ := h
    rfl
  | cons marked L =>
    obtain ⟨scope, rest, scope', rest', rfl, rfl, htwin, -⟩ := h
    simp only [Resolver.isUnfinished, Resolver.hopsTo?, List.findIdx?_cons]
    rcases hcontains : scope.names.contains name with _ | _
    · have hnone : ∀ {t : Table Bool} {x : String}, t.contains x = false → t.get? x = none := by
        simp [Table.contains]
      rw [hnone hcontains, hnone (htwin.not_contains hname hcontains _)]
    · have hget := htwin.get?_eq hname
      have hmark : mark (marked :: L) (some 0) = marked := rfl
      simp only [if_true, hmark, hget]

/-- One scope is changed on both sides. -/
theorem ScopesTwin.modify {f f' : Scope → Scope} :
    ∀ {L : List Bool} {scopes scopes' : List Scope} (hops : Nat), c.ScopesTwin L scopes scopes' →
      (∀ scope scope', c.ScopeTwin (mark L (some hops)) scope scope' →
        c.ScopeTwin (mark L (some hops)) (f scope) (f' scope')) →
      c.ScopesTwin L (scopes.modify hops f) (scopes'.modify hops f')
  | [], _, _, hops, h, _ => by
    obtain ⟨rfl, rfl⟩ := h
    cases hops <;> exact ⟨rfl, rfl⟩
  | marked :: L, _, _, 0, h, hf => by
    obtain ⟨scope, rest, scope', rest', rfl, rfl, htwin, hrest⟩ := h
    exact ⟨_, rest, _, rest', rfl, rfl, hf scope scope' htwin, hrest⟩
  | marked :: L, _, _, hops + 1, h, hf => by
    obtain ⟨scope, rest, scope', rest', rfl, rfl, htwin, hrest⟩ := h
    exact ⟨scope, _, scope', _, rfl, rfl, htwin, hrest.modify hops hf⟩

/-- What is around two places that stand for one another. -/
structure Around (c : Change) (L : List Bool) (s s' : Surroundings) : Prop where
  scopes : c.ScopesTwin L s.scopes s'.scopes
  inFunction : s'.inFunction = s.inFunction
  inClass : s'.inClass = s.inClass
  fault : s.fault = none
  fault' : s'.fault = none

end Change

namespace Resolver

open Change (Around ScopeTwin)

variable {α β : Type} {c : Change} {L : List Bool} {s s' : Surroundings}

/-- If the one resolver does not complain, then neither does the other, and it gives the value. -/
def Retraces (c : Change) (L : List Bool) (x : Resolver α) (s : Surroundings) (y : Resolver α)
    (s' : Surroundings) (a' : α) : Prop :=
  (x s).complaints = [] → ∃ s₁', y s' = ⟨a', s₁', []⟩ ∧ c.Around L (x s).surroundings s₁'

theorem bind_clean {r : Resolver α} {f : α → Resolver β} {s₁ : Surroundings} {a : α}
    (h : r s = ⟨a, s₁, []⟩) : (r >>= f) s = f a s₁ := by
  simp [Bind.bind, Resolver.bind, h]

theorem retraces_pure {a a' : α} (h : c.Around L s s') :
    Retraces c L (Pure.pure a) s (Pure.pure a') s' a' := fun _ => ⟨s', rfl, h⟩

theorem Retraces.bind {x y : Resolver α} {f g : α → Resolver β} {e : α} {b' : β}
    (h : Retraces c L x s y s' e)
    (hf : ∀ s₁', c.Around L (x s).surroundings s₁' →
      Retraces c L (f (x s).value) (x s).surroundings (g e) s₁' b') :
    Retraces c L (x >>= f) s (y >>= g) s' b' := by
  intro hclean
  obtain ⟨hfirst, hsecond⟩ := List.append_eq_nil_iff.1
    (show (x s).complaints ++ (f (x s).value (x s).surroundings).complaints = [] from hclean)
  obtain ⟨s₁', hrun, haround⟩ := h hfirst
  obtain ⟨s₂', hrun', haround'⟩ := hf s₁' haround hsecond
  exact ⟨s₂', (bind_clean hrun).trans hrun', haround'⟩

/-- A complaint is none of a resolver that does not complain. -/
theorem retraces_complain {t : Token} {problem : Problem} {y : Resolver Unit} (hs : s.fault = none)
    (ht : t.isMissing = false) : Retraces c L (complain t problem) s y s' () := by
  intro h
  simp [complain, hs, ht] at h

/-! ## Names -/

/-- A scope is changed on both sides, and nothing else. -/
theorem Around.modify {f f' : Scope → Scope} (hops : Nat) (h : c.Around L s s')
    (hf : ∀ scope scope', c.ScopeTwin (Change.mark L (some hops)) scope scope' →
      c.ScopeTwin (Change.mark L (some hops)) (f scope) (f' scope')) :
    c.Around L { s with scopes := s.scopes.modify hops f }
      { s' with scopes := s'.scopes.modify hops f' } :=
  ⟨h.scopes.modify hops hf, h.inFunction, h.inClass, h.fault, h.fault'⟩

theorem mark_zero (L : List Bool) : Change.mark L (some 0) = L.headD false := by
  cases L <;> rfl

theorem retraces_define {t t' : Token} (h : c.Around L s s')
    (ht : t'.lexeme = c.rename (L.headD false) t.lexeme) (hfresh : c.Fresh t.lexeme) :
    Retraces c L (define t) s (define t') s' () := by
  intro _
  refine ⟨_, rfl, Around.modify 0 h fun scope scope' hscope => ?_⟩
  rw [mark_zero] at hscope ⊢
  rw [ht]
  exact hscope.insert hfresh true

theorem retraces_watch {t t' : Token} (h : c.Around L s s')
    (ht : t'.lexeme = c.rename (L.headD false) t.lexeme) :
    Retraces c L (watch t) s (watch t') s' () := by
  intro _
  refine ⟨_, rfl, Around.modify 0 h fun scope scope' hscope => ?_⟩
  rw [mark_zero] at hscope ⊢
  exact hscope.watch ht

theorem declare_eq {t : Token} (hpresent : t.isMissing = false)
    (hfree : ∀ scope ∈ s.scopes.head?, scope.names.contains t.lexeme = false) :
    declare t s = ⟨(), { s with scopes := s.scopes.modify 0 fun scope =>
      { scope with names := scope.names.insert t.lexeme false } }, []⟩ := by
  rw [declare, checkName_eq hpresent, pure_bind]
  obtain ⟨scopes, inFunction, inClass, fault⟩ := s
  cases scopes with
  | nil => rfl
  | cons scope rest =>
    have hfirst : scope.names.contains t.lexeme = false := hfree scope rfl
    simp [Bind.bind, Resolver.bind, get, hfirst, modifyInnermost, modify]

/-- A name is complained of that its scope has already. -/
theorem complaints_declare {t : Token} {scope : Scope} (hs : s.fault = none)
    (hpresent : t.isMissing = false) (hscope : s.scopes.head? = some scope)
    (hbound : scope.names.contains t.lexeme = true) : (declare t s).complaints ≠ [] := by
  rw [declare, checkName_eq hpresent, pure_bind]
  obtain ⟨scopes, inFunction, inClass, fault⟩ := s
  cases scopes with
  | nil => cases hscope
  | cons first rest =>
    cases hscope
    have hnone : fault = none := hs
    simp [Bind.bind, Resolver.bind, get, hbound, complain, hnone, hpresent]

theorem retraces_declare {t t' : Token} (h : c.Around L s s')
    (ht : c.Named (L.headD false) t t') (hpresent : t.isMissing = false)
    (hfresh : c.Fresh t.lexeme) : Retraces c L (declare t) s (declare t') s' () := by
  have hpresent' : t'.isMissing = false := ht.isMissing_eq.trans hpresent
  intro hclean
  have hfree : ∀ scope ∈ s.scopes.head?, scope.names.contains t.lexeme = false := by
    intro scope hscope
    by_contra hbound
    exact complaints_declare h.fault hpresent hscope (eq_true_of_ne_false hbound) hclean
  have hscopes := h.scopes
  have hfree' : ∀ scope ∈ s'.scopes.head?, scope.names.contains t'.lexeme = false := by
    cases L with
    | nil => simp [hscopes.2]
    | cons marked L =>
      obtain ⟨scope, rest, scope', rest', hcons, hcons', htwin, -⟩ := hscopes
      simp only [hcons, hcons', List.head?_cons, Option.mem_some_iff, forall_eq'] at hfree ⊢
      rw [ht.lexeme]
      exact (htwin.contains_eq hfresh).trans hfree
  refine ⟨_, declare_eq hpresent' hfree', ?_⟩
  rw [declare_eq hpresent hfree]
  refine Around.modify 0 h fun scope scope' hscope => ?_
  rw [mark_zero] at hscope ⊢
  rw [ht.lexeme]
  exact hscope.insert hfresh false

/-- A name that is defined as soon as it is declared. -/
theorem retraces_introduce {t t' : Token} {x y : Resolver α} {a' : α} (h : c.Around L s s')
    (ht : c.Named (L.headD false) t t') (hpresent : t.isMissing = false)
    (hfresh : c.Fresh t.lexeme)
    (hx : ∀ s₁', c.Around L (define t (declare t s).surroundings).surroundings s₁' →
      Retraces c L x (define t (declare t s).surroundings).surroundings y s₁' a') :
    Retraces c L (do declare t; define t; x) s (do declare t'; define t'; y) s' a' :=
  (retraces_declare h ht hpresent hfresh).bind fun _ h₁ =>
    (retraces_define h₁ ht.lexeme hfresh).bind hx

theorem locate_eq {r : Reference} (hs : s.fault = none) (hpresent : r.name.isMissing = false) :
    locate r s = ⟨{ r with hops := hopsTo? r.name.lexeme s.scopes }, s, []⟩ := by
  rw [locate, checkName_eq hpresent, pure_bind]
  simp [Bind.bind, Resolver.bind, get, hs, Pure.pure, Resolver.pure]

theorem retraces_locate {r r' : Reference} (h : c.Around L s s')
    (hr : c.Refers L (locate r s).value r') (hpresent : r.name.isMissing = false)
    (hfresh : c.Fresh r.name.lexeme) :
    Retraces c L (locate r) s (locate (r'.map id fun _ => none)) s' r' := by
  rw [locate_eq h.fault hpresent] at hr
  have hpresent' : r'.name.isMissing = false := hr.named.isMissing_eq.trans hpresent
  have hhops := h.scopes.hopsTo?_eq hfresh
  have hlexeme : r'.name.lexeme =
      c.rename (Change.mark L (hopsTo? r.name.lexeme s.scopes)) r.name.lexeme := hr.named.lexeme
  have hsame : r'.hops = hopsTo? r.name.lexeme s.scopes := hr.hops
  rw [← hlexeme, ← hsame] at hhops
  have hagain : locate (r'.map id fun _ => none) s' = ⟨r', s', []⟩ := by
    refine (locate_eq (r := r'.map id fun _ => none) h.fault' hpresent').trans ?_
    simp [Reference.map, hhops]
  intro _
  refine ⟨s', hagain, ?_⟩
  rw [locate_eq h.fault hpresent]
  exact h

theorem read_eq {r : Reference} (hs : s.fault = none) (hpresent : r.name.isMissing = false)
    (hready : isUnfinished r.name.lexeme s.scopes = false) :
    read r s = ⟨{ r with hops := hopsTo? r.name.lexeme s.scopes }, { s with
      scopes := (hopsTo? r.name.lexeme s.scopes).elim s.scopes fun hops =>
        s.scopes.modify hops fun scope =>
          { scope with unused := scope.unused.erase r.name.lexeme } }, []⟩ := by
  rw [read]
  refine (bind_clean (a := s) rfl).trans ?_
  simp only [hready, Bool.false_eq_true, if_false]
  refine (bind_clean (locate_eq hs hpresent)).trans ?_
  rcases hopsTo? r.name.lexeme s.scopes with _ | hops <;> rfl

theorem retraces_read {r r' : Reference} (h : c.Around L s s')
    (hr : c.Refers L (read r s).value r') (hpresent : r.name.isMissing = false)
    (hfresh : c.Fresh r.name.lexeme) :
    Retraces c L (read r) s (read (r'.map id fun _ => none)) s' r' := by
  intro hclean
  have hhops := h.scopes.hopsTo?_eq hfresh
  have hunfinished := h.scopes.isUnfinished_eq hfresh
  rcases hready : isUnfinished r.name.lexeme s.scopes with _ | _
  · rw [read_eq h.fault hpresent hready] at hr ⊢
    have hpresent' : r'.name.isMissing = false := hr.named.isMissing_eq.trans hpresent
    have hlexeme : r'.name.lexeme =
        c.rename (Change.mark L (hopsTo? r.name.lexeme s.scopes)) r.name.lexeme := hr.named.lexeme
    have hsame : r'.hops = hopsTo? r.name.lexeme s.scopes := hr.hops
    rw [← hlexeme] at hhops hunfinished
    rw [hready] at hunfinished
    have hagain := read_eq (r := r'.map id fun _ => none) h.fault' hpresent' hunfinished
    have hname : (r'.map id fun _ => none).name.lexeme = r'.name.lexeme := rfl
    rw [hname, hhops] at hagain
    rw [← hsame] at hagain ⊢
    refine ⟨_, hagain, ?_⟩
    rw [← hsame] at hlexeme
    rcases hhops' : r'.hops with _ | hops <;> rw [hhops'] at hlexeme
    · exact h
    · refine Around.modify hops h fun scope scope' hscope => ?_
      rw [hlexeme]
      exact hscope.erase r.name.lexeme
  · have hbegin : (read r s).complaints ≠ [] := by
      simp [read, Bind.bind, Resolver.bind, get, hready, complain, h.fault, hpresent]
    exact absurd hclean hbegin

/-! ## Scopes, functions and classes -/

theorem closing_eq_nil {marked : Bool} (h : c.Around (marked :: L) s s') (hclean : closing s = []) :
    closing s' = [] := by
  obtain ⟨scope, rest, scope', rest', hcons, hcons', htwin, -⟩ := h.scopes
  have hnone : ∀ {t : Table Token}, t.names = [] ↔ t.values = [] := by
    simp [Table.names, Table.values]
  simp only [closing, h.fault, hcons, List.map_eq_nil_iff] at hclean
  simp only [closing, h.fault', hcons', List.map_eq_nil_iff]
  rw [← hnone] at hclean ⊢
  refine List.eq_nil_iff_forall_not_mem.2 fun name hname => ?_
  obtain ⟨other, hother, -⟩ := htwin.unused name hname
  rw [hclean] at hother
  cases hother

theorem retraces_withScope {marked : Bool} {scope scope' : Scope} {x y : Resolver α} {a' : α}
    (h : c.Around L s s') (hscope : c.ScopeTwin marked scope scope')
    (hx : c.Around (marked :: L) { s with scopes := scope :: s.scopes }
        { s' with scopes := scope' :: s'.scopes } →
      Retraces c (marked :: L) x { s with scopes := scope :: s.scopes } y
        { s' with scopes := scope' :: s'.scopes } a') :
    Retraces c L (withScope scope x) s (withScope scope' y) s' a' := by
  intro hclean
  obtain ⟨hinner, hclosing⟩ := List.append_eq_nil_iff.1 hclean
  obtain ⟨s₁', hrun, haround⟩ := hx
    ⟨⟨scope, s.scopes, scope', s'.scopes, rfl, rfl, hscope, h.scopes⟩, h.inFunction, h.inClass,
      h.fault, h.fault'⟩ hinner
  refine ⟨{ s₁' with scopes := s₁'.scopes.tail }, ?_, ?_, haround.inFunction, haround.inClass,
    haround.fault, haround.fault'⟩
  · simp [withScope, hrun, closing_eq_nil haround hclosing]
  · obtain ⟨first, rest, first', rest', hcons, hcons', -, hrest⟩ := haround.scopes
    simp only [withScope, hcons, hcons', List.tail_cons]
    exact hrest

theorem retraces_withFunction {kind : FunctionContext} {x y : Resolver α} {a' : α}
    (h : c.Around L s s')
    (hx : c.Around L { s with inFunction := kind } { s' with inFunction := kind } →
      Retraces c L x { s with inFunction := kind } y { s' with inFunction := kind } a') :
    Retraces c L (withFunction kind x) s (withFunction kind y) s' a' := by
  intro hclean
  obtain ⟨s₁', hrun, haround⟩ := hx ⟨h.scopes, rfl, h.inClass, h.fault, h.fault'⟩ hclean
  refine ⟨{ s₁' with inFunction := s'.inFunction }, ?_, haround.scopes, h.inFunction,
    haround.inClass, haround.fault, haround.fault'⟩
  simp [withFunction, hrun]

theorem retraces_withClass {kind : ClassContext} {x y : Resolver α} {a' : α}
    (h : c.Around L s s')
    (hx : c.Around L { s with inClass := kind } { s' with inClass := kind } →
      Retraces c L x { s with inClass := kind } y { s' with inClass := kind } a') :
    Retraces c L (withClass kind x) s (withClass kind y) s' a' := by
  intro hclean
  obtain ⟨s₁', hrun, haround⟩ := hx ⟨h.scopes, h.inFunction, rfl, h.fault, h.fault'⟩ hclean
  refine ⟨{ s₁' with inClass := s'.inClass }, ?_, haround.scopes, haround.inFunction, h.inClass,
    haround.fault, haround.fault'⟩
  simp [withClass, hrun]

theorem retraces_checkSuper {t t' : Token} (h : c.Around L s s') (hpresent : t.isMissing = false) :
    Retraces c L (checkSuper t) s (checkSuper t') s' () := by
  intro hclean
  rcases hclass : s.inClass with _ | _ | _
  · simp [checkSuper, Bind.bind, Resolver.bind, get, hclass, complain, h.fault, hpresent] at hclean
  · simp [checkSuper, Bind.bind, Resolver.bind, get, hclass, complain, h.fault, hpresent] at hclean
  · refine ⟨s', ?_, ?_⟩
    · simp [checkSuper, Bind.bind, Resolver.bind, get, h.inClass, hclass, Pure.pure,
        Resolver.pure]
    · simpa [checkSuper, Bind.bind, Resolver.bind, get, hclass, Pure.pure, Resolver.pure] using h

/-- A class does not come to have the name of its superclass. -/
theorem retraces_checkSuperclass {t t' : Token} {r q : Reference} {marked : Bool}
    (h : c.Around L s s') (ht : c.Alike t t') (hr : c.Named marked r.name q.name)
    (hpresent : t.isMissing = false) (hparent : r.name.isMissing = false)
    (hfresh : c.Fresh t.lexeme) (hfresh' : c.Fresh r.name.lexeme) :
    Retraces c L (checkSuperclass t (.ident r)) s (checkSuperclass t' (.ident q)) s' () := by
  have hpresent' : t'.isMissing = false := (Change.isMissing_eq ht).trans hpresent
  have hparent' : q.name.isMissing = false := hr.isMissing_eq.trans hparent
  simp only [checkSuperclass, Node.name?, hpresent, hparent, hpresent', hparent', Bool.or_false,
    Bool.false_eq_true, if_false]
  by_cases hsame : t.lexeme = r.name.lexeme
  · simp only [if_pos hsame]
    exact retraces_complain h.fault hparent
  · have hother : t'.lexeme ≠ q.name.lexeme := by
      rw [c.lexeme_eq ht, hr.lexeme, ← c.rename_false t.lexeme]
      exact fun heq => hsame (Change.eq_of_rename_eq hfresh hfresh' heq)
    simp only [if_neg hsame, if_neg hother]
    exact retraces_pure h

theorem retraces_parameters {marked : Bool} : ∀ {params params' : List Token}
    {s s' : Surroundings}, c.Around (marked :: L) s s' → params.Forall₂ (c.Named marked) params' →
    (∀ t ∈ params, t.isMissing = false ∧ c.Fresh t.lexeme) →
    Retraces c (marked :: L) (parameters params) s (parameters params') s' ()
  | [], _, s, s', h, .nil, _ => retraces_pure h
  | t :: rest, _, s, s', h, .cons ht hrest, hparams => by
    obtain ⟨hpresent, hfresh⟩ := hparams t List.mem_cons_self
    exact retraces_introduce h ht hpresent hfresh fun s₁' h₁ =>
      retraces_parameters h₁ hrest fun t ht => hparams t (List.mem_cons_of_mem _ ht)

theorem thisScope_twin : c.ScopeTwin false thisScope thisScope :=
  .self fun name hname => by
    obtain rfl : name = "this" := by simpa [thisScope, Table.names, Table.insert, Table.empty,
      Table.insertEntry] using hname
    exact .inr c.new_ne_this.symm

theorem superScope_twin : c.ScopeTwin false superScope superScope :=
  .self fun name hname => by
    obtain rfl : name = "super" := by simpa [superScope, Table.names, Table.insert, Table.empty,
      Table.insertEntry] using hname
    exact .inr c.new_ne_super.symm

/-! ## Trees -/

theorem not_misfit_of_like {n n' : Node} (h : n.Like c L n') (f : Token → Token)
    (g : Option Nat → Option Nat) (m : Misfit) : n'.map f g ≠ .misfit m := by
  cases n with
  | classDecl name parent methods =>
    cases parent with
    | none =>
      obtain ⟨_, _, rfl, -⟩ := h
      exact Node.noConfusion
    | some parent =>
      obtain ⟨_, _, _, _, -, rfl, -⟩ := h
      exact Node.noConfusion
  | literal value =>
    obtain rfl := h
    exact Node.noConfusion
  | misfit m => exact h.elim
  | group _ | receiver _ | expression _ | print _ | ident _ =>
    obtain ⟨_, rfl, -⟩ := h
    exact Node.noConfusion
  | assign _ _ | property _ _ | superMethod _ _ | unary _ _ | block _ | returning _ _ | varDecl _ _
  | loop _ _ =>
    obtain ⟨_, _, rfl, -⟩ := h
    exact Node.noConfusion
  | binary _ _ _ | call _ _ _ | logical _ _ _ | setProperty _ _ _ | conditional _ _ _ =>
    obtain ⟨_, _, _, rfl, -⟩ := h
    exact Node.noConfusion
  | function _ _ _ =>
    obtain ⟨_, _, _, _, rfl, -⟩ := h
    exact Node.noConfusion

/-- Where a `return` may stand it is as its value is. -/
theorem node_returning {keyword : Token} {value : Option Node} (hfunction : s.inFunction ≠ .none)
    (hvalue : ¬(value.isSome = true ∧ s.inFunction = .initializer)) :
    node (.returning keyword value) s =
      (nodeOption value >>= fun value => Pure.pure (.returning keyword value)) s := by
  rw [node]
  refine (bind_clean (a := s) rfl).trans ?_
  simp only [if_neg hfunction, if_neg hvalue]

/-- Elsewhere it is complained of. -/
theorem complaints_returning {keyword : Token} {value : Option Node} (hs : s.fault = none)
    (hpresent : keyword.isMissing = false)
    (h : (node (.returning keyword value) s).complaints = []) :
    s.inFunction ≠ .none ∧ ¬(value.isSome = true ∧ s.inFunction = .initializer) := by
  have hstart : Clean (node (.returning keyword value)) s fun _ _ =>
      s.inFunction ≠ .none ∧ ¬(value.isSome = true ∧ s.inFunction = .initializer) := by
    refine clean_get.bind fun found s' hs' => ?_
    obtain ⟨rfl, rfl⟩ := hs'
    dsimp only
    split
    · exact (not_clean_complain hs hpresent).bind (P := fun _ _ => False) fun _ _ hf => hf.elim
    · rename_i hfunction
      split
      · exact (not_clean_complain hs hpresent).bind (P := fun _ _ => False) fun _ _ hf => hf.elim
      · rename_i hvalue
        exact fun _ => ⟨hfunction, hvalue⟩
  exact hstart h

theorem retraces_returning {keyword : Token} {value : Option Node} {n' : Node}
    (hpresent : keyword.isMissing = false) (h : c.Around L s s')
    (hvalue : ∀ {value' : Option Node}, Node.LikeOption c L (nodeOption value s).value value' →
      Retraces c L (nodeOption value) s
        (nodeOption (Node.mapOption id (fun _ => none) value')) s' value')
    (hlike : (node (.returning keyword value) s).value.Like c L n') :
    Retraces c L (node (.returning keyword value)) s (node (n'.map id fun _ => none)) s' n' := by
  intro hclean
  obtain ⟨hfunction, hinit⟩ := complaints_returning h.fault hpresent hclean
  rw [node_returning hfunction hinit] at hclean hlike ⊢
  obtain ⟨keyword', value', rfl, -, hlikeValue⟩ := hlike
  have hsome : (Node.mapOption id (fun _ => none) value').isSome = value.isSome := by
    cases value with
    | none =>
      obtain rfl := hlikeValue
      rfl
    | some value =>
      obtain ⟨inner, rfl, -⟩ := hlikeValue
      rfl
  have hagain := (hvalue hlikeValue).bind (f := fun v => Pure.pure (Node.returning keyword v))
    (g := fun v => Pure.pure (Node.returning keyword' v)) fun s₁ h₁ => retraces_pure h₁
  obtain ⟨s₁', hrun, haround⟩ := hagain hclean
  refine ⟨s₁', (node_returning ?_ ?_).trans hrun, haround⟩
  · rwa [h.inFunction]
  · rwa [h.inFunction, hsome]

section Trees

variable {ok : Token → Prop} (hok : AllLexed ok) (hfresh : ∀ t, ok t → c.Fresh t.lexeme)

include hok hfresh

theorem Is.present_fresh {t : Token} {kind : TokenKind} (ht : t.Is ok kind) (hkind : kind ≠ .eof) :
    t.isMissing = false ∧ c.Fresh t.lexeme :=
  ⟨is_present hok ht hkind, hfresh t ht.1⟩

theorem retraces_receiver {keyword : Reference} {n' : Node}
    (hkeyword : keyword.IsFresh ok .thisWord) (h : c.Around L s s')
    (hlike : (node (.receiver keyword) s).value.Like c L n') :
    Retraces c L (node (.receiver keyword)) s (node (n'.map id fun _ => none)) s' n' := by
  obtain ⟨hpresent, hnew⟩ := Is.present_fresh hok hfresh hkeyword.1 (by decide)
  intro hclean
  by_cases hclass : s.inClass = .none
  · have hcomplains : (node (.receiver keyword) s).complaints ≠ [] := by
      rw [node]
      simp [Bind.bind, Resolver.bind, get, hclass, complain, h.fault, hpresent]
    exact absurd hclean hcomplains
  · have hnode : ∀ {r : Reference} {s : Surroundings}, s.inClass ≠ .none →
        node (.receiver r) s = (locate r >>= fun r => Pure.pure (.receiver r)) s := by
      intro r s hclass
      rw [node]
      exact (bind_clean (a := s) rfl).trans (by simp only [if_neg hclass])
    rw [hnode hclass] at hclean hlike ⊢
    obtain ⟨keyword', rfl, hrefers⟩ := hlike
    have hagain := (retraces_locate h hrefers hpresent hnew).bind
      (f := fun r => Pure.pure (Node.receiver r)) (g := fun r => Pure.pure (Node.receiver r))
      fun s₁ h₁ => retraces_pure h₁
    obtain ⟨s₁', hrun, haround⟩ := hagain hclean
    exact ⟨s₁', (hnode (h.inClass.trans_ne hclass)).trans hrun, haround⟩

/-- The body of a function, in a scope that has its parameters. -/
theorem retraces_functionBody {marked : Bool} {kind : FunctionContext}
    {params params' : List Token} {body body' : List Node} (h : c.Around L s s')
    (hparams : ∀ t ∈ params, t.Is ok .identifier) (hnamed : params.Forall₂ (c.Named marked) params')
    (hbody : ∀ {s s' : Surroundings}, c.Around (marked :: L) s s' →
      Node.LikeAll c (marked :: L) (nodes body s).value body' →
      Retraces c (marked :: L) (nodes body) s (nodes (Node.mapAll id (fun _ => none) body')) s'
        body')
    (hlike : Node.LikeAll c (marked :: L)
      (withFunction kind (withScope {} do parameters params; nodes body) s).value body') :
    Retraces c L (withFunction kind (withScope {} do parameters params; nodes body)) s
      (withFunction kind (withScope {} do
        parameters params'
        nodes (Node.mapAll id (fun _ => none) body'))) s' body' := by
  refine retraces_withFunction h fun h₁ => retraces_withScope h₁ (.empty marked) fun h₂ => ?_
  refine (retraces_parameters h₂ hnamed fun t ht =>
    Is.present_fresh hok hfresh (hparams t ht) (by decide)).bind fun s₃ h₃ => ?_
  exact hbody h₃ hlike

end Trees

section Trees

variable {ok : Token → Prop}

mutual

theorem node_retraces (hok : AllLexed ok) (hfresh : ∀ t, ok t → c.Fresh t.lexeme) :
    ∀ {n : Node} {role : Role}, n.Fits ok role → ∀ {L : List Bool} {s s' : Surroundings}
      {n' : Node}, c.Around L s s' → (node n s).value.Like c L n' →
      Retraces c L (node n) s (node (n'.map id fun _ => none)) s' n'
  | .assign target value, _, hn, L, s, s', n', h, hlike => by
    obtain ⟨target', value', rfl, htarget, hvalue⟩ := hlike
    obtain ⟨hpresent, hnew⟩ := Is.present_fresh hok hfresh hn.2.1.1 (by decide)
    exact (node_retraces hok hfresh hn.2.2 h hvalue).bind fun s₁ h₁ =>
      (retraces_locate h₁ htarget hpresent hnew).bind fun s₂ h₂ => retraces_pure h₂
  | .binary left operator right, _, hn, L, s, s', n', h, hlike => by
    obtain ⟨left', operator', right', rfl, -, hleft, hright⟩ := hlike
    exact (node_retraces hok hfresh hn.2.2.1 h hleft).bind fun s₁ h₁ =>
      (node_retraces hok hfresh hn.2.2.2 h₁ hright).bind fun s₂ h₂ => retraces_pure h₂
  | .call callee paren values, _, hn, L, s, s', n', h, hlike => by
    obtain ⟨callee', paren', values', rfl, -, hcallee, hvalues⟩ := hlike
    exact (node_retraces hok hfresh hn.2.2.1 h hcallee).bind fun s₁ h₁ =>
      (arguments_retrace hok hfresh hn.2.2.2 h₁ hvalues).bind fun s₂ h₂ => retraces_pure h₂
  | .property object name, _, hn, L, s, s', n', h, hlike => by
    obtain ⟨object', name', rfl, -, hobject⟩ := hlike
    exact (node_retraces hok hfresh hn.2.2 h hobject).bind fun s₁ h₁ => retraces_pure h₁
  | .group inner, _, hn, L, s, s', n', h, hlike => by
    obtain ⟨inner', rfl, hinner⟩ := hlike
    exact (node_retraces hok hfresh hn.2 h hinner).bind fun s₁ h₁ => retraces_pure h₁
  | .literal value, _, _, L, s, s', n', h, hlike => by
    obtain rfl := hlike
    exact retraces_pure h
  | .logical left operator right, _, hn, L, s, s', n', h, hlike => by
    obtain ⟨left', operator', right', rfl, -, hleft, hright⟩ := hlike
    exact (node_retraces hok hfresh hn.2.2.1 h hleft).bind fun s₁ h₁ =>
      (node_retraces hok hfresh hn.2.2.2 h₁ hright).bind fun s₂ h₂ => retraces_pure h₂
  | .setProperty object name value, _, hn, L, s, s', n', h, hlike => by
    obtain ⟨object', name', value', rfl, -, hobject, hvalue⟩ := hlike
    exact (node_retraces hok hfresh hn.2.2.2 h hvalue).bind fun s₁ h₁ =>
      (node_retraces hok hfresh hn.2.2.1 h₁ hobject).bind fun s₂ h₂ => retraces_pure h₂
  | .superMethod keyword method, _, hn, L, s, s', n', h, hlike => by
    obtain ⟨keyword', method', rfl, hkeyword, -⟩ := hlike
    obtain ⟨hpresent, hnew⟩ := Is.present_fresh hok hfresh hn.2.1.1 (by decide)
    exact (retraces_checkSuper h hpresent).bind fun s₁ h₁ =>
      (retraces_locate h₁ hkeyword hpresent hnew).bind fun s₂ h₂ => retraces_pure h₂
  | .receiver keyword, _, hn, L, s, s', n', h, hlike => retraces_receiver hok hfresh hn.2 h hlike
  | .unary operator right, _, hn, L, s, s', n', h, hlike => by
    obtain ⟨operator', right', rfl, -, hright⟩ := hlike
    exact (node_retraces hok hfresh hn.2.2 h hright).bind fun s₁ h₁ => retraces_pure h₁
  | .ident name, _, hn, L, s, s', n', h, hlike => by
    obtain ⟨name', rfl, hname⟩ := hlike
    obtain ⟨hpresent, hnew⟩ := Is.present_fresh hok hfresh hn.2.1 (by decide)
    exact (retraces_read h hname hpresent hnew).bind fun s₁ h₁ => retraces_pure h₁
  | .block statements, _, hn, L, s, s', n', h, hlike => by
    obtain ⟨marked, statements', rfl, hstatements⟩ := hlike
    exact (retraces_withScope h (.empty marked) fun h₁ =>
      nodes_retrace hok hfresh hn.2 h₁ hstatements).bind fun s₁ h₁ => retraces_pure h₁
  | .classDecl name none declarations, _, hn, L, s, s', n', h, hlike => by
    obtain ⟨name', methods', rfl, hname, hmethods⟩ := hlike
    obtain ⟨hpresent, hnew⟩ := Is.present_fresh hok hfresh hn.2.1 (by decide)
    refine retraces_introduce h hname.named hpresent hnew fun s₁ h₁ => ?_
    refine (retraces_withClass h₁ fun h₂ => retraces_withScope h₂ thisScope_twin fun h₃ => ?_).bind
      fun s₂ h₂ => retraces_pure h₂
    exact methods_retrace hok hfresh hn.2.2.2 h₃ hmethods
  | .classDecl name (some parent) declarations, _, hn, L, s, s', n', h, hlike => by
    obtain ⟨r, rfl, hr⟩ := eq_ident_of_fitsSuperclass hn.2.2.1
    obtain ⟨name', r₁, r', methods', hparent, rfl, hname, hrefers, hmethods⟩ := hlike
    obtain ⟨hpresent, hnew⟩ := Is.present_fresh hok hfresh hn.2.1 (by decide)
    obtain ⟨hpresent', hnew'⟩ := Is.present_fresh hok hfresh hr.1 (by decide)
    refine retraces_introduce h hname.named hpresent hnew fun s₁ h₁ => ?_
    have hsame : r₁.name = r.name := by
      rw [← Node.ident.inj hparent]
      exact name_read hr _
    have hnamed := hrefers.named
    rw [hsame] at hnamed
    refine (retraces_checkSuperclass (q := r'.map id fun _ => none) h₁ hname.alike hnamed
      hpresent hpresent' hnew hnew').bind fun s₂ h₂ => ?_
    refine retraces_withClass h₂ fun h₃ => ?_
    refine Retraces.bind (e := Node.ident r') ?_ fun s₄ h₄ => ?_
    · rw [← Node.ident.inj hparent] at hrefers
      exact (retraces_read h₃ hrefers hpresent' hnew').bind fun s₁ h₁ => retraces_pure h₁
    · refine (retraces_withScope h₄ superScope_twin fun h₅ =>
        retraces_withScope h₅ thisScope_twin fun h₆ => ?_).bind fun s₅ h₅ => retraces_pure h₅
      exact methods_retrace hok hfresh hn.2.2.2 h₆ hmethods
  | .expression value, _, hn, L, s, s', n', h, hlike => by
    obtain ⟨value', rfl, hvalue⟩ := hlike
    exact (node_retraces hok hfresh hn.2 h hvalue).bind fun s₁ h₁ => retraces_pure h₁
  | .function name params body, _, hn, L, s, s', n', h, hlike => by
    obtain ⟨marked, name', params', body', rfl, hname, hparams, hbody⟩ := hlike
    obtain ⟨hpresent, hnew⟩ := Is.present_fresh hok hfresh hn.2.1 (by decide)
    have hmap : (Node.function name' params' body').map id (fun _ => none) =
        .function name' params' (Node.mapAll id (fun _ => none) body') :=
      congrArg (Node.function name' · _) (List.map_id params')
    rw [hmap]
    refine retraces_introduce h hname.named hpresent hnew fun s₁ h₁ => ?_
    exact (retraces_functionBody hok hfresh h₁ hn.2.2.1 hparams
      (fun h hlike => nodes_retrace hok hfresh hn.2.2.2 h hlike) hbody).bind
      fun s₂ h₂ => retraces_pure h₂
  | .conditional condition thenBranch elseBranch, _, hn, L, s, s', n', h, hlike => by
    obtain ⟨condition', then', else', rfl, hcondition, hthen, helse⟩ := hlike
    exact (node_retraces hok hfresh hn.2.1 h hcondition).bind fun s₁ h₁ =>
      (node_retraces hok hfresh hn.2.2.1 h₁ hthen).bind fun s₂ h₂ =>
        (option_retraces hok hfresh hn.2.2.2 h₂ helse).bind fun s₃ h₃ => retraces_pure h₃
  | .print value, _, hn, L, s, s', n', h, hlike => by
    obtain ⟨value', rfl, hvalue⟩ := hlike
    exact (node_retraces hok hfresh hn.2 h hvalue).bind fun s₁ h₁ => retraces_pure h₁
  | .returning keyword value, _, hn, L, s, s', n', h, hlike =>
    retraces_returning (is_present hok hn.2.1 (by decide)) h
      (fun hvalue => option_retraces hok hfresh hn.2.2 h hvalue) hlike
  | .varDecl name initializer, _, hn, L, s, s', n', h, hlike => by
    obtain ⟨name', initializer', rfl, hname, hinitializer⟩ := hlike
    obtain ⟨hpresent, hnew⟩ := Is.present_fresh hok hfresh hn.2.1 (by decide)
    exact (retraces_declare h hname hpresent hnew).bind fun s₁ h₁ =>
      (option_retraces hok hfresh hn.2.2 h₁ hinitializer).bind fun s₂ h₂ =>
        (retraces_define h₂ hname.lexeme hnew).bind fun s₃ h₃ =>
          (retraces_watch h₃ hname.lexeme).bind fun s₄ h₄ => retraces_pure h₄
  | .loop condition body, _, hn, L, s, s', n', h, hlike => by
    obtain ⟨condition', body', rfl, hcondition, hbody⟩ := hlike
    exact (node_retraces hok hfresh hn.2.1 h hcondition).bind fun s₁ h₁ =>
      (node_retraces hok hfresh hn.2.2 h₁ hbody).bind fun s₂ h₂ => retraces_pure h₂
  | .misfit _, _, hn, _, _, _, _, _, _ => hn.elim

theorem option_retraces (hok : AllLexed ok) (hfresh : ∀ t, ok t → c.Fresh t.lexeme) :
    ∀ {n : Option Node} {role : Role}, Node.FitsOption ok role n →
      ∀ {L : List Bool} {s s' : Surroundings} {n' : Option Node}, c.Around L s s' →
      Node.LikeOption c L (nodeOption n s).value n' →
      Retraces c L (nodeOption n) s (nodeOption (Node.mapOption id (fun _ => none) n')) s' n'
  | none, _, _, L, s, s', n', h, hlike => by
    obtain rfl := hlike
    exact retraces_pure h
  | some n, _, hn, L, s, s', n', h, hlike => by
    obtain ⟨value', rfl, hvalue⟩ := hlike
    exact (node_retraces hok hfresh (n := n) hn h hvalue).bind fun s₁ h₁ => retraces_pure h₁

theorem arguments_retrace (hok : AllLexed ok) (hfresh : ∀ t, ok t → c.Fresh t.lexeme) :
    ∀ {ns : List Node} {role : Role}, Node.FitAll ok role ns →
      ∀ {L : List Bool} {s s' : Surroundings} {ns' : List Node}, c.Around L s s' →
      Node.LikeAll c L (arguments ns s).value ns' →
      Retraces c L (arguments ns) s (arguments (Node.mapAll id (fun _ => none) ns')) s' ns'
  | [], _, _, L, s, s', ns', h, hlike => by
    obtain rfl := hlike
    exact retraces_pure h
  | n :: rest, _, hns, L, s, s', ns', h, hlike => by
    rw [arguments_cons hns.1] at hlike ⊢
    obtain ⟨n', rest', rfl, hn, hrest⟩ := hlike
    have hcons : arguments (Node.mapAll id (fun _ => none) (n' :: rest')) = (do
        let n ← node (n'.map id fun _ => none)
        return n :: (← arguments (Node.mapAll id (fun _ => none) rest'))) := by
      rw [Node.mapAll, arguments]
      exact fun content => not_misfit_of_like hn _ _ _
    rw [hcons]
    exact (node_retraces hok hfresh hns.1 h hn).bind fun s₁ h₁ =>
      (arguments_retrace hok hfresh hns.2 h₁ hrest).bind fun s₂ h₂ => retraces_pure h₂

theorem nodes_retrace (hok : AllLexed ok) (hfresh : ∀ t, ok t → c.Fresh t.lexeme) :
    ∀ {ns : List Node} {role : Role}, Node.FitAll ok role ns →
      ∀ {L : List Bool} {s s' : Surroundings} {ns' : List Node}, c.Around L s s' →
      Node.LikeAll c L (nodes ns s).value ns' →
      Retraces c L (nodes ns) s (nodes (Node.mapAll id (fun _ => none) ns')) s' ns'
  | [], _, _, L, s, s', ns', h, hlike => by
    obtain rfl := hlike
    exact retraces_pure h
  | n :: rest, _, hns, L, s, s', ns', h, hlike => by
    rw [nodes_cons hns.1] at hlike ⊢
    obtain ⟨n', rest', rfl, hn, hrest⟩ := hlike
    have hcons : nodes (Node.mapAll id (fun _ => none) (n' :: rest')) = (do
        let n ← node (n'.map id fun _ => none)
        return n :: (← nodes (Node.mapAll id (fun _ => none) rest'))) := by
      rw [Node.mapAll, nodes]
      exact fun items => not_misfit_of_like hn _ _ _
    rw [hcons]
    exact (node_retraces hok hfresh hns.1 h hn).bind fun s₁ h₁ =>
      (nodes_retrace hok hfresh hns.2 h₁ hrest).bind fun s₂ h₂ => retraces_pure h₂

theorem methods_retrace (hok : AllLexed ok) (hfresh : ∀ t, ok t → c.Fresh t.lexeme) :
    ∀ {ns : List Node}, Node.FitAll ok .method ns →
      ∀ {L : List Bool} {s s' : Surroundings} {ns' : List Node}, c.Around L s s' →
      Node.LikeMethods c L (methods ns s).value ns' →
      Retraces c L (methods ns) s (methods (Node.mapAll id (fun _ => none) ns')) s' ns'
  | [], _, L, s, s', ns', h, hlike => by
    obtain rfl := hlike
    exact retraces_pure h
  | n :: rest, hns, L, s, s', ns', h, hlike => by
    cases n with
    | function name params body =>
      obtain ⟨⟨-, hname, hparams, hbody⟩, hrest⟩ := hns
      have hpresent := is_present hok hname (by decide)
      rw [methods_cons hpresent] at hlike ⊢
      obtain ⟨marked, name', params', body', rest', rfl, halike, hnamed, hlikeBody, hlikeRest⟩ :=
        hlike
      have hpresent' : name'.isMissing = false := (Change.isMissing_eq halike).trans hpresent
      have hmap : Node.mapAll id (fun _ => none) (.function name' params' body' :: rest') =
          .function name' params' (Node.mapAll id (fun _ => none) body') ::
            Node.mapAll id (fun _ => none) rest' :=
        congrArg (fun params => Node.function name' params _ :: _) (List.map_id params')
      have hcontext : methodContext name' = methodContext name := by
        simp only [methodContext, c.lexeme_eq halike]
      rw [hmap, methods_cons hpresent', hcontext]
      exact (retraces_functionBody hok hfresh h hparams hnamed
        (fun h hlike => nodes_retrace hok hfresh hbody h hlike) hlikeBody).bind fun s₁ h₁ =>
          (methods_retrace hok hfresh hrest h₁ hlikeRest).bind fun s₂ h₂ => retraces_pure h₂
    | _ => simp [Node.FitAll, Node.Fits, Role.IsStatement] at hns

end

end Trees

end Resolver

/-- What is alike to a tree that was resolved without complaints is resolved to the same
distances. -/
theorem resolve_retraces {ok : Token → Prop} {c : Change} (hok : Resolver.AllLexed ok)
    (hfresh : ∀ t, ok t → c.Fresh t.lexeme) {ns ns' : List Node}
    (hns : Node.FitAll ok .declaration ns) (hclean : (resolve ns).2 = [])
    (hlike : Node.LikeAll c [] (resolve ns).1 ns') :
    resolve (Node.unresolvedAll ns') = (ns', []) := by
  have hstart : c.Around [] {} {} := ⟨⟨rfl, rfl⟩, rfl, rfl, rfl, rfl⟩
  obtain ⟨s₁', hrun, -⟩ := Resolver.nodes_retrace hok hfresh hns hstart hlike hclean
  show ((Resolver.nodes _ {}).value, (Resolver.nodes _ {}).complaints) = _
  rw [Node.unresolvedAll, hrun]

end Lox
