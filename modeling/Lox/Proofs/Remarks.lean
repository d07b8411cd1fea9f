import Mathlib.Tactic
import Lox.Proofs.Positions

/-!
# What is complained of where

What is wrong with a node where it stands is said here of its position alone (`Spot.remarks`), and
so is which variables of a scope nothing has read when it closes (`Spot.unread`). Each statement of
a scope takes away from the table of watched variables those that are read in it, and a variable is
watched after its own declaration. The scopes around a place are numbered from the outermost, so
that a scope has the same number at every place inside of it.
-/

namespace Lox

/-! ## What is complained of at a stop -/

namespace Site

/-- The number of scopes around the first scope that binds the name. -/
def heightOf? (name : String) : List (List String) → Option Nat
  | [] => none
  | names :: scopes => if name ∈ names then some scopes.length else heightOf? name scopes

/-- The name is declared again in the innermost scope. -/
def redeclared (site : Site) (name : Token) : List Complaint :=
  match site.scopes with
  | [] => []
  | names :: _ => if 1 < names.count name.lexeme then [⟨name, .alreadyDeclared⟩] else []

end Site

/-- The parameters that have the name of an earlier one, or one of the names bound before. -/
def repeated : (bound : List String) → List Token → List Complaint
  | _, [] => []
  | bound, name :: rest =>
    (if name.lexeme ∈ bound then [⟨name, .alreadyDeclared⟩] else []) ++
      repeated (name.lexeme :: bound) rest

/-- What is wrong with a node where it stands. -/
def Spot.remarks (spot : Spot) : List Complaint :=
  match spot.node with
  | .ident r =>
    if spot.site.initializing = some r.name.lexeme then [⟨r.name, .readsOwnInitializer⟩] else []
  | .superMethod keyword _ =>
    match spot.site.inClass with
    | .none => [⟨keyword.name, .superOutsideClass⟩]
    | .plain => [⟨keyword.name, .superWithoutSuperclass⟩]
    | .subclass => []
  | .receiver keyword =>
    if spot.site.inClass = .none then [⟨keyword.name, .thisOutsideClass⟩] else []
  | .returning keyword value =>
    (if spot.site.inFunction = .none then [⟨keyword, .returnAtTopLevel⟩] else []) ++
      (if value.isSome ∧ spot.site.inFunction = .initializer then
        [⟨keyword, .returnsFromInitializer⟩] else [])
  | .varDecl name _ => spot.site.redeclared name
  | .function name params _ =>
    (if spot.isMethod then [] else spot.site.redeclared name) ++ repeated [] params
  | .classDecl name superclass _ =>
    spot.site.redeclared name ++
      (superclass.bind Node.name?).toList.flatMap fun parent =>
        if name.lexeme = parent.lexeme then [⟨parent, .inheritsFromItself⟩] else []
  | _ => []

/-- Nothing is read, declared or complained of at such a node itself. -/
def Node.isPlain : Node → Bool
  | .assign .. => true
  | .binary .. => true
  | .call .. => true
  | .property .. => true
  | .group .. => true
  | .literal .. => true
  | .logical .. => true
  | .setProperty .. => true
  | .unary .. => true
  | .expression .. => true
  | .conditional .. => true
  | .print .. => true
  | .loop .. => true
  | _ => false

/-- The scope that is read at a stop, by the number of scopes around it, and the name. -/
def Stop.reading? (stop : Stop) : Option (Nat × String) :=
  match stop.isLeaving, stop.spot.node with
  | false, .ident r =>
    (Site.heightOf? r.name.lexeme stop.spot.site.scopes).map fun height => (height, r.name.lexeme)
  | _, _ => none

/-- All that is read on a walk. -/
def readings (stops : List Stop) : List (Nat × String) := stops.filterMap Stop.reading?

/-- The name is read in the scope that has so many scopes around it. -/
def readsAt (reads : List (Nat × String)) (height : Nat) (name : String) : Bool :=
  decide ((height, name) ∈ reads)

/-- The table without some of its names. -/
def Table.without {β : Type} (t : Table β) (p : String → Bool) : Table β :=
  ⟨t.entries.filter fun entry => !p entry.1⟩

/-- The name of the variable that a statement declares. -/
def Node.asVariable? : Node → Option Token
  | .varDecl name _ => some name
  | _ => none

/-- A variable is watched after its declaration. -/
def Node.watch (n : Node) (t : Table Token) : Table Token :=
  match n.asVariable? with
  | some name => t.insert name.lexeme name
  | none => t

namespace Spot

/-- The variables that are watched after the statements of a scope, the first of which has the
number `i`, if those in the table are watched before. The height is that of the scope. -/
def leftover (here : List Nat) (height : Nat) : (i : Nat) → List Spot → Table Token → Table Token
  | _, [], t => t
  | i, part :: rest, t =>
    leftover here height (i + 1) rest
      (part.node.watch (t.without (readsAt (readings (part.walk (here ++ [i]))) height)))

/-- The variables of a scope that nothing has read when it closes. -/
def unread (here : List Nat) (spot : Spot) : List Token :=
  match spot.node with
  | .block _ => (leftover here spot.site.scopes.length 0 spot.parts .empty).values
  | .function .. => (leftover here spot.site.scopes.length 0 spot.parts .empty).values
  | _ => []

end Spot

/-- What is complained of at a stop. -/
def Stop.complaints (stop : Stop) : List Complaint :=
  if stop.isLeaving then (stop.spot.unread stop.path).map (⟨·, .neverUsed⟩) else stop.spot.remarks

/-- What is complained of on a walk. -/
def complaintsOf (stops : List Stop) : List Complaint := stops.flatMap Stop.complaints

/-! ### Walks in parts -/

section Walks

variable (here : List Nat) (spot : Spot)

theorem readings_append (stops stops' : List Stop) :
    readings (stops ++ stops') = readings stops ++ readings stops' := List.filterMap_append

theorem complaintsOf_append (stops stops' : List Stop) :
    complaintsOf (stops ++ stops') = complaintsOf stops ++ complaintsOf stops' :=
  List.flatMap_append

theorem readings_walk : readings (spot.walk here) =
    (Stop.reading? ⟨here, spot, false⟩).toList ++ readings (Spot.walkParts here 0 spot.parts) := by
  have hleaving : Stop.reading? ⟨here, spot, true⟩ = none := rfl
  rw [Spot.walk_eq, readings_append]
  simp only [readings, List.filterMap_cons, List.filterMap_nil, hleaving]
  cases Stop.reading? ⟨here, spot, false⟩ <;> simp

theorem complaintsOf_walk : complaintsOf (spot.walk here) =
    spot.remarks ++ complaintsOf (Spot.walkParts here 0 spot.parts) ++
      (spot.unread here).map (⟨·, .neverUsed⟩) := by
  rw [Spot.walk_eq, complaintsOf_append]
  simp [complaintsOf, Stop.complaints]

end Walks

/-! ## Tables of watched variables -/

namespace Table

variable {β : Type} (t : Table β)

theorem without_false : t.without (fun _ => false) = t := by
  simp [without]

theorem without_without (p q : String → Bool) :
    (t.without p).without q = t.without fun x => p x || q x := by
  simp only [without, List.filter_filter, Table.mk.injEq]
  refine List.filter_congr fun entry _ => ?_
  cases p entry.1 <;> cases q entry.1 <;> rfl

theorem erase_eq_without (name : String) : t.erase name = t.without fun x => decide (x = name) := by
  simp [erase, without]

theorem without_empty (p : String → Bool) : (empty : Table β).without p = empty := rfl

end Table

theorem readsAt_nil (height : Nat) : readsAt [] height = fun _ => false := rfl

theorem readsAt_singleton (place : Nat) (name : String) (height : Nat) :
    readsAt [(place, name)] height = fun x => decide (height = place ∧ x = name) := by
  funext x
  simp [readsAt]

theorem readsAt_append (reads reads' : List (Nat × String)) (height : Nat) :
    readsAt (reads ++ reads') height =
      fun x => readsAt reads height x || readsAt reads' height x := by
  funext x
  simp [readsAt, Bool.decide_or]

/-- The tables of a stack of scopes, without the names that were read. -/
def forget (reads : List (Nat × String)) : List (Table Token) → List (Table Token)
  | [] => []
  | t :: rest => t.without (readsAt reads rest.length) :: forget reads rest

theorem forget_nil (tables : List (Table Token)) : forget [] tables = tables := by
  induction tables with
  | nil => rfl
  | cons t rest ih => rw [forget, ih, readsAt_nil, Table.without_false]

theorem length_forget (reads : List (Nat × String)) (tables : List (Table Token)) :
    (forget reads tables).length = tables.length := by
  induction tables with
  | nil => rfl
  | cons t rest ih => simp [forget, ih]

theorem forget_append (reads reads' : List (Nat × String)) (tables : List (Table Token)) :
    forget (reads ++ reads') tables = forget reads' (forget reads tables) := by
  induction tables with
  | nil => rfl
  | cons t rest ih =>
    rw [forget, forget, forget, ih, length_forget, Table.without_without, readsAt_append]

/-- What is read outside of the stack does not matter to it. -/
theorem forget_eq_self {reads : List (Nat × String)} {tables : List (Table Token)}
    (h : ∀ r ∈ reads, tables.length ≤ r.1) : forget reads tables = tables := by
  induction tables with
  | nil => rfl
  | cons t rest ih =>
    have hnone : readsAt reads rest.length = fun _ => false := by
      funext x
      exact decide_eq_false fun hx => absurd (h _ hx) (Nat.not_succ_le_self _)
    rw [forget, hnone, Table.without_false, ih fun r hr => (Nat.le_succ _).trans (h r hr)]

/-- What the statements of a scope do to the tables, if the first of them has the number `i`. -/
def Spot.pass (here : List Nat) :
    (i : Nat) → List Spot → List (Table Token) → List (Table Token)
  | _, [], tables => tables
  | i, part :: rest, tables =>
    pass here (i + 1) rest
      ((forget (readings (part.walk (here ++ [i]))) tables).modify 0 part.node.watch)

theorem Spot.pass_cons (here : List Nat) (i : Nat) (parts : List Spot) (t : Table Token)
    (tables : List (Table Token)) :
    pass here i parts (t :: tables) = leftover here tables.length i parts t ::
      forget (readings (walkParts here i parts)) tables := by
  induction parts generalizing i t tables with
  | nil =>
    rw [pass, leftover, walkParts]
    exact congrArg _ (forget_nil tables).symm
  | cons part rest ih =>
    rw [pass, forget, List.modify_zero_cons, ih, length_forget, leftover, walkParts,
      readings_append, forget_append]

namespace Site

variable {x : String} {scopes : List (List String)} {hops height : Nat}

theorem heightOf?_lt (h : heightOf? x scopes = some height) : height < scopes.length := by
  induction scopes with
  | nil => cases h
  | cons names scopes ih =>
    rw [heightOf?] at h
    split at h
    · cases h
      exact Nat.lt_succ_self _
    · exact (ih h).trans (Nat.lt_succ_self _)

/-- A scope is as many scopes out as there are between it and the innermost. -/
theorem heightOf?_eq_some_iff : heightOf? x scopes = some height ↔
    ∃ hops, hopsTo? x scopes = some hops ∧ scopes.length = height + hops + 1 := by
  induction scopes with
  | nil => simp [heightOf?, hopsTo?]
  | cons names scopes ih =>
    rw [heightOf?, hopsTo?_cons]
    split
    · simp only [Option.some.injEq, exists_eq_left', List.length_cons]
      omega
    · rw [ih]
      constructor
      · rintro ⟨hops, hhops, hlength⟩
        exact ⟨hops + 1, by rw [hhops]; rfl, by rw [List.length_cons, hlength]; omega⟩
      · rintro ⟨hops, hhops, hlength⟩
        obtain ⟨inner, hinner, rfl⟩ := Option.map_eq_some_iff.1 hhops
        rw [List.length_cons] at hlength
        exact ⟨inner, hinner, by omega⟩

theorem heightOf?_eq_none_iff : heightOf? x scopes = none ↔ hopsTo? x scopes = none := by
  induction scopes with
  | nil => simp [heightOf?, hopsTo?]
  | cons names scopes ih =>
    rw [heightOf?, hopsTo?_cons]
    split
    · simp
    · rw [ih, Option.map_eq_none_iff]

end Site

/-- What is erased so many scopes out is forgotten at that height. -/
theorem modify_eq_forget {x : String} {scopes : List (List String)} {hops height : Nat}
    {tables : List (Table Token)} (hlength : tables.length = scopes.length)
    (hhops : Site.hopsTo? x scopes = some hops) (hheight : Site.heightOf? x scopes = some height) :
    tables.modify hops (·.erase x) = forget [(height, x)] tables := by
  induction scopes generalizing tables hops with
  | nil => cases hhops
  | cons names scopes ih =>
    obtain ⟨t, rest, rfl⟩ : ∃ t rest, tables = t :: rest := by
      cases tables with
      | nil => cases hlength
      | cons t rest => exact ⟨t, rest, rfl⟩
    have hrest : rest.length = scopes.length := Nat.succ.inj hlength
    rw [Site.hopsTo?_cons] at hhops
    rw [Site.heightOf?] at hheight
    split at hhops
    · rename_i hmem
      rw [if_pos hmem] at hheight
      cases hhops
      cases hheight
      rw [List.modify_zero_cons, forget, forget_eq_self (by simp [hrest]), Table.erase_eq_without,
        readsAt_singleton]
      simp [hrest]
    · rename_i hmem
      rw [if_neg hmem] at hheight
      obtain ⟨inner, hinner, rfl⟩ := Option.map_eq_some_iff.1 hhops
      have hne : scopes.length ≠ height := (Site.heightOf?_lt hheight).ne'
      rw [List.modify_succ_cons, ih hrest hinner hheight, forget, readsAt_singleton]
      simp [hrest, hne, Table.without_false]

end Lox
