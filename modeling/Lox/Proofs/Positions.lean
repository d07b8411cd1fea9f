import Mathlib.Tactic
import Lox.Proofs.Scoped

/-!
# Positions in a tree

A `Spot` is a node together with the site it stands at, and that site depends on the position of the
node alone: on the scopes around it, and on the statements in them up to the one that it is part of.
`Spot.parts` says which nodes a node is made of, in the order in which resolution comes to them, and
where each of them stands. All that is said of the positions of a tree follows from it: the spot at
the end of a path (`seek`), and the walk that stops at each spot on the way in and on the way out
(`walk`).

`locate` gives every reference of a tree the distance that its position says. This is a declarative
account of lexical scoping, and it does not change what stands where (`seekAll_locate`).
-/

namespace Lox

open Resolver (methodContext)

/-- A node where it stands. -/
structure Spot where
  site : Site
  /-- Whether the node is a method of a class. -/
  isMethod : Bool := false
  node : Node

namespace Spot

/-- Another node at the same site. -/
def beside (spot : Spot) (n : Node) : Spot := ⟨spot.site, false, n⟩

end Spot

/-- Statements in order. Each of them stands where the names are bound that it and those before it
declare. -/
def Site.statements : Site → List Node → List Spot
  | _, [] => []
  | site, n :: rest => ⟨site.after n, false, n⟩ :: (site.after n).statements rest

/-- The function around the body of a function. -/
def bodyContext (isMethod : Bool) (name : Token) : FunctionContext :=
  if isMethod then methodContext name else .function

/-- The nodes that a node is made of, each where it stands. -/
def Spot.parts (spot : Spot) : List Spot :=
  match spot.node with
  | .assign _ value => [spot.beside value]
  | .binary left _ right => [spot.beside left, spot.beside right]
  | .call callee _ arguments => spot.beside callee :: arguments.map spot.beside
  | .property object _ => [spot.beside object]
  | .group inner => [spot.beside inner]
  | .literal _ => []
  | .logical left _ right => [spot.beside left, spot.beside right]
  | .setProperty object _ value => [spot.beside value, spot.beside object]
  | .superMethod _ _ => []
  | .receiver _ => []
  | .unary _ right => [spot.beside right]
  | .ident _ => []
  | .block statements => (spot.site.inside []).statements statements
  | .classDecl _ superclass methods =>
    superclass.toList.map spot.beside ++ methods.map (⟨spot.site.methods superclass, true, ·⟩)
  | .expression value => [spot.beside value]
  | .function name params body =>
    (spot.site.body (bodyContext spot.isMethod name) params).statements body
  | .conditional condition thenBranch elseBranch =>
    spot.beside condition :: spot.beside thenBranch :: elseBranch.toList.map spot.beside
  | .print value => [spot.beside value]
  | .returning _ value => value.toList.map spot.beside
  | .varDecl name initializer =>
    initializer.toList.map (⟨spot.site.initializer name.lexeme, false, ·⟩)
  | .loop condition body => [spot.beside condition, spot.beside body]
  | .misfit _ => []

/-! ## Paths -/

/-- The spot at the end of a path, which says which part to go to, one after the other. -/
def Spot.seek : (path : List Nat) → Spot → Option Spot
  | [], spot => some spot
  | i :: path, spot => spot.parts[i]?.bind (seek path)

/-- The spot in a program at the end of a path, the first step of which is to a statement. -/
def Node.seekAll (ns : List Node) : (path : List Nat) → Option Spot
  | [] => none
  | i :: path => (Site.statements {} ns)[i]?.bind (Spot.seek path)

/-! ## Distances -/

/-- The reference with the distance to the first scope that binds its name. -/
def Site.locate (site : Site) (r : Reference) : Reference :=
  { r with hops := Site.hopsTo? r.name.lexeme site.scopes }

mutual

/-- The node with the distance of each reference. Outside of every class `this` has none. -/
def Node.locate : Site → (isMethod : Bool) → Node → Node
  | site, _, .assign target value => .assign (site.locate target) (value.locate site false)
  | site, _, .binary left operator right =>
    .binary (left.locate site false) operator (right.locate site false)
  | site, _, .call callee paren arguments =>
    .call (callee.locate site false) paren (Node.locateEach site false arguments)
  | site, _, .property object name => .property (object.locate site false) name
  | site, _, .group inner => .group (inner.locate site false)
  | _, _, .literal value => .literal value
  | site, _, .logical left operator right =>
    .logical (left.locate site false) operator (right.locate site false)
  | site, _, .setProperty object name value =>
    .setProperty (object.locate site false) name (value.locate site false)
  | site, _, .superMethod keyword method => .superMethod (site.locate keyword) method
  | site, _, .receiver keyword =>
    .receiver (if site.inClass = .none then keyword else site.locate keyword)
  | site, _, .unary operator right => .unary operator (right.locate site false)
  | site, _, .ident name => .ident (site.locate name)
  | site, _, .block statements => .block (Node.locateAll (site.inside []) statements)
  | site, _, .classDecl name superclass methods =>
    .classDecl name (Node.locateOption site superclass)
      (Node.locateEach (site.methods superclass) true methods)
  | site, _, .expression value => .expression (value.locate site false)
  | site, isMethod, .function name params body =>
    .function name params (Node.locateAll (site.body (bodyContext isMethod name) params) body)
  | site, _, .conditional condition thenBranch elseBranch =>
    .conditional (condition.locate site false) (thenBranch.locate site false)
      (Node.locateOption site elseBranch)
  | site, _, .print value => .print (value.locate site false)
  | site, _, .returning keyword value => .returning keyword (Node.locateOption site value)
  | site, _, .varDecl name initializer =>
    .varDecl name (Node.locateOption (site.initializer name.lexeme) initializer)
  | site, _, .loop condition body =>
    .loop (condition.locate site false) (body.locate site false)
  | _, _, .misfit m => .misfit m

/-- Nodes at one site. -/
def Node.locateEach : Site → (isMethod : Bool) → List Node → List Node
  | _, _, [] => []
  | site, isMethod, n :: rest =>
    n.locate site isMethod :: Node.locateEach site isMethod rest

/-- Statements, one after the other. -/
def Node.locateAll : Site → List Node → List Node
  | _, [] => []
  | site, n :: rest => n.locate (site.after n) false :: Node.locateAll (site.after n) rest

def Node.locateOption : Site → Option Node → Option Node
  | _, none => none
  | site, some n => some (n.locate site false)

end

/-- The spot with the references of its node located. -/
def Spot.locate (spot : Spot) : Spot :=
  { spot with node := spot.node.locate spot.site spot.isMethod }

theorem Node.locateEach_eq_map (site : Site) (isMethod : Bool) (ns : List Node) :
    Node.locateEach site isMethod ns = ns.map (Node.locate site isMethod) := by
  induction ns with
  | nil => rfl
  | cons n rest ih => rw [Node.locateEach, ih, List.map_cons]

theorem Node.declared?_locate (site : Site) (isMethod : Bool) (n : Node) :
    (n.locate site isMethod).declared? = n.declared? := by
  cases n <;> rfl

theorem Site.after_locate (site place : Site) (isMethod : Bool) (n : Node) :
    site.after (n.locate place isMethod) = site.after n := by
  simp only [Site.after, Node.declared?_locate]

theorem Site.statements_locate (site : Site) (ns : List Node) :
    site.statements (Node.locateAll site ns) = (site.statements ns).map Spot.locate := by
  induction ns generalizing site with
  | nil => rfl
  | cons n rest ih =>
    simp only [Node.locateAll, Site.statements, Site.after_locate, List.map_cons, ih]
    rfl

namespace Spot

/-- The parts stand where they stood. -/
theorem parts_locate (spot : Spot) : spot.locate.parts = spot.parts.map locate := by
  obtain ⟨site, isMethod, n⟩ := spot
  cases n with
  | call callee paren arguments =>
    simp [locate, parts, beside, Node.locate, Node.locateEach_eq_map, Function.comp_def]
  | block statements => exact Site.statements_locate _ statements
  | function name params body => exact Site.statements_locate _ body
  | classDecl name superclass methods =>
    cases superclass <;>
      simp [locate, parts, beside, Node.locate, Node.locateEach_eq_map, Node.locateOption,
        Function.comp_def, Site.methods]
  | conditional condition thenBranch elseBranch => cases elseBranch <;> rfl
  | returning keyword value => cases value <;> rfl
  | varDecl name initializer => cases initializer <;> rfl
  | _ => rfl

theorem seek_locate (path : List Nat) (spot : Spot) :
    seek path spot.locate = (seek path spot).map locate := by
  induction path generalizing spot with
  | nil => rfl
  | cons i path ih =>
    rw [seek, parts_locate, List.getElem?_map, seek]
    cases spot.parts[i]? with
    | none => rfl
    | some part => exact ih part

end Spot

theorem Node.seekAll_locate (ns : List Node) (path : List Nat) :
    Node.seekAll (Node.locateAll {} ns) path = (Node.seekAll ns path).map Spot.locate := by
  cases path with
  | nil => rfl
  | cons i path =>
    rw [Node.seekAll, Site.statements_locate, List.getElem?_map, Node.seekAll]
    cases (Site.statements {} ns)[i]? with
    | none => rfl
    | some spot => exact spot.seek_locate path

/-! ## Walks -/

/-- A spot that is come to, or left, at the end of a path. -/
structure Stop where
  path : List Nat
  spot : Spot
  isLeaving : Bool

namespace Spot

/-- The walk through a node, no more than so many nodes down. -/
def walkWithin : (depth : Nat) → (here : List Nat) → Spot → List Stop
  | 0, _, _ => []
  | depth + 1, here, spot =>
    ⟨here, spot, false⟩ ::
      (spot.parts.zipIdx.flatMap fun part => walkWithin depth (here ++ [part.2]) part.1) ++
      [⟨here, spot, true⟩]

/-- The walk through a node: it comes to the node, goes through its parts in order and leaves it. -/
def walk (here : List Nat) (spot : Spot) : List Stop := walkWithin (spot.node.nesting + 1) here spot

/-- The walk through parts in order, the first of which has the number `i`. -/
def walkParts (here : List Nat) : (i : Nat) → List Spot → List Stop
  | _, [] => []
  | i, part :: rest => part.walk (here ++ [i]) ++ walkParts here (i + 1) rest

end Spot

/-- The walk through a program. -/
def Node.walkAll (ns : List Node) : List Stop := Spot.walkParts [] 0 (Site.statements {} ns)

theorem Node.nesting_le_of_mem {n : Node} {ns : List Node} (h : n ∈ ns) :
    n.nesting ≤ Node.nestingAll ns := by
  induction ns with
  | nil => cases h
  | cons m rest ih =>
    rw [Node.nestingAll]
    rcases List.mem_cons.1 h with rfl | h
    · exact Nat.le_max_left _ _
    · exact (ih h).trans (Nat.le_max_right _ _)

theorem Site.node_mem_of_mem_statements {site : Site} {ns : List Node} {spot : Spot}
    (h : spot ∈ site.statements ns) : spot.node ∈ ns := by
  induction ns generalizing site with
  | nil => cases h
  | cons n rest ih =>
    rcases List.mem_cons.1 h with rfl | h
    · exact List.mem_cons_self
    · exact List.mem_cons_of_mem _ (ih h)

namespace Spot

variable {spot part : Spot} {here : List Nat} {stop : Stop}

theorem nesting_le_of_mem_map {site : Site} {isMethod : Bool} {ns : List Node}
    (h : part ∈ ns.map (⟨site, isMethod, ·⟩)) : part.node.nesting ≤ Node.nestingAll ns := by
  obtain ⟨n, hn, rfl⟩ := List.mem_map.1 h
  exact Node.nesting_le_of_mem hn

theorem nesting_le_of_mem_option {site : Site} {n : Option Node}
    (h : part ∈ n.toList.map (⟨site, false, ·⟩)) : part.node.nesting ≤ Node.nestingOption n := by
  cases n with
  | none => cases h
  | some n => rw [List.mem_singleton.1 h, Node.nestingOption]

/-- A part is nested less deep. -/
theorem nesting_lt_of_mem_parts (h : part ∈ spot.parts) :
    part.node.nesting < spot.node.nesting := by
  obtain ⟨site, isMethod, n⟩ := spot
  have hstatements : ∀ {place : Site} {ns : List Node}, part ∈ place.statements ns →
      part.node.nesting < Node.nestingAll ns + 1 := fun h =>
    Nat.lt_succ_of_le (Node.nesting_le_of_mem (Site.node_mem_of_mem_statements h))
  cases n with
  | block statements => exact hstatements h
  | function name params body => exact hstatements h
  | call callee paren arguments =>
    rw [Node.nesting]
    rcases List.mem_cons.1 h with rfl | h
    · exact Nat.lt_succ_of_le (Nat.le_max_left _ _)
    · exact Nat.lt_succ_of_le ((nesting_le_of_mem_map h).trans (Nat.le_max_right _ _))
  | classDecl name superclass methods =>
    rw [Node.nesting]
    rcases List.mem_append.1 h with h | h
    · exact Nat.lt_succ_of_le ((nesting_le_of_mem_option h).trans (Nat.le_max_left _ _))
    · exact Nat.lt_succ_of_le ((nesting_le_of_mem_map h).trans (Nat.le_max_right _ _))
  | conditional condition thenBranch elseBranch =>
    rw [Node.nesting]
    rcases List.mem_cons.1 h with rfl | h
    · exact Nat.lt_succ_of_le (Nat.le_max_left _ _)
    · rcases List.mem_cons.1 h with rfl | h
      · exact Nat.lt_succ_of_le ((Nat.le_max_left _ _).trans (Nat.le_max_right _ _))
      · exact Nat.lt_succ_of_le
          ((nesting_le_of_mem_option h).trans ((Nat.le_max_right _ _).trans (Nat.le_max_right _ _)))
  | returning keyword value => exact Nat.lt_succ_of_le (nesting_le_of_mem_option h)
  | varDecl name initializer => exact Nat.lt_succ_of_le (nesting_le_of_mem_option h)
  | literal value => cases h
  | superMethod keyword method => cases h
  | receiver keyword => cases h
  | ident name => cases h
  | misfit m => cases h
  | _ =>
    simp only [parts, beside, List.mem_cons, List.not_mem_nil, or_false] at h
    rcases h with rfl | rfl <;> simp only [Node.nesting] <;> omega

/-- What holds of a spot if it holds of its parts holds of every spot. -/
theorem induction {P : Spot → Prop} (h : ∀ spot, (∀ part ∈ spot.parts, P part) → P spot)
    (spot : Spot) : P spot := by
  induction hnesting : spot.node.nesting using Nat.strong_induction_on generalizing spot with
  | _ nesting ih =>
    subst hnesting
    exact h spot fun part hpart => ih _ (nesting_lt_of_mem_parts hpart) part rfl

/-- Once it is deep enough a walk goes all the way down. -/
theorem walkWithin_eq_walk {depth : Nat} (h : spot.node.nesting < depth) :
    walkWithin depth here spot = walk here spot := by
  obtain ⟨more, rfl⟩ := Nat.exists_eq_add_of_lt h
  suffices hwithin : ∀ (spot : Spot) (here : List Nat) {depth : Nat}, spot.node.nesting < depth →
      walkWithin depth here spot = walkWithin (depth + more) here spot by
    have hdepth := hwithin spot here (Nat.lt_succ_self _)
    rw [walk, hdepth]
    congr 1
    omega
  intro spot here depth
  induction depth generalizing spot here with
  | zero => exact fun h => absurd h (Nat.not_lt_zero _)
  | succ depth ih =>
    intro hdepth
    have hparts : ∀ (parts : List Spot) (i : Nat), parts ⊆ spot.parts →
        (parts.zipIdx i).flatMap (fun part => walkWithin depth (here ++ [part.2]) part.1) =
          (parts.zipIdx i).flatMap
            (fun part => walkWithin (depth + more) (here ++ [part.2]) part.1) := by
      intro parts i hsubset
      refine List.flatMap_congr fun part hpart => ih _ _ ?_
      have hmem := hsubset (List.fst_mem_of_mem_zipIdx hpart)
      exact Nat.lt_of_lt_of_le (nesting_lt_of_mem_parts hmem) (Nat.le_of_lt_succ hdepth)
    rw [Nat.add_right_comm, walkWithin, walkWithin, hparts _ _ (List.Subset.refl _)]

/-- A walk comes to the node, goes through its parts and leaves it. -/
theorem walk_eq (here : List Nat) (spot : Spot) :
    spot.walk here =
      ⟨here, spot, false⟩ :: walkParts here 0 spot.parts ++ [⟨here, spot, true⟩] := by
  have hparts : ∀ (parts : List Spot) (i : Nat), parts ⊆ spot.parts →
      (parts.zipIdx i).flatMap
        (fun part => walkWithin spot.node.nesting (here ++ [part.2]) part.1) =
          walkParts here i parts := by
    intro parts
    induction parts with
    | nil => exact fun _ _ => rfl
    | cons part rest ih =>
      intro i hsubset
      obtain ⟨hpart, hrest⟩ := List.cons_subset.1 hsubset
      rw [List.zipIdx_cons, List.flatMap_cons, ih _ hrest, walkParts,
        walkWithin_eq_walk (nesting_lt_of_mem_parts hpart)]
  rw [walk, walkWithin, hparts _ _ (List.Subset.refl _)]

theorem mem_walkParts {i : Nat} {parts : List Spot} :
    stop ∈ walkParts here i parts ↔
      ∃ (j : Nat) (part : Spot), parts[j]? = some part ∧ stop ∈ part.walk (here ++ [i + j]) := by
  induction parts generalizing i with
  | nil => simp [walkParts]
  | cons first rest ih =>
    rw [walkParts, List.mem_append, ih]
    constructor
    · rintro (h | ⟨j, part, hpart, h⟩)
      · exact ⟨0, first, rfl, h⟩
      · refine ⟨j + 1, part, hpart, ?_⟩
        rwa [show i + (j + 1) = i + 1 + j by omega]
    · rintro ⟨_ | j, part, hpart, h⟩
      · obtain rfl : first = part := Option.some.inj hpart
        exact .inl h
      · refine .inr ⟨j, part, hpart, ?_⟩
        rwa [show i + 1 + j = i + (j + 1) by omega]

/-- The walk through a node stops at every position in it, and nowhere else. -/
theorem mem_walk : stop ∈ spot.walk here ↔
    ∃ path, stop.path = here ++ path ∧ seek path spot = some stop.spot := by
  induction spot using Spot.induction generalizing here with
  | h spot ih =>
    rw [walk_eq, List.mem_append, List.mem_cons, List.mem_singleton, mem_walkParts]
    constructor
    · rintro ((rfl | ⟨j, part, hpart, h⟩) | rfl)
      · exact ⟨[], (List.append_nil _).symm, rfl⟩
      · obtain ⟨path, hpath, hseek⟩ := (ih part (List.mem_of_getElem? hpart)).1 h
        refine ⟨j :: path, by simpa using hpath, ?_⟩
        rw [seek, hpart]
        exact hseek
      · exact ⟨[], (List.append_nil _).symm, rfl⟩
    · rintro ⟨_ | ⟨j, path⟩, hpath, hseek⟩
      · obtain ⟨path, found, isLeaving⟩ := stop
        obtain rfl : spot = found := Option.some.inj hseek
        obtain rfl : path = here := by simpa using hpath
        cases isLeaving
        · exact .inl (.inl rfl)
        · exact .inr rfl
      · rw [seek] at hseek
        obtain ⟨part, hpart, hseek⟩ := Option.bind_eq_some_iff.1 hseek
        refine .inl (.inr ⟨j, part, hpart, (ih part (List.mem_of_getElem? hpart)).2 ?_⟩)
        exact ⟨path, by simpa using hpath, hseek⟩

/-- A walk through parts comes to each position once, and leaves it once, if this is so of each
part. -/
theorem nodup_walkParts {i : Nat} {parts : List Spot}
    (h : ∀ part ∈ parts, ∀ here : List Nat,
      ((part.walk here).map fun stop => (stop.path, stop.isLeaving)).Nodup) :
    ((walkParts here i parts).map fun stop => (stop.path, stop.isLeaving)).Nodup := by
  induction parts generalizing i with
  | nil => exact List.nodup_nil
  | cons part rest ih =>
    obtain ⟨hpart, hrest⟩ := List.forall_mem_cons.1 h
    rw [walkParts, List.map_append]
    refine (hpart _).append (ih hrest) ?_
    intro key hfirst hlater
    obtain ⟨stop, hstop, rfl⟩ := List.mem_map.1 hfirst
    obtain ⟨stop', hstop', hkey⟩ := List.mem_map.1 hlater
    obtain ⟨path, hpath, -⟩ := mem_walk.1 hstop
    obtain ⟨j, part', -, hwalk⟩ := mem_walkParts.1 hstop'
    obtain ⟨path', hpath', -⟩ := mem_walk.1 hwalk
    have hsame : here ++ [i + 1 + j] ++ path' = here ++ [i] ++ path := by
      rw [← hpath, ← hpath']
      exact congrArg Prod.fst hkey
    simp only [List.append_assoc, List.append_cancel_left_eq, List.cons_append, List.nil_append,
      List.cons.injEq] at hsame
    omega

theorem nodup_walk (here : List Nat) (spot : Spot) :
    ((spot.walk here).map fun stop => (stop.path, stop.isLeaving)).Nodup := by
  induction spot using Spot.induction generalizing here with
  | h spot ih =>
    have hinner : ∀ isLeaving, (here, isLeaving) ∉
        (walkParts here 0 spot.parts).map fun stop => (stop.path, stop.isLeaving) := by
      intro isLeaving hmem
      obtain ⟨stop, hstop, hkey⟩ := List.mem_map.1 hmem
      obtain ⟨j, part, -, hwalk⟩ := mem_walkParts.1 hstop
      obtain ⟨path, hpath, -⟩ := mem_walk.1 hwalk
      have hlength := congrArg List.length (hpath.symm.trans (congrArg Prod.fst hkey))
      simp at hlength
    have hparts : ((walkParts here 0 spot.parts).map fun stop =>
        (stop.path, stop.isLeaving)).Nodup :=
      nodup_walkParts fun part hpart here => ih part hpart here
    rw [walk_eq, List.map_append, List.map_cons, List.map_cons, List.map_nil]
    refine List.Nodup.append (List.nodup_cons.2 ⟨hinner false, hparts⟩) (List.nodup_singleton _) ?_
    rintro key hkey hlast
    obtain rfl := List.mem_singleton.1 hlast
    rcases List.mem_cons.1 hkey with hkey | hkey
    · cases hkey
    · exact hinner true hkey

end Spot

theorem Node.mem_walkAll {ns : List Node} {stop : Stop} :
    stop ∈ Node.walkAll ns ↔ Node.seekAll ns stop.path = some stop.spot := by
  rw [Node.walkAll, Spot.mem_walkParts]
  obtain ⟨path, spot, isLeaving⟩ := stop
  constructor
  · rintro ⟨j, part, hpart, h⟩
    obtain ⟨rest, hpath, hseek⟩ := Spot.mem_walk.1 h
    obtain rfl : path = j :: rest := by simpa using hpath
    rw [Node.seekAll, hpart]
    exact hseek
  · intro hseek
    cases path with
    | nil => cases hseek
    | cons j rest =>
      obtain ⟨part, hpart, hseek⟩ := Option.bind_eq_some_iff.1 hseek
      exact ⟨j, part, hpart, Spot.mem_walk.2 ⟨rest, by simp, hseek⟩⟩

/-- The walk through a program comes to each position once, and leaves it once. -/
theorem Node.nodup_walkAll (ns : List Node) :
    ((Node.walkAll ns).map fun stop => (stop.path, stop.isLeaving)).Nodup :=
  Spot.nodup_walkParts fun part _ here => part.nodup_walk here

end Lox
