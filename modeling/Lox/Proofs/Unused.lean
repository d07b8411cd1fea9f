import Mathlib.Tactic
import Lox.Proofs.Lexical

/-!
# Variables that are never used

A local variable is used if some place outside of its own initializer reads its name and the first
scope around that place that binds the name is the one the variable is declared in (`Node.IsRead`).
If no scope declares a name twice, resolution complains of exactly the variables that are not used,
of each of them once: when a scope closes, of those declared in it, in their order
(`resolve_unused`).

The table of a scope says which of its variables no statement so far has read. What is read in the
statements before a declaration, or in the declaration itself, cannot be the variable that it
declares, so that at the end of the scope the variables in the table are those not read anywhere.
-/

namespace Lox

namespace Node

/-- The names declared in the scope that a node opens for its statements. -/
def locals : Node → List String
  | .block statements => statements.filterMap declared?
  | .function _ params body => params.map (·.lexeme) ++ body.filterMap declared?
  | _ => []

/-- The variables that statements declare, the first of which has the number `i`, each with the path
to its declaration. -/
def variablesFrom (here : List Nat) : (i : Nat) → List Node → List (List Nat × Token)
  | _, [] => []
  | i, n :: rest => (n.asVariable?.map (here ++ [i], ·)).toList ++ variablesFrom here (i + 1) rest

/-- The variables declared in the scope that the node at the end of a path opens for its
statements. -/
def variablesIn (ns : List Node) (path : List Nat) : List (List Nat × Token) :=
  match at? ns path with
  | some (.block statements) => variablesFrom path 0 statements
  | some (.function _ _ body) => variablesFrom path 0 body
  | _ => []

/-- Some place outside of the declaration at the end of the path reads the name, and finds it in the
scope that the declaration is in. -/
def IsRead (ns : List Node) (path : List Nat) (name : String) : Prop :=
  ∃ reading r hops scope, at? ns reading = some (.ident r) ∧ r.name.lexeme = name ∧
    ¬ path <+: reading ∧ FirstBinds (scopesAround ns reading) hops name ∧
    (scopesAround ns reading)[hops]? = some scope ∧ scope.opener = path.dropLast

/-- At the end of the path a local variable is declared, and it is never read. -/
def IsUnused (ns : List Node) (path : List Nat) (name : Token) : Prop :=
  (∃ initializer, at? ns path = some (.varDecl name initializer)) ∧ scopesAround ns path ≠ [] ∧
    ¬ IsRead ns path name.lexeme

open scoped Classical in
/-- The variables declared in a scope that are never read, in the order of their declarations. -/
noncomputable def unusedIn (ns : List Node) (path : List Nat) : List (List Nat × Token) :=
  (variablesIn ns path).filter fun found => ¬ IsRead ns found.1 found.2.lexeme

/-- The local variables that are never read, scope by scope in the order in which they close. -/
noncomputable def unusedAll (ns : List Node) : List (List Nat × Token) :=
  (walkAll ns).flatMap fun stop => if stop.isLeaving then unusedIn ns stop.path else []

end Node

/-! ## Paths -/

namespace Spot

variable {spot mid : Spot} {here path : List Nat}

theorem seek_append (path rest : List Nat) (spot : Spot) :
    seek (path ++ rest) spot = (seek path spot).bind (seek rest) := by
  induction path generalizing spot with
  | nil => rfl
  | cons i path ih =>
    rw [List.cons_append, seek, seek, Option.bind_assoc]
    exact congrArg _ (funext ih)

theorem enclosing_append (h : seek path spot = some mid) (rest : List Nat) :
    spot.enclosing here (path ++ rest) =
      mid.enclosing (here ++ path) rest ++ spot.enclosing here path := by
  induction path generalizing here spot with
  | nil =>
    obtain rfl : spot = mid := Option.some.inj h
    simp [enclosing]
  | cons i path ih =>
    obtain ⟨part, hpart, hseek⟩ := Option.bind_eq_some_iff.1 h
    rw [List.cons_append, enclosing, enclosing, hpart, Option.map_some, Option.map_some,
      Option.getD_some, Option.getD_some, ih hseek, List.append_assoc, List.append_assoc,
      List.singleton_append]

/-- What opens a scope around a place is on the way to it. -/
theorem exists_of_mem_enclosing {scope : Enclosure} (h : scope ∈ spot.enclosing here path) :
    ∃ inner i rest, scope.opener = here ++ inner ∧ path = inner ++ i :: rest := by
  induction path generalizing here spot with
  | nil => cases h
  | cons i path ih =>
    rw [enclosing, List.mem_append] at h
    rcases h with h | h
    · cases hpart : spot.parts[i]? with
      | none =>
        rw [hpart] at h
        cases h
      | some part =>
        rw [hpart] at h
        obtain ⟨inner, j, rest, hopener, rfl⟩ := ih h
        exact ⟨i :: inner, j, rest, by simpa using hopener, rfl⟩
    · obtain ⟨names, -, rfl⟩ := List.mem_map.1 h
      exact ⟨[], i, path, (List.append_nil here).symm, rfl⟩

end Spot

namespace Node

variable {ns : List Node} {path : List Nat} {spot : Spot}

theorem seekAll_append (h : seekAll ns path = some spot) (rest : List Nat) :
    seekAll ns (path ++ rest) = Spot.seek rest spot := by
  cases path with
  | nil => cases h
  | cons i path =>
    obtain ⟨part, hpart, hseek⟩ := Option.bind_eq_some_iff.1 h
    rw [List.cons_append, seekAll, hpart]
    show Spot.seek (path ++ rest) part = _
    rw [Spot.seek_append, hseek]
    rfl

theorem scopesAround_append (h : seekAll ns path = some spot) (rest : List Nat) :
    scopesAround ns (path ++ rest) = spot.enclosing path rest ++ scopesAround ns path := by
  cases path with
  | nil => cases h
  | cons i path =>
    obtain ⟨part, hpart, hseek⟩ := Option.bind_eq_some_iff.1 h
    rw [List.cons_append, scopesAround, scopesAround, hpart]
    exact Spot.enclosing_append hseek rest

theorem exists_of_mem_scopesAround {scope : Enclosure} (h : scope ∈ scopesAround ns path) :
    ∃ i rest, path = scope.opener ++ i :: rest := by
  cases path with
  | nil => cases h
  | cons i path =>
    rw [scopesAround] at h
    cases hpart : (Site.statements {} ns)[i]? with
    | none =>
      rw [hpart] at h
      cases h
    | some part =>
      rw [hpart] at h
      obtain ⟨inner, j, rest, hopener, rfl⟩ := Spot.exists_of_mem_enclosing h
      exact ⟨j, rest, by rw [hopener]; rfl⟩

theorem length_scopesAround (h : seekAll ns path = some spot) :
    (scopesAround ns path).length = spot.site.scopes.length := by
  rw [(sameNames_seekAll h).length_eq, List.length_map]

/-- The way to a place goes through every node that is on it. -/
theorem exists_seekAll_of_append (hpath : path ≠ []) {rest : List Nat}
    (h : seekAll ns (path ++ rest) = some spot) : ∃ mid, seekAll ns path = some mid := by
  cases path with
  | nil => exact absurd rfl hpath
  | cons i path =>
    rw [List.cons_append] at h
    obtain ⟨part, hpart, hseek⟩ := Option.bind_eq_some_iff.1 h
    rw [Spot.seek_append] at hseek
    obtain ⟨mid, hmid, -⟩ := Option.bind_eq_some_iff.1 hseek
    exact ⟨mid, by rw [seekAll, hpart]; exact hmid⟩

end Node

/-! ## What is left in a table -/

namespace Table

variable {β : Type}

theorem entries_insert_of_not_mem {t : Table β} {name : String} (h : name ∉ t.names) (value : β) :
    (t.insert name value).entries = t.entries ++ [(name, value)] := by
  obtain ⟨entries⟩ := t
  induction entries with
  | nil => rfl
  | cons entry rest ih =>
    obtain ⟨key, old⟩ := entry
    have hkey : key ≠ name := fun hkey => h (List.mem_cons.2 (.inl hkey.symm))
    have hrest := ih fun hmem => h (List.mem_cons_of_mem _ hmem)
    simp only [insert, insertEntry, hkey, if_false] at hrest ⊢
    rw [hrest, List.cons_append]

theorem names_insert_of_not_mem {t : Table β} {name : String} (h : name ∉ t.names) (value : β) :
    (t.insert name value).names = t.names ++ [name] := by
  rw [names, entries_insert_of_not_mem h, List.map_append]
  rfl

theorem names_without_sublist (t : Table β) (p : String → Bool) :
    (t.without p).names.Sublist t.names := List.filter_sublist.map _

end Table

namespace Spot

variable {here : List Nat} {height : Nat}

/-- The variables that statements declare and the statements after them do not read. -/
def survivors (here : List Nat) (height : Nat) : (i : Nat) → List Spot → List Token
  | _, [] => []
  | i, part :: rest =>
    part.node.asVariable?.toList.filter
      (fun name => !readsAt (readings (walkParts here (i + 1) rest)) height name.lexeme) ++
      survivors here height (i + 1) rest

/-- If no name is declared twice, those of the table and of the statements are left that are not
read later on. -/
theorem entries_leftover {i : Nat} {parts : List Spot} {t : Table Token}
    (h : (t.names ++ parts.filterMap fun part => part.node.asVariable?.map (·.lexeme)).Nodup) :
    (leftover here height i parts t).entries =
      (t.without (readsAt (readings (walkParts here i parts)) height)).entries ++
        (survivors here height i parts).map fun name => (name.lexeme, name) := by
  induction parts generalizing i t with
  | nil =>
    rw [walkParts, leftover, survivors]
    exact (congrArg (·.entries) t.without_false).symm.trans (List.append_nil _).symm
  | cons part rest ih =>
    have hsublist := t.names_without_sublist (readsAt (readings (part.walk (here ++ [i]))) height)
    rw [leftover, walkParts, readings_append, survivors, readsAt_append, ← Table.without_without]
    cases hvar : part.node.asVariable? with
    | none =>
      rw [List.filterMap_cons_none (by rw [hvar]; rfl)] at h
      rw [Node.watch, hvar, ih (h.sublist (hsublist.append_right _))]
      rfl
    | some name =>
      rw [List.filterMap_cons_some (by rw [hvar]; rfl)] at h
      have hnodup := h.sublist (hsublist.append_right _)
      have hfree : name.lexeme ∉
          (t.without (readsAt (readings (part.walk (here ++ [i]))) height)).names :=
        fun hmem => List.disjoint_of_nodup_append hnodup hmem List.mem_cons_self
      rw [Node.watch, hvar, ih (by rw [Table.names_insert_of_not_mem hfree]; simpa using hnodup),
        Table.without, Table.entries_insert_of_not_mem hfree, List.filter_append, List.append_assoc,
        List.map_append]
      by_cases hread : readsAt (readings (walkParts here (i + 1) rest)) height name.lexeme <;>
        simp [Table.without, hread]

theorem values_leftover {i : Nat} {parts : List Spot}
    (h : (parts.filterMap fun part => part.node.asVariable?.map (·.lexeme)).Nodup) :
    (leftover here height i parts .empty).values = survivors here height i parts := by
  rw [Table.values, entries_leftover (t := .empty) h, Table.without_empty]
  simp [Table.empty, Function.comp_def]

end Spot

/-! ## Places that read a variable -/

/-- The statements of the scope that a spot opens, and the names bound in it before them. -/
structure Spot.Holds (spot : Spot) (bound : List String) (nodes : List Node) : Prop where
  parts : spot.parts.map (·.node) = nodes
  locals : spot.node.locals = bound ++ nodes.filterMap Node.declared?
  opens : ∀ i, spot.node.opens i = [bound ++ (nodes.take (i + 1)).filterMap Node.declared?]
  unread : ∀ here, spot.unread here =
    (leftover here spot.site.scopes.length 0 spot.parts .empty).values
  variablesIn : ∀ ns path, Node.at? ns path = some spot.node →
    Node.variablesIn ns path = Node.variablesFrom path 0 nodes

theorem Site.map_node_statements (site : Site) (ns : List Node) :
    (site.statements ns).map (·.node) = ns := by
  induction ns generalizing site with
  | nil => rfl
  | cons n rest ih => rw [statements, List.map_cons, ih]

theorem Spot.exists_holds {spot : Spot} (h : spot.node.hasStatements) :
    ∃ bound nodes, spot.Holds bound nodes := by
  obtain ⟨site, isMethod, n⟩ := spot
  cases n with
  | block statements =>
    exact ⟨[], statements, Site.map_node_statements _ _, rfl, fun _ => rfl, fun _ => rfl,
      fun ns path hat => by rw [Node.variablesIn, hat]⟩
  | function name params body =>
    exact ⟨params.map (·.lexeme), body, Site.map_node_statements _ _, rfl, fun _ => rfl,
      fun _ => rfl, fun ns path hat => by rw [Node.variablesIn, hat]⟩
  | _ => cases h

section Reads

variable {ns : List Node} {here : List Nat} {spot : Spot} {bound : List String} {nodes : List Node}

/-- The scopes around a place inside of a list of statements. -/
theorem Spot.Holds.scopesAround (hholds : spot.Holds bound nodes)
    (hseek : Node.seekAll ns here = some spot) {i : Nat} {part : Spot}
    (hpart : spot.parts[i]? = some part) (rest : List Nat) :
    Node.scopesAround ns (here ++ i :: rest) = part.enclosing (here ++ [i]) rest ++
      ⟨here, bound ++ (nodes.take (i + 1)).filterMap Node.declared?⟩ ::
        Node.scopesAround ns here := by
  rw [Node.scopesAround_append hseek, Spot.enclosing, hpart, hholds.opens, List.append_assoc]
  rfl

/-- A scope around a place is known by what opens it. -/
theorem Spot.Holds.length_scopesAround (hholds : spot.Holds bound nodes)
    (hseek : Node.seekAll ns here = some spot) {i : Nat} {part : Spot}
    (hpart : spot.parts[i]? = some part) {rest : List Nat} {hops : Nat} {scope : Enclosure}
    (hscope : (Node.scopesAround ns (here ++ i :: rest))[hops]? = some scope)
    (hopener : scope.opener = here) :
    (Node.scopesAround ns (here ++ i :: rest)).length = spot.site.scopes.length + hops + 1 := by
  have hlength := Node.length_scopesAround hseek
  rw [hholds.scopesAround hseek hpart] at hscope ⊢
  set inner := part.enclosing (here ++ [i]) rest
  rw [List.length_append, List.length_cons, hlength]
  rcases Nat.lt_trichotomy hops inner.length with hlt | heq | hgt
  · -- The openers further in are longer than the path to this one.
    rw [List.getElem?_append_left hlt] at hscope
    obtain ⟨more, -, -, hmore, -⟩ := Spot.exists_of_mem_enclosing (List.mem_of_getElem? hscope)
    have := congrArg List.length (hopener.symm.trans hmore)
    simp at this
  · omega
  · -- The openers further out are shorter.
    rw [List.getElem?_append_right hgt.le, List.getElem?_cons,
      if_neg (Nat.sub_ne_zero_of_lt hgt)] at hscope
    obtain ⟨j, last, hhere⟩ := Node.exists_of_mem_scopesAround (List.mem_of_getElem? hscope)
    have := congrArg List.length hhere
    rw [hopener] at this
    simp at this

theorem Spot.Holds.getElem?_scopesAround (hholds : spot.Holds bound nodes)
    (hseek : Node.seekAll ns here = some spot) {i : Nat} {part : Spot}
    (hpart : spot.parts[i]? = some part) {rest : List Nat} {hops : Nat}
    (hlength : (Node.scopesAround ns (here ++ i :: rest)).length =
      spot.site.scopes.length + hops + 1) :
    (Node.scopesAround ns (here ++ i :: rest))[hops]? =
      some ⟨here, bound ++ (nodes.take (i + 1)).filterMap Node.declared?⟩ := by
  have houter := Node.length_scopesAround hseek
  rw [hholds.scopesAround hseek hpart] at hlength ⊢
  rw [List.length_append, List.length_cons, houter] at hlength
  obtain rfl : hops = (part.enclosing (here ++ [i]) rest).length := by omega
  rw [List.getElem?_append_right (Nat.le_refl _), Nat.sub_self]
  rfl

theorem Node.eq_varDecl {n : Node} {name : Token} (h : n.asVariable? = some name) :
    ∃ initializer, n = .varDecl name initializer := by
  cases n with
  | varDecl found initializer =>
    obtain rfl : found = name := Option.some.inj h
    exact ⟨initializer, rfl⟩
  | _ => cases h

/-- A name that is declared once is not bound by the statements before its declaration. -/
theorem not_mem_bound (h : (bound ++ nodes.filterMap Node.declared?).Nodup) {i j : Nat} {n : Node}
    {x : String} (hn : nodes[j]? = some n) (hx : n.declared? = some x) (hij : i < j) :
    x ∉ bound ++ (nodes.take (i + 1)).filterMap Node.declared? := by
  have hlater : x ∈ (nodes.drop (i + 1)).filterMap Node.declared? := by
    refine List.mem_filterMap.2 ⟨n, List.mem_of_getElem? (i := j - (i + 1)) ?_, hx⟩
    rw [List.getElem?_drop, Nat.add_sub_cancel' hij, hn]
  rw [← List.take_append_drop (i + 1) nodes, List.filterMap_append, ← List.append_assoc] at h
  exact fun hmem => List.disjoint_of_nodup_append h hmem hlater

theorem Stop.reading?_eq_some_iff {stop : Stop} {height : Nat} {x : String} :
    stop.reading? = some (height, x) ↔ stop.isLeaving = false ∧ ∃ r, stop.spot.node = .ident r ∧
      r.name.lexeme = x ∧ Site.heightOf? x stop.spot.site.scopes = some height := by
  obtain ⟨path, ⟨site, isMethod, n⟩, isLeaving⟩ := stop
  cases isLeaving with
  | true => simp [reading?]
  | false =>
    cases n with
    | ident r =>
      simp only [reading?, Option.map_eq_some_iff, Prod.mk.injEq, true_and, Node.ident.injEq]
      constructor
      · rintro ⟨found, hfound, rfl, rfl⟩
        exact ⟨r, rfl, rfl, hfound⟩
      · rintro ⟨r', rfl, rfl, hheight⟩
        exact ⟨height, hheight, rfl, rfl⟩
    | _ => simp [reading?]

/-- The name is read somewhere in the parts. -/
theorem Spot.mem_readings_walkParts {i height : Nat} {x : String} {parts : List Spot} :
    (height, x) ∈ readings (walkParts here i parts) ↔
      ∃ (j : Nat) (part : Spot) (rest : List Nat) (found : Spot) (r : Reference),
        parts[j]? = some part ∧ seek rest part = some found ∧ found.node = .ident r ∧
          r.name.lexeme = x ∧ Site.heightOf? x found.site.scopes = some height := by
  rw [readings, List.mem_filterMap]
  constructor
  · rintro ⟨stop, hstop, hreading⟩
    obtain ⟨j, part, hpart, hwalk⟩ := mem_walkParts.1 hstop
    obtain ⟨rest, -, hseek⟩ := mem_walk.1 hwalk
    obtain ⟨-, r, hnode, hname, hheight⟩ := Stop.reading?_eq_some_iff.1 hreading
    exact ⟨j, part, rest, stop.spot, r, hpart, hseek, hnode, hname, hheight⟩
  · rintro ⟨j, part, rest, found, r, hpart, hseek, hnode, hname, hheight⟩
    refine ⟨⟨here ++ [i + j] ++ rest, found, false⟩, mem_walkParts.2 ⟨j, part, hpart, ?_⟩, ?_⟩
    · exact mem_walk.2 ⟨rest, rfl, hseek⟩
    · exact Stop.reading?_eq_some_iff.2 ⟨rfl, r, hnode, hname, hheight⟩

/-- A place finds a name at some height if the first scope around it that binds the name is at that
height. -/
theorem heightOf?_eq_some_iff_firstBinds {path : List Nat} {found : Spot}
    (h : Node.seekAll ns path = some found) {x : String} {height : Nat} :
    Site.heightOf? x found.site.scopes = some height ↔
      ∃ hops, FirstBinds (Node.scopesAround ns path) hops x ∧
        (Node.scopesAround ns path).length = height + hops + 1 := by
  rw [Site.heightOf?_eq_some_iff, (sameNames_seekAll h).hopsTo?_eq, Node.length_scopesAround h]
  simp only [hopsTo?_eq_some_iff]

/-- If no name is declared twice, only the statements after a declaration can read its variable,
apart from the declaration itself. -/
theorem Spot.Holds.isRead_iff (hholds : spot.Holds bound nodes)
    (hseek : Node.seekAll ns here = some spot) (hdistinct : spot.node.locals.Nodup) {j : Nat}
    {n : Node} {name : Token} (hn : nodes[j]? = some n) (hvar : n.asVariable? = some name) :
    Node.IsRead ns (here ++ [j]) name.lexeme ↔ (spot.site.scopes.length, name.lexeme) ∈
      readings (walkParts here (j + 1) (spot.parts.drop (j + 1))) := by
  have hdeclared : n.declared? = some name.lexeme := by
    obtain ⟨initializer, rfl⟩ := Node.eq_varDecl hvar
    rfl
  rw [mem_readings_walkParts]
  constructor
  · rintro ⟨reading, r, hops, scope, hat, hname, houtside, hfirst, hscope, hopener⟩
    rw [List.dropLast_concat] at hopener
    obtain ⟨k, rest, hreading⟩ :=
      Node.exists_of_mem_scopesAround (List.mem_of_getElem? hscope)
    rw [hopener] at hreading
    subst hreading
    obtain ⟨found, hfound, hnode⟩ := Option.map_eq_some_iff.1 hat
    obtain ⟨part, hpart, hrest⟩ :=
      Option.bind_eq_some_iff.1 ((Node.seekAll_append hseek _).symm.trans hfound)
    have hlength := hholds.length_scopesAround hseek hpart hscope hopener
    have hk : j < k := by
      rcases Nat.lt_trichotomy j k with hlt | rfl | hgt
      · exact hlt
      · exact absurd ⟨rest, by simp⟩ houtside
      · obtain ⟨found', hfound', hmem⟩ := hfirst.1
        rw [hholds.getElem?_scopesAround hseek hpart hlength] at hfound'
        obtain rfl := Option.some.inj hfound'
        exact absurd hmem (not_mem_bound (hholds.locals ▸ hdistinct) hn hdeclared hgt)
    refine ⟨k - (j + 1), part, rest, found, r, ?_, hrest, hnode, hname,
      (heightOf?_eq_some_iff_firstBinds hfound).2 ⟨hops, hfirst, hlength⟩⟩
    rw [List.getElem?_drop, Nat.add_sub_cancel' hk, hpart]
  · rintro ⟨k, part, rest, found, r, hpart, hrest, hnode, hname, hheight⟩
    rw [List.getElem?_drop] at hpart
    have hfound : Node.seekAll ns (here ++ (j + 1 + k) :: rest) = some found := by
      rw [Node.seekAll_append hseek, seek, hpart]
      exact hrest
    obtain ⟨hops, hfirst, hlength⟩ := (heightOf?_eq_some_iff_firstBinds hfound).1 hheight
    refine ⟨_, r, hops, _, by rw [Node.at?, hfound, ← hnode]; rfl, hname, ?_, hfirst,
      hholds.getElem?_scopesAround hseek hpart hlength, List.dropLast_concat.symm⟩
    rintro ⟨more, hmore⟩
    rw [List.append_assoc, List.append_cancel_left_eq] at hmore
    simp only [List.cons_append, List.nil_append, List.cons.injEq] at hmore
    omega

open scoped Classical in
/-- What is left in the table of a scope are the variables that nothing reads. -/
theorem Spot.Holds.survivors_eq (hholds : spot.Holds bound nodes)
    (hseek : Node.seekAll ns here = some spot) (hdistinct : spot.node.locals.Nodup)
    {suffix : List Spot} {i : Nat} (hsuffix : spot.parts.drop i = suffix) :
    survivors here spot.site.scopes.length i suffix =
      ((Node.variablesFrom here i (suffix.map (·.node))).filter fun found =>
        ¬ Node.IsRead ns found.1 found.2.lexeme).map (·.2) := by
  induction suffix generalizing i with
  | nil => rfl
  | cons part rest ih =>
    have hpart : spot.parts[i]? = some part := by
      rw [← Nat.add_zero i, ← List.getElem?_drop, hsuffix]
      rfl
    have hrest : spot.parts.drop (i + 1) = rest := by
      rw [← List.drop_drop, hsuffix]
      rfl
    have hnode : nodes[i]? = some part.node := by
      rw [← hholds.parts, List.getElem?_map, hpart]
      rfl
    rw [survivors, List.map_cons, Node.variablesFrom, List.filter_append, List.map_append, ih hrest]
    refine congrArg (· ++ _) ?_
    cases hvar : part.node.asVariable? with
    | none => rfl
    | some name =>
      have hread := hholds.isRead_iff hseek hdistinct hnode hvar
      rw [hrest] at hread
      by_cases h : Node.IsRead ns (here ++ [i]) name.lexeme
      · simp [readsAt, h, hread.1 h]
      · simp [readsAt, h, mt hread.2 h]

end Reads

/-- A variable is a declared name. -/
theorem Node.filterMap_asVariable_sublist (ns : List Node) :
    (ns.filterMap fun n => n.asVariable?.map (·.lexeme)).Sublist (ns.filterMap declared?) := by
  induction ns with
  | nil => exact .slnil
  | cons n rest ih =>
    cases n with
    | varDecl name initializer => exact ih.cons_cons name.lexeme
    | function name params body => exact ih.cons name.lexeme
    | classDecl name superclass methods => exact ih.cons name.lexeme
    | _ => exact ih

theorem Node.variablesIn_eq_nil {ns : List Node} {path : List Nat} {n : Node}
    (hat : at? ns path = some n) (h : ¬ n.hasStatements) : variablesIn ns path = [] := by
  rw [variablesIn, hat]
  cases n with
  | block statements => exact absurd rfl h
  | function name params body => exact absurd rfl h
  | _ => rfl

/-- The variables that nothing has read when a scope closes are those that nothing reads at all. -/
theorem Spot.unread_eq {ns : List Node} {here : List Nat} {spot : Spot}
    (hseek : Node.seekAll ns here = some spot) (hdistinct : spot.node.locals.Nodup) :
    spot.unread here = (Node.unusedIn ns here).map (·.2) := by
  have hat := Node.at?_of_seekAll hseek
  by_cases hstatements : spot.node.hasStatements
  · obtain ⟨bound, nodes, hholds⟩ := exists_holds hstatements
    have hvariables : (spot.parts.filterMap fun part =>
        part.node.asVariable?.map (·.lexeme)).Nodup := by
      have hnodes := Node.filterMap_asVariable_sublist nodes
      rw [← hholds.parts, List.filterMap_map, hholds.parts] at hnodes
      exact (hholds.locals ▸ hdistinct).of_append_right.sublist hnodes
    have hsurvivors := hholds.survivors_eq hseek hdistinct (i := 0) rfl
    rw [List.drop_zero, hholds.parts] at hsurvivors
    rw [hholds.unread, values_leftover hvariables, hsurvivors, Node.unusedIn,
      hholds.variablesIn ns here hat]
  · rw [Node.unusedIn, Node.variablesIn_eq_nil hat hstatements, Spot.unread]
    split
    · exact absurd (by simp_all [Node.hasStatements]) hstatements
    · exact absurd (by simp_all [Node.hasStatements]) hstatements
    · rfl

/-! ## Complaints -/

theorem problem_of_mem_redeclared {site : Site} {name : Token} {c : Complaint}
    (h : c ∈ site.redeclared name) : c.problem = .alreadyDeclared := by
  rw [Site.redeclared] at h
  split at h
  · cases h
  · split at h
    · rw [List.mem_singleton.1 h]
    · cases h

theorem problem_of_mem_repeated {bound : List String} {params : List Token} {c : Complaint}
    (h : c ∈ repeated bound params) : c.problem = .alreadyDeclared := by
  induction params generalizing bound with
  | nil => cases h
  | cons name rest ih =>
    rcases List.mem_append.1 h with h | h
    · split at h
      · rw [List.mem_singleton.1 h]
      · cases h
    · exact ih h

theorem ne_neverUsed_of_mem_ite {p : Prop} [Decidable p] {token : Token} {problem : Problem}
    (hproblem : problem ≠ .neverUsed) {c : Complaint}
    (h : c ∈ if p then [⟨token, problem⟩] else ([] : List Complaint)) : c.problem ≠ .neverUsed := by
  split at h
  · rw [List.mem_singleton.1 h]
    exact hproblem
  · cases h

/-- On the way in nothing is known yet of what is used. -/
theorem Spot.problem_ne_neverUsed {spot : Spot} {c : Complaint} (h : c ∈ spot.remarks) :
    c.problem ≠ .neverUsed := by
  obtain ⟨site, isMethod, n⟩ := spot
  cases n with
  | varDecl name initializer =>
    rw [problem_of_mem_redeclared h]
    decide
  | function name params body =>
    rcases List.mem_append.1 h with h | h
    · cases isMethod with
      | true => cases h
      | false =>
        rw [problem_of_mem_redeclared h]
        decide
    · rw [problem_of_mem_repeated h]
      decide
  | classDecl name superclass methods =>
    rcases List.mem_append.1 h with h | h
    · rw [problem_of_mem_redeclared h]
      decide
    · obtain ⟨parent, -, hparent⟩ := List.mem_flatMap.1 h
      exact ne_neverUsed_of_mem_ite (by decide) hparent
  | ident r => exact ne_neverUsed_of_mem_ite (by decide) h
  | receiver keyword => exact ne_neverUsed_of_mem_ite (by decide) h
  | superMethod keyword method =>
    simp only [remarks] at h
    split at h
    · rw [List.mem_singleton.1 h]
      exact (by decide : Problem.superOutsideClass ≠ .neverUsed)
    · rw [List.mem_singleton.1 h]
      exact (by decide : Problem.superWithoutSuperclass ≠ .neverUsed)
    · cases h
  | returning keyword value =>
    rcases List.mem_append.1 h with h | h
    · exact ne_neverUsed_of_mem_ite (by decide) h
    · exact ne_neverUsed_of_mem_ite (by decide) h
  | _ => cases h

/-! ## Exactness -/

section Exact

variable {ns : List Node}

theorem Node.mem_variablesFrom {here path : List Nat} {name : Token} {i : Nat} {nodes : List Node} :
    (path, name) ∈ variablesFrom here i nodes ↔
      ∃ (j : Nat) (n : Node), nodes[j]? = some n ∧ n.asVariable? = some name ∧
        path = here ++ [i + j] := by
  induction nodes generalizing i with
  | nil => simp [variablesFrom]
  | cons first rest ih =>
    rw [variablesFrom, List.mem_append, ih]
    constructor
    · rintro (h | ⟨j, n, hn, hvar, rfl⟩)
      · obtain ⟨found, hfound, hpath⟩ := Option.map_eq_some_iff.1 (Option.mem_toList.1 h)
        obtain ⟨rfl, rfl⟩ := Prod.mk.inj hpath
        exact ⟨0, first, rfl, hfound, rfl⟩
      · exact ⟨j + 1, n, hn, hvar, by rw [Nat.add_assoc, Nat.add_comm 1 j]⟩
    · rintro ⟨_ | j, n, hn, hvar, rfl⟩
      · obtain rfl := Option.some.inj hn
        exact .inl (Option.mem_toList.2 (Option.map_eq_some_iff.2 ⟨name, hvar, rfl⟩))
      · exact .inr ⟨j, n, hn, hvar, by rw [Nat.add_assoc, Nat.add_comm 1 j]⟩

theorem Node.nodup_variablesFrom (here : List Nat) (i : Nat) (nodes : List Node) :
    (variablesFrom here i nodes).Nodup := by
  induction nodes generalizing i with
  | nil => exact List.nodup_nil
  | cons first rest ih =>
    have hfirst : (first.asVariable?.map (here ++ [i], ·)).toList.Nodup := by
      cases first.asVariable? <;> simp
    refine hfirst.append (ih _) ?_
    rintro ⟨path, name⟩ hmem hlater
    obtain ⟨found, -, hpath⟩ := Option.map_eq_some_iff.1 (Option.mem_toList.1 hmem)
    obtain ⟨j, -, -, -, hpath'⟩ := mem_variablesFrom.1 hlater
    have hsame := (Prod.mk.inj hpath).1.trans hpath'
    simp only [List.append_cancel_left_eq, List.cons.injEq, and_true] at hsame
    omega

/-- The variables declared in a scope. -/
theorem Node.mem_variablesIn {here path : List Nat} {spot : Spot} {name : Token}
    (hseek : seekAll ns here = some spot) : (path, name) ∈ variablesIn ns here ↔
      spot.node.hasStatements ∧ ∃ (j : Nat) (part : Spot), spot.parts[j]? = some part ∧
        part.node.asVariable? = some name ∧ path = here ++ [j] := by
  have hat := at?_of_seekAll hseek
  by_cases hstatements : spot.node.hasStatements
  · obtain ⟨bound, nodes, hholds⟩ := Spot.exists_holds hstatements
    simp only [hholds.variablesIn ns here hat, mem_variablesFrom, hstatements, true_and,
      ← hholds.parts, List.getElem?_map, Option.map_eq_some_iff, Nat.zero_add]
    constructor
    · rintro ⟨j, n, ⟨part, hpart, rfl⟩, hvar, rfl⟩
      exact ⟨j, part, hpart, hvar, rfl⟩
    · rintro ⟨j, part, hpart, hvar, rfl⟩
      exact ⟨j, part.node, ⟨part, hpart, rfl⟩, hvar, rfl⟩
  · simp [variablesIn_eq_nil hat hstatements, hstatements]

theorem Node.mem_unusedIn {here path : List Nat} {name : Token} :
    (path, name) ∈ unusedIn ns here ↔
      (path, name) ∈ variablesIn ns here ∧ ¬ IsRead ns path name.lexeme := by
  classical
  simp [unusedIn]

/-- Every local variable is declared in a scope that some node opens. -/
theorem Node.isUnused_iff {ok : Token → Prop} (hns : FitAll ok .declaration ns) {path : List Nat}
    {name : Token} : IsUnused ns path name ↔ ∃ here spot, seekAll ns here = some spot ∧
      (path, name) ∈ unusedIn ns here := by
  constructor
  · rintro ⟨⟨initializer, hat⟩, hlocal, hunread⟩
    obtain ⟨found, hfound, hnode⟩ := Option.map_eq_some_iff.1 hat
    obtain ⟨here, j, rfl⟩ : ∃ here j, path = here ++ [j] := by
      cases path using List.reverseRecOn with
      | nil => cases hat
      | append_singleton here j => exact ⟨here, j, rfl⟩
    have hhere : here ≠ [] := by
      rintro rfl
      refine hlocal ?_
      rw [List.nil_append, scopesAround]
      cases (Site.statements {} ns)[j]? <;> rfl
    obtain ⟨spot, hseek⟩ := exists_seekAll_of_append hhere hfound
    have hpart : spot.parts[j]? = some found := by
      rw [seekAll_append hseek, Spot.seek] at hfound
      obtain ⟨part, hpart, hsame⟩ := Option.bind_eq_some_iff.1 hfound
      obtain rfl : part = found := Option.some.inj hsame
      exact hpart
    obtain ⟨role, hfits⟩ := fits_of_seekAll hns hseek
    obtain ⟨role', hfits', hdeclaration⟩ :=
      Spot.fits_of_mem_parts hfits (List.mem_of_getElem? hpart)
    rw [hnode] at hfits'
    refine ⟨here, spot, hseek, mem_unusedIn.2 ⟨(mem_variablesIn hseek).2
      ⟨hdeclaration hfits'.1, j, found, hpart, by rw [hnode]; rfl, rfl⟩, hunread⟩⟩
  · rintro ⟨here, spot, hseek, hmem⟩
    obtain ⟨hvariable, hunread⟩ := mem_unusedIn.1 hmem
    obtain ⟨hstatements, j, part, hpart, hvar, rfl⟩ := (mem_variablesIn hseek).1 hvariable
    obtain ⟨bound, nodes, hholds⟩ := Spot.exists_holds hstatements
    refine ⟨?_, ?_, hunread⟩
    · obtain ⟨initializer, hnode⟩ := Node.eq_varDecl hvar
      refine ⟨initializer, ?_⟩
      rw [at?, seekAll_append hseek, Spot.seek, hpart, ← hnode]
      rfl
    · rw [hholds.scopesAround hseek hpart]
      simp

theorem Node.mem_unusedAll {ok : Token → Prop} (hns : FitAll ok .declaration ns) {path : List Nat}
    {name : Token} : (path, name) ∈ unusedAll ns ↔ IsUnused ns path name := by
  rw [isUnused_iff hns, unusedAll, List.mem_flatMap]
  constructor
  · rintro ⟨stop, hstop, hmem⟩
    split at hmem
    · exact ⟨stop.path, stop.spot, mem_walkAll.1 hstop, hmem⟩
    · cases hmem
  · rintro ⟨here, spot, hseek, hmem⟩
    exact ⟨⟨here, spot, true⟩, mem_walkAll.2 hseek, hmem⟩

theorem Node.nodup_unusedIn (ns : List Node) (here : List Nat) : (unusedIn ns here).Nodup := by
  refine List.Nodup.filter _ ?_
  rw [variablesIn]
  split
  · exact nodup_variablesFrom _ _ _
  · exact nodup_variablesFrom _ _ _
  · exact List.nodup_nil

theorem Node.disjoint_unusedIn {here here' : List Nat} {spot spot' : Spot}
    (hseek : seekAll ns here = some spot) (hseek' : seekAll ns here' = some spot')
    (hne : here ≠ here') : List.Disjoint (unusedIn ns here) (unusedIn ns here') := by
  rintro ⟨path, name⟩ hmem hmem'
  obtain ⟨-, j, -, -, -, rfl⟩ := (mem_variablesIn hseek).1 (mem_unusedIn.1 hmem).1
  obtain ⟨-, j', -, -, -, hpath⟩ := (mem_variablesIn hseek').1 (mem_unusedIn.1 hmem').1
  exact hne (List.append_inj_left' hpath rfl)

theorem Node.nodup_unusedAll (ns : List Node) : (unusedAll ns).Nodup := by
  rw [unusedAll, List.nodup_flatMap]
  refine ⟨fun stop _ => ?_, ?_⟩
  · split
    · exact nodup_unusedIn ns stop.path
    · exact List.nodup_nil
  · refine (List.pairwise_map.1 (nodup_walkAll ns)).imp_of_mem ?_
    intro stop stop' hstop hstop' hne
    simp only [Function.onFun]
    split
    · split
      · rename_i hleaving hleaving'
        refine disjoint_unusedIn (mem_walkAll.1 hstop) (mem_walkAll.1 hstop') fun hpath => hne ?_
        rw [hpath, hleaving, hleaving']
      · exact List.disjoint_nil_right _
    · exact List.disjoint_nil_left _

/-- Of what resolution complains at each stop of the walk. -/
theorem resolve_complaints {ok : Token → Prop} (hns : Node.FitAll ok .declaration ns)
    (hdistinct : ∀ path n, Node.at? ns path = some n → n.locals.Nodup) :
    (resolve ns).2 = (Node.walkAll ns).flatMap fun stop =>
      if stop.isLeaving then (Node.unusedIn ns stop.path).map fun found => ⟨found.2, .neverUsed⟩
      else stop.spot.remarks := by
  rw [resolve, follows_nodes hns]
  refine List.flatMap_congr fun stop hstop => ?_
  have hseek := Node.mem_walkAll.1 hstop
  rw [Stop.complaints, Spot.unread_eq hseek (hdistinct _ _ (Node.at?_of_seekAll hseek)),
    List.map_map]
  rfl

end Exact

/-- If no scope declares a name twice, resolution complains exactly once of each local variable that
is never read, and of nothing else that it is never used. It does so when the scope of the variable
closes, in the order of the declarations. -/
theorem resolve_unused {s : Session} {tokens : List Token} {statements : List Node}
    (h : (s.parseTokens tokens).2 = .ok statements)
    (hdistinct : ∀ path n, Node.at? statements path = some n → n.locals.Nodup) :
    Problem.neverUsed.message = "The variable is never used." ∧
    (∃ remarks : Stop → List Complaint,
      (∀ stop, ∀ c ∈ remarks stop, c.problem ≠ .neverUsed) ∧
        (resolve statements).2 = (Node.walkAll statements).flatMap fun stop =>
          if stop.isLeaving then
            (Node.unusedIn statements stop.path).map fun found => ⟨found.2, .neverUsed⟩
          else remarks stop) ∧
    (Node.unusedAll statements).Nodup ∧
    (∀ path name, (path, name) ∈ Node.unusedAll statements ↔ Node.IsUnused statements path name) ∧
    (resolve statements).2.filter (·.problem = .neverUsed) =
      (Node.unusedAll statements).map fun found => ⟨found.2, .neverUsed⟩ := by
  have hfits := Session.fitAll_of_parseTokens h
  have hcomplaints := resolve_complaints hfits hdistinct
  refine ⟨rfl, ⟨_, fun stop c hc => Spot.problem_ne_neverUsed hc, hcomplaints⟩,
    Node.nodup_unusedAll statements, fun path name => Node.mem_unusedAll hfits, ?_⟩
  rw [hcomplaints, Node.unusedAll, List.filter_flatMap, List.map_flatMap]
  refine List.flatMap_congr fun stop _ => ?_
  split
  · exact List.filter_eq_self.2 fun c hc => by
      obtain ⟨found, -, rfl⟩ := List.mem_map.1 hc
      rfl
  · exact List.filter_eq_nil_iff.2 fun c hc => by simpa using Spot.problem_ne_neverUsed hc

/-- In this program `b` is the only variable that is never used: `a` is read by the function that
is declared after it, and the assignment to `b` does not read it. -/
theorem resolve_unused_assigned :
    let source := "\x7b var a = 1; fun f(p) \x7b var b; b = a; \x7d f(2); \x7d"
    ∃ statements, (Session.parseTokens {} (scan source).tokens).2 = .ok statements ∧
      ∃ path name, Node.IsUnused statements path name ∧ name.lexeme = "b" ∧
        ∀ path' name', Node.IsUnused statements path' name' → path' = path := by
  intro source
  have hfacts : ((Session.parseTokens {} (scan source).tokens).2.toOption.map fun ns =>
      ((Node.walkAll ns).all fun stop => decide stop.spot.node.locals.Nodup,
        (resolve ns).2.filter (·.problem = .neverUsed))) =
      some (true, [⟨⟨.identifier, "b", .nil, 1⟩, .neverUsed⟩]) := by decide +kernel
  cases hparsed : (Session.parseTokens {} (scan source).tokens).2 with
  | error crash =>
    rw [hparsed] at hfacts
    cases hfacts
  | ok statements =>
    rw [hparsed] at hfacts
    obtain ⟨hlocals, hcomplaints⟩ := Prod.mk.inj (Option.some.inj hfacts)
    have hdistinct : ∀ path n, Node.at? statements path = some n → n.locals.Nodup := by
      intro path n hat
      obtain ⟨spot, hseek, rfl⟩ := Option.map_eq_some_iff.1 hat
      exact of_decide_eq_true (List.all_eq_true.1 hlocals ⟨path, spot, false⟩
        (Node.mem_walkAll.2 hseek))
    obtain ⟨-, -, -, hmem, hfilter⟩ := resolve_unused hparsed hdistinct
    rw [hcomplaints] at hfilter
    obtain ⟨⟨path, name⟩, hunused, hname⟩ := List.map_eq_singleton_iff.1 hfilter.symm
    simp only [hunused, List.mem_singleton, Prod.mk.injEq] at hmem
    exact ⟨statements, rfl, path, name, (hmem path name).1 ⟨rfl, rfl⟩,
      congrArg Token.lexeme (Complaint.mk.inj hname).1,
      fun path' name' h => ((hmem path' name').2 h).1⟩

end Lox
