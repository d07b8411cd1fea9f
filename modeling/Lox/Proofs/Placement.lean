import Mathlib.Tactic
import Lox.Proofs.Unused

/-!
# What stands in the wrong place

Whether a `return`, a `this`, a `super` or a superclass is in the wrong place is said here by the
path to it alone: which functions and classes are around the end of the path, and which of them is
the innermost (`Node.Misplaced`).

Resolution goes by two registers, the function and the class it is in, which every function and
class sets for its parts. Going down one step of a path either the node there sets a register, and
is then the innermost of its kind, or the register stays and so does the innermost
(`context_of_mem_parts`, `Placed.part`). So the registers say the same as the path, however
functions and classes are nested (`placed_of_seekAll`), and resolution complains exactly once of
each node that is misplaced (`resolve_placement`).
-/

namespace Lox

/-! ## The functions and classes around a place -/

namespace Node

def isFunction : Node → Bool
  | .function .. => true
  | _ => false

def isClass : Node → Bool
  | .classDecl .. => true
  | _ => false

variable (ns : List Node)

/-- The node at the end of the outer path is around the end of the other. -/
def Encloses (path outer : List Nat) (m : Node) : Prop :=
  at? ns outer = some m ∧ outer <+: path ∧ outer ≠ path

/-- No node of the sort is around the end of the path. -/
def Outside (p : Node → Bool) (path : List Nat) : Prop :=
  ∀ outer m, Encloses ns path outer m → p m = false

/-- The innermost node of the sort around the end of the path. All others are around it. -/
structure Innermost (p : Node → Bool) (path outer : List Nat) (m : Node) : Prop where
  encloses : Encloses ns path outer m
  sort : p m = true
  others : ∀ other m', Encloses ns path other m' → p m' = true → other <+: outer

/-- The node at the end of the path is part of a class. -/
def isMethodAt (path : List Nat) : Bool := (at? ns path.dropLast).any isClass

/-- What is wrong with the place of the node at the end of the path. A class is complained of at
the name of its superclass. -/
@[mk_iff]
inductive Misplaced (path : List Nat) : Complaint → Prop
  | returnAtTopLevel {keyword : Token} {value : Option Node} :
      at? ns path = some (.returning keyword value) → Outside ns isFunction path →
      Misplaced path ⟨keyword, .returnAtTopLevel⟩
  | returnsFromInitializer {keyword : Token} {value : Node} {outer : List Nat} {name : Token}
      {params : List Token} {body : List Node} :
      at? ns path = some (.returning keyword (some value)) →
      Innermost ns isFunction path outer (.function name params body) →
      isMethodAt ns outer = true → name.lexeme = "init" →
      Misplaced path ⟨keyword, .returnsFromInitializer⟩
  | thisOutsideClass {keyword : Reference} :
      at? ns path = some (.receiver keyword) → Outside ns isClass path →
      Misplaced path ⟨keyword.name, .thisOutsideClass⟩
  | superOutsideClass {keyword : Reference} {method : Token} :
      at? ns path = some (.superMethod keyword method) → Outside ns isClass path →
      Misplaced path ⟨keyword.name, .superOutsideClass⟩
  | superWithoutSuperclass {keyword : Reference} {method : Token} {outer : List Nat}
      {name : Token} {methods : List Node} :
      at? ns path = some (.superMethod keyword method) →
      Innermost ns isClass path outer (.classDecl name none methods) →
      Misplaced path ⟨keyword.name, .superWithoutSuperclass⟩
  | inheritsFromItself {name : Token} {parent : Reference} {methods : List Node} :
      at? ns path = some (.classDecl name (some (.ident parent)) methods) →
      name.lexeme = parent.name.lexeme →
      Misplaced path ⟨parent.name, .inheritsFromItself⟩

end Node

/-- The problem is with where something stands. -/
def Problem.isPlacement (problem : Problem) : Bool :=
  problem ∈ [.returnAtTopLevel, .returnsFromInitializer, .thisOutsideClass, .superOutsideClass,
    .superWithoutSuperclass, .inheritsFromItself]

/-! ## One step down a path -/

namespace Node

variable {ns : List Node} {p : Node → Bool} {here outer : List Nat} {m n : Node} {i : Nat}

/-- Around a part are its node and all that is around the node. -/
theorem encloses_append_singleton :
    Encloses ns (here ++ [i]) outer m ↔
      Encloses ns here outer m ∨ outer = here ∧ at? ns here = some m := by
  unfold Encloses
  rw [List.prefix_concat_iff]
  constructor
  · rintro ⟨hat, rfl | hprefix, hne⟩
    · exact absurd rfl hne
    · by_cases heq : outer = here
      · subst heq
        exact .inr ⟨rfl, hat⟩
      · exact .inl ⟨hat, hprefix, heq⟩
  · have hlonger : ∀ {path : List Nat}, path <+: here → path ≠ here ++ [i] := by
      rintro path hprefix rfl
      simpa using hprefix.length_le
    rintro (⟨hat, hprefix, -⟩ | ⟨rfl, hat⟩)
    · exact ⟨hat, .inr hprefix, hlonger hprefix⟩
    · exact ⟨hat, .inr List.prefix_rfl, hlonger List.prefix_rfl⟩

theorem outside_singleton : Outside ns p [i] := by
  rintro outer m henclose
  rw [← List.nil_append [i], encloses_append_singleton] at henclose
  rcases henclose with ⟨-, hprefix, hne⟩ | ⟨-, hat⟩
  · exact absurd (List.prefix_nil.1 hprefix) hne
  · cases hat

theorem Outside.append (h : Outside ns p here) (hat : at? ns here = some n) (hn : p n = false) :
    Outside ns p (here ++ [i]) := by
  intro outer m henclose
  rcases encloses_append_singleton.1 henclose with henclose | ⟨-, hm⟩
  · exact h outer m henclose
  · cases hat.symm.trans hm
    exact hn

theorem Innermost.append (h : Innermost ns p here outer m) (hat : at? ns here = some n)
    (hn : p n = false) : Innermost ns p (here ++ [i]) outer m := by
  refine ⟨encloses_append_singleton.2 (.inl h.encloses), h.sort, fun other m' henclose hm' => ?_⟩
  rcases encloses_append_singleton.1 henclose with henclose | ⟨-, hhere⟩
  · exact h.others other m' henclose hm'
  · cases hat.symm.trans hhere
    simp [hn] at hm'

theorem innermost_append_singleton (hat : at? ns here = some n) (hn : p n = true) :
    Innermost ns p (here ++ [i]) here n := by
  refine ⟨encloses_append_singleton.2 (.inr ⟨rfl, hat⟩), hn, fun other m' henclose _ => ?_⟩
  rcases encloses_append_singleton.1 henclose with henclose | ⟨rfl, -⟩
  · exact henclose.2.1
  · exact List.prefix_rfl

theorem Innermost.not_outside (h : Innermost ns p here outer m) : ¬ Outside ns p here := by
  intro houtside
  simpa [h.sort] using houtside outer m h.encloses

theorem Innermost.unique {outer' : List Nat} {m' : Node} (h : Innermost ns p here outer m)
    (h' : Innermost ns p here outer' m') : outer = outer' ∧ m = m' := by
  obtain rfl : outer = outer' :=
    (h'.others outer m h.encloses h.sort).eq_of_length_le
      (h.others outer' m' h'.encloses h'.sort).length_le
  exact ⟨rfl, Option.some.inj (h.encloses.1.symm.trans h'.encloses.1)⟩

end Node

/-! ## The registers -/

namespace Node

/-- The function around the parts of a node. -/
def functionContext (isMethod : Bool) (around : FunctionContext) : Node → FunctionContext
  | .function name _ _ => bodyContext isMethod name
  | _ => around

/-- The class around the parts of a node. -/
def classContext (around : ClassContext) : Node → ClassContext
  | .classDecl _ none _ => .plain
  | .classDecl _ (some _) _ => .subclass
  | _ => around

end Node

variable {ok : Token → Prop}

theorem Site.context_of_mem_statements {site : Site} {ns : List Node} {part : Spot}
    (h : part ∈ site.statements ns) : part.site.inFunction = site.inFunction ∧
      part.site.inClass = site.inClass ∧ part.isMethod = false := by
  induction ns generalizing site with
  | nil => cases h
  | cons n rest ih =>
    obtain ⟨-, -, -, hfunction, hclass⟩ := site.after_context n
    rcases List.mem_cons.1 h with rfl | h
    · exact ⟨hfunction, hclass, rfl⟩
    · rw [← hfunction, ← hclass]
      exact ih h

/-- A node sets the registers for its parts, a superclass apart. -/
theorem Spot.context_of_mem_parts {spot part : Spot} {role : Role} (hn : spot.node.Fits ok role)
    (h : part ∈ spot.parts) (hident : ∀ r, part.node ≠ .ident r) :
    part.site.inFunction = spot.node.functionContext spot.isMethod spot.site.inFunction ∧
      part.site.inClass = spot.node.classContext spot.site.inClass ∧
      part.isMethod = spot.node.isClass := by
  obtain ⟨site, isMethod, n⟩ := spot
  cases n with
  | block statements =>
    have hmem : part ∈ (site.inside []).statements statements := h
    obtain ⟨hfunction, hclass, hmethod⟩ := Site.context_of_mem_statements hmem
    exact ⟨hfunction, hclass, hmethod⟩
  | function name params body => exact Site.context_of_mem_statements h
  | classDecl name superclass methods =>
    rcases List.mem_append.1 h with h | h
    · cases superclass with
      | none => cases h
      | some parent =>
        obtain ⟨r, rfl, -⟩ := Resolver.eq_ident_of_fitsSuperclass hn.2.2.1
        obtain rfl := List.mem_singleton.1 h
        exact absurd rfl (hident r)
    · obtain ⟨n, -, rfl⟩ := List.mem_map.1 h
      cases superclass <;> exact ⟨rfl, rfl, rfl⟩
  | varDecl name initializer =>
    obtain ⟨n, -, rfl⟩ := List.mem_map.1 h
    simp only [Site.initializer, Node.functionContext, Node.classContext, Node.isClass]
    split <;> simp
  | call callee paren arguments =>
    rcases List.mem_cons.1 h with rfl | h
    · exact ⟨rfl, rfl, rfl⟩
    · obtain ⟨n, -, rfl⟩ := List.mem_map.1 h
      exact ⟨rfl, rfl, rfl⟩
  | conditional condition thenBranch elseBranch =>
    rcases List.mem_cons.1 h with rfl | h
    · exact ⟨rfl, rfl, rfl⟩
    · rcases List.mem_cons.1 h with rfl | h
      · exact ⟨rfl, rfl, rfl⟩
      · obtain ⟨n, -, rfl⟩ := List.mem_map.1 h
        exact ⟨rfl, rfl, rfl⟩
  | returning keyword value =>
    obtain ⟨n, -, rfl⟩ := List.mem_map.1 h
    exact ⟨rfl, rfl, rfl⟩
  | literal value => cases h
  | superMethod keyword method => cases h
  | receiver keyword => cases h
  | ident name => cases h
  | misfit m => cases h
  | _ =>
    simp only [parts, beside, List.mem_cons, List.not_mem_nil, or_false] at h
    rcases h with rfl | rfl <;> exact ⟨rfl, rfl, rfl⟩

/-- What the registers and the path say of the functions and classes around the spot at its end. -/
structure Spot.Placed (ns : List Node) (path : List Nat) (spot : Spot) : Prop where
  function : Node.Outside ns Node.isFunction path ∧ spot.site.inFunction = .none ∨
    ∃ outer name params body,
      Node.Innermost ns Node.isFunction path outer (.function name params body) ∧
      spot.site.inFunction = bodyContext (Node.isMethodAt ns outer) name
  cls : Node.Outside ns Node.isClass path ∧ spot.site.inClass = .none ∨
    ∃ outer name superclass methods,
      Node.Innermost ns Node.isClass path outer (.classDecl name superclass methods) ∧
      spot.site.inClass = if superclass.isSome then .subclass else .plain
  method : spot.isMethod = Node.isMethodAt ns path

variable {ns : List Node}

theorem Spot.placed_statement {i : Nat} {spot : Spot}
    (h : (Site.statements {} ns)[i]? = some spot) : spot.Placed ns [i] := by
  obtain ⟨hfunction, hclass, hmethod⟩ := Site.context_of_mem_statements (List.mem_of_getElem? h)
  exact ⟨.inl ⟨Node.outside_singleton, hfunction⟩, .inl ⟨Node.outside_singleton, hclass⟩, hmethod⟩

theorem Spot.Placed.part {here : List Nat} {i : Nat} {spot part : Spot} {role : Role}
    (h : spot.Placed ns here) (hseek : Node.seekAll ns here = some spot)
    (hn : spot.node.Fits ok role) (hpart : spot.parts[i]? = some part)
    (hident : ∀ r, part.node ≠ .ident r) : part.Placed ns (here ++ [i]) := by
  have hat := Node.at?_of_seekAll hseek
  obtain ⟨hfunction, hclass, hmethod⟩ :=
    Spot.context_of_mem_parts hn (List.mem_of_getElem? hpart) hident
  constructor
  · cases hnode : spot.node with
    | function name params body =>
      rw [hnode] at hat hfunction
      refine .inr ⟨here, name, params, body, Node.innermost_append_singleton hat rfl, ?_⟩
      rw [← h.method]
      exact hfunction
    | _ =>
      rw [hnode] at hat hfunction
      rw [hfunction]
      refine h.function.imp (fun ⟨houtside, hnone⟩ => ⟨houtside.append hat rfl, hnone⟩) ?_
      rintro ⟨outer, name, params, body, hinnermost, hcontext⟩
      exact ⟨outer, name, params, body, hinnermost.append hat rfl, hcontext⟩
  · cases hnode : spot.node with
    | classDecl name superclass methods =>
      rw [hnode] at hat hclass
      refine .inr ⟨here, name, superclass, methods, Node.innermost_append_singleton hat rfl, ?_⟩
      rw [hclass]
      cases superclass <;> rfl
    | _ =>
      rw [hnode] at hat hclass
      rw [hclass]
      refine h.cls.imp (fun ⟨houtside, hnone⟩ => ⟨houtside.append hat rfl, hnone⟩) ?_
      rintro ⟨outer, name, superclass, methods, hinnermost, hcontext⟩
      exact ⟨outer, name, superclass, methods, hinnermost.append hat rfl, hcontext⟩
  · rw [hmethod, Node.isMethodAt, List.dropLast_concat, hat]
    rfl

/-- The registers say the same as the path, all the way down. Only the name of a superclass is not
where its path says. -/
theorem Spot.placed_of_seekAll (hns : Node.FitAll ok .declaration ns) {path : List Nat}
    {spot : Spot} (hseek : Node.seekAll ns path = some spot) (hident : ∀ r, spot.node ≠ .ident r) :
    spot.Placed ns path := by
  induction path using List.reverseRecOn generalizing spot with
  | nil => cases hseek
  | append_singleton here i ih =>
    by_cases hhere : here = []
    · subst hhere
      obtain ⟨part, hpart, hsame⟩ := Option.bind_eq_some_iff.1 hseek
      obtain rfl : part = spot := Option.some.inj hsame
      exact placed_statement hpart
    · obtain ⟨mid, hmid⟩ := Node.exists_seekAll_of_append hhere hseek
      rw [Node.seekAll_append hmid] at hseek
      obtain ⟨part, hpart, hsame⟩ := Option.bind_eq_some_iff.1 hseek
      obtain rfl : part = spot := Option.some.inj hsame
      -- a name has no parts
      have hmidIdent : ∀ r, mid.node ≠ .ident r := by
        intro r hr
        rw [Spot.parts, hr] at hpart
        cases hpart
      obtain ⟨role, hfits⟩ := fits_of_seekAll hns hmid
      exact (ih hmid hmidIdent).part hmid hfits hpart hident

namespace Spot.Placed

variable {path : List Nat} {spot : Spot}

theorem inFunction_eq_none_iff (h : spot.Placed ns path) :
    spot.site.inFunction = .none ↔ Node.Outside ns Node.isFunction path := by
  rcases h.function with ⟨houtside, hnone⟩ | ⟨outer, name, params, body, hinnermost, hcontext⟩
  · exact iff_of_true hnone houtside
  · refine iff_of_false ?_ hinnermost.not_outside
    rw [hcontext, bodyContext, Resolver.methodContext]
    split_ifs <;> simp

theorem inFunction_eq_initializer_iff (h : spot.Placed ns path) :
    spot.site.inFunction = .initializer ↔ ∃ outer name params body,
      Node.Innermost ns Node.isFunction path outer (.function name params body) ∧
      Node.isMethodAt ns outer = true ∧ name.lexeme = "init" := by
  rcases h.function with ⟨houtside, hnone⟩ | ⟨outer, name, params, body, hinnermost, hcontext⟩
  · refine iff_of_false (by simp [hnone]) ?_
    rintro ⟨outer, name, params, body, hinnermost, -⟩
    exact hinnermost.not_outside houtside
  · have hinit : spot.site.inFunction = .initializer ↔
        Node.isMethodAt ns outer = true ∧ name.lexeme = "init" := by
      rw [hcontext, bodyContext, Resolver.methodContext]
      split_ifs <;> simp_all
    rw [hinit]
    refine ⟨fun hmethod => ⟨outer, name, params, body, hinnermost, hmethod⟩, ?_⟩
    rintro ⟨outer', name', params', body', hinnermost', hmethod⟩
    obtain ⟨rfl, hsame⟩ := hinnermost.unique hinnermost'
    cases hsame
    exact hmethod

theorem inClass_eq_none_iff (h : spot.Placed ns path) :
    spot.site.inClass = .none ↔ Node.Outside ns Node.isClass path := by
  rcases h.cls with ⟨houtside, hnone⟩ | ⟨outer, name, superclass, methods, hinnermost, hcontext⟩
  · exact iff_of_true hnone houtside
  · refine iff_of_false ?_ hinnermost.not_outside
    rw [hcontext]
    split_ifs <;> simp

theorem inClass_eq_plain_iff (h : spot.Placed ns path) :
    spot.site.inClass = .plain ↔ ∃ outer name methods,
      Node.Innermost ns Node.isClass path outer (.classDecl name none methods) := by
  rcases h.cls with ⟨houtside, hnone⟩ | ⟨outer, name, superclass, methods, hinnermost, hcontext⟩
  · refine iff_of_false (by simp [hnone]) ?_
    rintro ⟨outer, name, methods, hinnermost⟩
    exact hinnermost.not_outside houtside
  · rw [hcontext]
    constructor
    · intro hplain
      cases superclass with
      | none => exact ⟨outer, name, methods, hinnermost⟩
      | some parent => cases hplain
    · rintro ⟨outer', name', methods', hinnermost'⟩
      obtain ⟨-, hsame⟩ := hinnermost.unique hinnermost'
      cases hsame
      rfl

end Spot.Placed

/-! ## What is complained of -/

/-- What is complained of at a spot because of where it is. -/
def Spot.misplacements (spot : Spot) : List Complaint :=
  spot.remarks.filter (·.problem.isPlacement)

/-- What is misplaced in a program, with the paths to it. -/
def Node.misplacements (ns : List Node) : List (List Nat × Complaint) :=
  (Node.walkAll ns).flatMap fun stop =>
    if stop.isLeaving then [] else stop.spot.misplacements.map (stop.path, ·)

theorem Site.filter_redeclared (site : Site) (name : Token) :
    (site.redeclared name).filter (·.problem.isPlacement) = [] :=
  List.filter_eq_nil_iff.2 fun c hc => by
    rw [problem_of_mem_redeclared hc]
    decide

theorem filter_repeated (bound : List String) (params : List Token) :
    (repeated bound params).filter (·.problem.isPlacement) = [] :=
  List.filter_eq_nil_iff.2 fun c hc => by
    rw [problem_of_mem_repeated hc]
    decide

/-- Four sorts of nodes can be misplaced. -/
theorem Spot.misplacements_eq (spot : Spot) : spot.misplacements =
    match spot.node with
    | .superMethod keyword _ =>
      (if spot.site.inClass = .none then [⟨keyword.name, .superOutsideClass⟩] else []) ++
        (if spot.site.inClass = .plain then [⟨keyword.name, .superWithoutSuperclass⟩] else [])
    | .receiver keyword =>
      if spot.site.inClass = .none then [⟨keyword.name, .thisOutsideClass⟩] else []
    | .returning keyword value =>
      (if spot.site.inFunction = .none then [⟨keyword, .returnAtTopLevel⟩] else []) ++
        (if value.isSome ∧ spot.site.inFunction = .initializer then
          [⟨keyword, .returnsFromInitializer⟩] else [])
    | .classDecl name superclass _ =>
      (superclass.bind Node.name?).toList.flatMap fun parent =>
        if name.lexeme = parent.lexeme then [⟨parent, .inheritsFromItself⟩] else []
    | _ => [] := by
  obtain ⟨site, isMethod, n⟩ := spot
  cases n with
  | superMethod keyword method =>
    simp only [misplacements, remarks]
    cases site.inClass <;> rfl
  | receiver keyword =>
    simp only [misplacements, remarks]
    split_ifs <;> rfl
  | returning keyword value =>
    simp only [misplacements, remarks]
    split_ifs <;> rfl
  | classDecl name superclass methods =>
    simp only [misplacements, remarks, List.filter_append, Site.filter_redeclared, List.nil_append]
    cases superclass.bind Node.name? with
    | none => rfl
    | some parent =>
      simp only [Option.toList_some, List.flatMap_singleton]
      split_ifs <;> rfl
  | varDecl name initializer => exact Site.filter_redeclared site name
  | function name params body =>
    simp only [misplacements, remarks, List.filter_append, filter_repeated, List.append_nil]
    split_ifs
    · rfl
    · exact Site.filter_redeclared site name
  | ident r =>
    simp only [misplacements, remarks]
    split_ifs <;> rfl
  | _ => rfl

theorem Spot.nodup_misplacements (spot : Spot) : spot.misplacements.Nodup := by
  rw [misplacements_eq]
  split
  · split_ifs <;> simp_all
  · split_ifs <;> simp
  · split_ifs <;> simp
  · cases Option.bind _ _ with
    | none => exact List.nodup_nil
    | some parent =>
      simp only [Option.toList_some, List.flatMap_singleton]
      split_ifs <;> simp
  · exact List.nodup_nil

/-- What is complained of at a spot because of where it is, is what is wrong with its place. -/
theorem Spot.mem_misplacements (hns : Node.FitAll ok .declaration ns) {path : List Nat}
    {spot : Spot} (hseek : Node.seekAll ns path = some spot) {c : Complaint} :
    c ∈ spot.misplacements ↔ Node.Misplaced ns path c := by
  have hat := Node.at?_of_seekAll hseek
  have hplaced := placed_of_seekAll hns hseek
  rw [misplacements_eq]
  cases hnode : spot.node with
  | superMethod keyword method =>
    rw [hnode] at hat hplaced
    replace hplaced := hplaced (by simp)
    simp [Node.misplaced_iff, hat, hplaced.inClass_eq_none_iff, hplaced.inClass_eq_plain_iff]
  | receiver keyword =>
    rw [hnode] at hat hplaced
    replace hplaced := hplaced (by simp)
    simp [Node.misplaced_iff, hat, hplaced.inClass_eq_none_iff]
  | returning keyword value =>
    rw [hnode] at hat hplaced
    replace hplaced := hplaced (by simp)
    cases value <;> simp [Node.misplaced_iff, hat, hplaced.inFunction_eq_none_iff,
      hplaced.inFunction_eq_initializer_iff, ← and_assoc]
  | classDecl name superclass methods =>
    obtain ⟨role, hfits⟩ := fits_of_seekAll hns hseek
    rw [hnode] at hat hfits
    cases superclass with
    | none => simp [Node.misplaced_iff, hat]
    | some parent =>
      obtain ⟨r, rfl, -⟩ := Resolver.eq_ident_of_fitsSuperclass hfits.2.2.1
      simp [Node.misplaced_iff, hat, Node.name?]
  | _ =>
    rw [hnode] at hat
    simp [Node.misplaced_iff, hat]

theorem Node.mem_misplacements (hns : Node.FitAll ok .declaration ns) {path : List Nat}
    {c : Complaint} : (path, c) ∈ misplacements ns ↔ Misplaced ns path c := by
  rw [misplacements, List.mem_flatMap]
  constructor
  · rintro ⟨stop, hstop, hmem⟩
    split at hmem
    · cases hmem
    · obtain ⟨c, hc, hsame⟩ := List.mem_map.1 hmem
      obtain ⟨rfl, rfl⟩ := Prod.mk.inj hsame
      exact (Spot.mem_misplacements hns (mem_walkAll.1 hstop)).1 hc
  · intro hmisplaced
    obtain ⟨spot, hseek⟩ : ∃ spot, seekAll ns path = some spot := by
      obtain ⟨n, hat⟩ : ∃ n, at? ns path = some n := by cases hmisplaced <;> exact ⟨_, ‹_›⟩
      exact (Option.map_eq_some_iff.1 hat).imp fun _ h => h.1
    refine ⟨⟨path, spot, false⟩, mem_walkAll.2 hseek, ?_⟩
    exact List.mem_map_of_mem ((Spot.mem_misplacements hns hseek).2 hmisplaced)

theorem Node.nodup_misplacements (ns : List Node) : (misplacements ns).Nodup := by
  rw [misplacements, List.nodup_flatMap]
  refine ⟨fun stop _ => ?_, ?_⟩
  · split
    · exact List.nodup_nil
    · exact stop.spot.nodup_misplacements.map (Prod.mk_right_injective _)
  · refine (List.pairwise_map.1 (nodup_walkAll ns)).imp ?_
    intro stop stop' hne
    simp only [Function.onFun]
    split
    · exact List.disjoint_nil_left _
    · split
      · exact List.disjoint_nil_right _
      · rename_i hleaving hleaving'
        rintro ⟨path, c⟩ hmem hmem'
        obtain ⟨_, -, hpath⟩ := List.mem_map.1 hmem
        obtain ⟨_, -, hpath'⟩ := List.mem_map.1 hmem'
        refine hne ?_
        rw [(Prod.mk.inj hpath).1, (Prod.mk.inj hpath').1, eq_false_of_ne_true hleaving,
          eq_false_of_ne_true hleaving']

/-- Resolution of parsed statements complains exactly once of each node that stands in the wrong
place, in the order in which it comes to them, and says of no other node that it does. -/
theorem resolve_placement {s : Session} {tokens : List Token} {statements : List Node}
    (h : (s.parseTokens tokens).2 = .ok statements) :
    (Problem.returnAtTopLevel.message = "Can't return from top-level code." ∧
      Problem.returnsFromInitializer.message = "Can't return a value from an initializer." ∧
      Problem.thisOutsideClass.message = "Can't use 'this' outside of a class." ∧
      Problem.superOutsideClass.message = "Can't use 'super' outside of a class." ∧
      Problem.superWithoutSuperclass.message =
        "Can't use 'super' in a class with no superclass." ∧
      Problem.inheritsFromItself.message = "A class can't inherit from itself.") ∧
    (Node.misplacements statements).Nodup ∧
    (∀ path c, (path, c) ∈ Node.misplacements statements ↔ Node.Misplaced statements path c) ∧
    (resolve statements).2.filter (·.problem.isPlacement) =
      (Node.misplacements statements).map (·.2) := by
  have hfits := Session.fitAll_of_parseTokens h
  refine ⟨⟨rfl, rfl, rfl, rfl, rfl, rfl⟩, Node.nodup_misplacements statements,
    fun path c => Node.mem_misplacements hfits, ?_⟩
  rw [resolve, follows_nodes hfits]
  show (complaintsOf (Node.walkAll statements)).filter (·.problem.isPlacement) = _
  rw [complaintsOf, List.filter_flatMap, Node.misplacements, List.map_flatMap]
  refine List.flatMap_congr fun stop _ => ?_
  rw [Stop.complaints]
  split
  · exact List.filter_eq_nil_iff.2 fun c hc => by
      obtain ⟨name, -, rfl⟩ := List.mem_map.1 hc
      exact (by decide : ¬ Problem.neverUsed.isPlacement = true)
  · simp [Spot.misplacements, Function.comp_def]

/-- In this program every sort of node is misplaced once. The function and the class inside of the
initializer do not change that it ends in a value, and they are in order themselves. -/
theorem resolve_placement_nested :
    let source := "class A \x7b init() \x7b fun f() \x7b return 1; \x7d " ++
      "class B < A \x7b m() \x7b return super.x; \x7d \x7d return this; \x7d " ++
      "m() \x7b super.y; \x7d \x7d " ++
      "return 1; this; super.z; class C < C \x7b \x7d"
    let found : List (List Nat × Problem) :=
      [([0, 0, 2], .returnsFromInitializer), ([0, 1, 0, 0], .superWithoutSuperclass),
        ([1], .returnAtTopLevel), ([2, 0], .thisOutsideClass), ([3, 0], .superOutsideClass),
        ([4], .inheritsFromItself)]
    ∃ statements, (Session.parseTokens {} (scan source).tokens).2 = .ok statements ∧
      ((resolve statements).2.filter (·.problem.isPlacement)).map (·.problem) = found.map (·.2) ∧
      ∀ path problem, (∃ token, Node.Misplaced statements path ⟨token, problem⟩) ↔
        (path, problem) ∈ found := by
  intro source found
  have hfacts : ((Session.parseTokens {} (scan source).tokens).2.toOption.map fun ns =>
      (Node.misplacements ns).map fun (path, c) => (path, c.problem)) = some found := by
    decide +kernel
  cases hparsed : (Session.parseTokens {} (scan source).tokens).2 with
  | error crash =>
    rw [hparsed] at hfacts
    cases hfacts
  | ok statements =>
    rw [hparsed] at hfacts
    obtain ⟨-, -, hmem, hfilter⟩ := resolve_placement hparsed
    refine ⟨statements, rfl, ?_, fun path problem => ?_⟩
    · rw [hfilter, ← Option.some.inj hfacts, List.map_map, List.map_map]
      rfl
    · rw [← Option.some.inj hfacts, List.mem_map]
      constructor
      · rintro ⟨token, hmisplaced⟩
        exact ⟨(path, ⟨token, problem⟩), (hmem _ _).2 hmisplaced, rfl⟩
      · rintro ⟨⟨path, token, problem⟩, hfound, hsame⟩
        obtain ⟨rfl, rfl⟩ := Prod.mk.inj hsame
        exact ⟨token, (hmem _ _).1 hfound⟩

end Lox
