import Mathlib.Tactic
import Lox.Proofs.Following
import Lox.Proofs.Phases

/-!
# Lexical scope

Which scopes are around a place is said here by the path to it alone: each node on the way may open
scopes around the part that the path goes to, and the names bound in them there are parameters,
`this` or `super`, and what is declared by the statements up to that part (`Node.opens`). The sites
of the positions say the same (`sameNames_seekAll`), so that resolution gives each reference the
distance to the first scope around it that binds its name (`resolve_lexical`).
-/

namespace Lox

open Site (hopsTo? hopsTo?_cons)

/-! ## The scopes around a place -/

/-- The names bound in the scopes that a node opens around its part with the number `i`, the
innermost scope first. A superclass, which is the first part of its class, is outside of them. -/
def Node.opens (n : Node) (i : Nat) : List (List String) :=
  match n with
  | .block statements => [(statements.take (i + 1)).filterMap Node.declared?]
  | .function _ params body =>
    [params.map (·.lexeme) ++ (body.take (i + 1)).filterMap Node.declared?]
  | .classDecl _ none _ => [["this"]]
  | .classDecl _ (some _) _ => if i = 0 then [] else [["this"], ["super"]]
  | _ => []

/-- A scope around a place. -/
structure Enclosure where
  /-- The path to the node that opens it. -/
  opener : List Nat
  /-- The names bound in it there. -/
  names : List String

/-- The scopes inside of a spot that are around the end of a path, the innermost first. -/
def Spot.enclosing (here : List Nat) : (path : List Nat) → Spot → List Enclosure
  | [], _ => []
  | i :: path, spot =>
    (spot.parts[i]?.map (enclosing (here ++ [i]) path)).getD [] ++
      (spot.node.opens i).map (⟨here, ·⟩)

namespace Node

/-- The node at the end of a path. -/
def at? (ns : List Node) (path : List Nat) : Option Node := (seekAll ns path).map (·.node)

theorem at?_of_seekAll {ns : List Node} {path : List Nat} {spot : Spot}
    (h : seekAll ns path = some spot) : at? ns path = some spot.node := by
  rw [at?, h]
  rfl

/-- The scopes around the end of a path, the innermost first. -/
def scopesAround (ns : List Node) : (path : List Nat) → List Enclosure
  | [] => []
  | i :: path => ((Site.statements {} ns)[i]?.map (Spot.enclosing [i] path)).getD []

/-- The node opens a scope for a list of statements. -/
def hasStatements : Node → Bool
  | .block _ => true
  | .function .. => true
  | _ => false

/-- The mention of a name that a node consists of. -/
def reference? : Node → Option Reference
  | .assign target _ => some target
  | .superMethod keyword _ => some keyword
  | .receiver keyword => some keyword
  | .ident name => some name
  | _ => none

end Node

/-- The scope that many scopes out is the first that binds the name. -/
def FirstBinds (scopes : List Enclosure) (hops : Nat) (name : String) : Prop :=
  (∃ scope, scopes[hops]? = some scope ∧ name ∈ scope.names) ∧
    ∀ (i : Nat) (scope : Enclosure), i < hops → scopes[i]? = some scope → name ∉ scope.names

/-! ## Sites say the same -/

/-- The scopes bind the same names, in whatever order. -/
def SameNames (scopes scopes' : List (List String)) : Prop :=
  List.Forall₂ (fun names names' => ∀ x, x ∈ names ↔ x ∈ names') scopes scopes'

namespace SameNames

variable {scopes scopes' scopes'' : List (List String)}

theorem refl (scopes : List (List String)) : SameNames scopes scopes :=
  List.forall₂_same.2 fun _ _ _ => Iff.rfl

theorem trans (h : SameNames scopes scopes') (h' : SameNames scopes' scopes'') :
    SameNames scopes scopes'' := by
  induction h generalizing scopes'' with
  | nil => exact h'
  | cons hnames _ ih =>
    cases h' with
    | cons hnames' hrest' => exact .cons (fun x => (hnames x).trans (hnames' x)) (ih hrest')

theorem append {inner : List (List String)} (h : SameNames scopes scopes') :
    SameNames (inner ++ scopes) (inner ++ scopes') :=
  List.rel_append (refl inner) h

theorem hopsTo?_eq (h : SameNames scopes scopes') (x : String) :
    hopsTo? x scopes = hopsTo? x scopes' := by
  induction h with
  | nil => rfl
  | cons hnames _ ih => simp only [hopsTo?_cons, hnames, ih]

end SameNames

namespace Site

theorem scopes_afterAll {site : Site} {names : List String} {scopes : List (List String)}
    (h : site.scopes = names :: scopes) (ns : List Node) :
    (site.afterAll ns).scopes = ((ns.filterMap Node.declared?).reverse ++ names) :: scopes := by
  induction ns generalizing site names with
  | nil => exact h
  | cons n rest ih =>
    cases hn : n.declared? with
    | none => rw [afterAll, after_eq_self hn, ih h, List.filterMap_cons_none hn]
    | some x =>
      have hafter : (site.after n).scopes = (x :: names) :: scopes := by
        simp only [after, hn, declare, h, bind]
      rw [afterAll, ih hafter, List.filterMap_cons_some hn, List.reverse_cons, List.append_assoc]
      rfl

/-- A statement stands after itself and those before it. -/
theorem getElem?_statements (site : Site) (ns : List Node) (i : Nat) :
    (site.statements ns)[i]? = ns[i]?.map (⟨site.afterAll (ns.take (i + 1)), false, ·⟩) := by
  induction ns generalizing site i with
  | nil => rfl
  | cons n rest ih =>
    cases i with
    | zero => rfl
    | succ i => exact ih (site.after n) i

theorem scopes_initializer (site : Site) (x : String) :
    (site.initializer x).scopes = site.scopes := by
  rw [initializer]
  split <;> rfl

theorem inClass_initializer (site : Site) (x : String) :
    (site.initializer x).inClass = site.inClass := by
  rw [initializer]
  split <;> rfl

end Site

namespace Spot

variable {spot part : Spot} {i : Nat}

/-- What the part with the number `i` of a spot can be, and where it then stands. -/
inductive PartAt (spot : Spot) (i : Nat) (part : Spot) : Prop where
  | beside (hopens : spot.node.opens i = []) (hsite : part.site = spot.site)
  | initializer {name : Token} {value : Node} (hnode : spot.node = .varDecl name (some value))
      (hpart : part.node = value) (hsite : part.site = spot.site.initializer name.lexeme)
  | statement {statements : List Node} (hnode : spot.node = .block statements)
      (hpart : statements[i]? = some part.node)
      (hsite : part.site = (spot.site.inside []).afterAll (statements.take (i + 1)))
  | body {name : Token} {params : List Token} {body : List Node}
      (hnode : spot.node = .function name params body) (hpart : body[i]? = some part.node)
      (hsite : part.site =
        (spot.site.body (bodyContext spot.isMethod name) params).afterAll (body.take (i + 1)))
  | method {name : Token} {superclass : Option Node} {methods : List Node}
      (hnode : spot.node = .classDecl name superclass methods) (hi : superclass = none ∨ i ≠ 0)
      (hsite : part.site = spot.site.methods superclass)

theorem partAt (h : spot.parts[i]? = some part) : spot.PartAt i part := by
  obtain ⟨site, isMethod, n⟩ := spot
  have hmem := List.mem_of_getElem? h
  cases n with
  | block statements =>
    obtain ⟨n, hn, rfl⟩ := Option.map_eq_some_iff.1 ((Site.getElem?_statements _ _ _).symm.trans h)
    exact .statement rfl hn rfl
  | function name params body =>
    obtain ⟨n, hn, rfl⟩ := Option.map_eq_some_iff.1 ((Site.getElem?_statements _ _ _).symm.trans h)
    exact .body rfl hn rfl
  | classDecl name superclass methods =>
    cases superclass with
    | none =>
      obtain ⟨n, -, rfl⟩ := List.mem_map.1 hmem
      exact .method rfl (.inl rfl) rfl
    | some parent =>
      cases i with
      | zero =>
        obtain rfl := Option.some.inj h
        exact .beside rfl rfl
      | succ i =>
        obtain ⟨n, -, rfl⟩ := List.mem_map.1 (List.mem_of_getElem? (show
          (methods.map (⟨site.methods (some parent), true, ·⟩))[i]? = some part from h))
        exact .method rfl (.inr (Nat.succ_ne_zero i)) rfl
  | varDecl name initializer =>
    cases initializer with
    | none => cases hmem
    | some value =>
      obtain rfl := List.mem_singleton.1 hmem
      exact .initializer rfl rfl rfl
  | call callee paren arguments =>
    refine .beside rfl ?_
    rcases List.mem_cons.1 hmem with rfl | hmem
    · rfl
    · obtain ⟨n, -, rfl⟩ := List.mem_map.1 hmem
      rfl
  | conditional condition thenBranch elseBranch =>
    refine .beside rfl ?_
    rcases List.mem_cons.1 hmem with rfl | hmem
    · rfl
    · rcases List.mem_cons.1 hmem with rfl | hmem
      · rfl
      · obtain ⟨n, -, rfl⟩ := List.mem_map.1 hmem
        rfl
  | returning keyword value =>
    refine .beside rfl ?_
    obtain ⟨n, -, rfl⟩ := List.mem_map.1 hmem
    rfl
  | literal value => cases hmem
  | superMethod keyword method => cases hmem
  | receiver keyword => cases hmem
  | ident name => cases hmem
  | misfit m => cases hmem
  | _ =>
    refine .beside rfl ?_
    simp only [parts, beside, List.mem_cons, List.not_mem_nil, or_false] at hmem
    rcases hmem with rfl | rfl <;> rfl

/-- A part stands in the scopes that are opened around it. -/
theorem sameNames_parts (h : spot.parts[i]? = some part) :
    SameNames part.site.scopes (spot.node.opens i ++ spot.site.scopes) := by
  cases partAt h with
  | beside hopens hsite =>
    rw [hopens, hsite]
    exact .refl _
  | initializer hnode hpart hsite =>
    rw [hnode, hsite, Site.scopes_initializer]
    exact .refl _
  | @statement statements hnode hpart hsite =>
    rw [hnode, hsite, Site.scopes_afterAll rfl]
    exact .cons (fun x => by simp) (SameNames.refl _)
  | @body name params body hnode hpart hsite =>
    rw [hnode, hsite, Site.scopes_afterAll rfl]
    exact .cons (fun x => by simp [or_comm]) (SameNames.refl _)
  | @method name superclass methods hnode hi hsite =>
    rw [hnode, hsite]
    cases superclass with
    | none => exact .refl _
    | some parent =>
      have hopens : (Node.classDecl name (some parent) methods).opens i = [["this"], ["super"]] :=
        if_neg (hi.resolve_left (Option.some_ne_none parent))
      rw [hopens]
      exact .refl _

/-- The end of a path stands in the scopes that are around it. -/
theorem sameNames_seek (here path : List Nat) (spot : Spot) {found : Spot}
    (h : seek path spot = some found) :
    SameNames found.site.scopes ((spot.enclosing here path).map (·.names) ++ spot.site.scopes) := by
  induction path generalizing here spot with
  | nil =>
    obtain rfl : spot = found := Option.some.inj h
    exact .refl _
  | cons i path ih =>
    obtain ⟨part, hpart, hseek⟩ := Option.bind_eq_some_iff.1 h
    have hpath := (ih (here ++ [i]) part hseek).trans (sameNames_parts hpart).append
    simpa [enclosing, hpart, Function.comp_def] using hpath

end Spot

theorem sameNames_seekAll {ns : List Node} {path : List Nat} {spot : Spot}
    (h : Node.seekAll ns path = some spot) :
    SameNames spot.site.scopes ((Node.scopesAround ns path).map (·.names)) := by
  cases path with
  | nil => cases h
  | cons i path =>
    obtain ⟨part, hpart, hseek⟩ := Option.bind_eq_some_iff.1 h
    have hglobal : part.site.scopes = [] := by
      obtain ⟨n, -, rfl⟩ := Option.map_eq_some_iff.1
        ((Site.getElem?_statements _ _ _).symm.trans hpart)
      exact List.length_eq_zero_iff.1 (Site.afterAll_context {} _).2.1
    have hpath := Spot.sameNames_seek [i] path part hseek
    simpa [Node.scopesAround, hpart, hglobal] using hpath

/-! ## The first scope that binds a name -/

section First

variable {scopes : List Enclosure} {x : String}

theorem hopsTo?_eq_some_iff {hops : Nat} :
    hopsTo? x (scopes.map (·.names)) = some hops ↔ FirstBinds scopes hops x := by
  induction scopes generalizing hops with
  | nil => simp [hopsTo?, FirstBinds]
  | cons scope rest ih =>
    rw [List.map_cons, hopsTo?_cons]
    cases hops with
    | zero =>
      by_cases hx : x ∈ scope.names <;> simp [FirstBinds, hx]
    | succ hops =>
      by_cases hx : x ∈ scope.names
      · simp only [hx, if_true, FirstBinds]
        constructor
        · intro h
          cases h
        · exact fun h => absurd hx (h.2 0 scope (Nat.succ_pos hops) rfl)
      · simp only [hx, if_false, Option.map_eq_some_iff, Nat.add_right_cancel_iff,
          exists_eq_right, ih, FirstBinds]
        refine and_congr Iff.rfl ⟨fun h i found hi hfound => ?_, fun h i found hi hfound => ?_⟩
        · cases i with
          | zero =>
            obtain rfl := Option.some.inj hfound
            exact hx
          | succ i => exact h i found (Nat.lt_of_succ_lt_succ hi) hfound
        · exact h (i + 1) found (Nat.succ_lt_succ hi) hfound

theorem hopsTo?_eq_none_iff :
    hopsTo? x (scopes.map (·.names)) = none ↔ ∀ scope ∈ scopes, x ∉ scope.names := by
  simp [hopsTo?]

end First

/-! ## Parsed trees -/

section Fits

variable {ok : Token → Prop}

theorem fits_of_fitAll {role : Role} {ns : List Node} (hns : Node.FitAll ok role ns) {n : Node}
    (hn : n ∈ ns) : n.Fits ok role := by
  induction ns with
  | nil => cases hn
  | cons m rest ih =>
    rcases List.mem_cons.1 hn with rfl | hn
    · exact hns.1
    · exact ih hns.2 hn

theorem Spot.fits_of_mem_map {role : Role} {ns : List Node} {site : Site} {isMethod : Bool}
    {part : Spot} (hns : Node.FitAll ok role ns) (h : part ∈ ns.map (⟨site, isMethod, ·⟩)) :
    part.node.Fits ok role := by
  obtain ⟨n, hn, rfl⟩ := List.mem_map.1 h
  exact fits_of_fitAll hns hn

theorem Spot.fits_of_fitsOption {role : Role} {n : Option Node} {site : Site} {part : Spot}
    (hn : Node.FitsOption ok role n) (h : part ∈ n.toList.map (⟨site, false, ·⟩)) :
    part.node.Fits ok role := by
  cases n with
  | none => cases h
  | some n =>
    obtain rfl := List.mem_singleton.1 h
    exact hn

/-- The parts of a parsed node are parsed nodes, and only a list of statements has declarations. -/
theorem Spot.fits_of_mem_parts {spot part : Spot} {role : Role} (hn : spot.node.Fits ok role)
    (h : part ∈ spot.parts) :
    ∃ role, part.node.Fits ok role ∧ (role = .declaration → spot.node.hasStatements) := by
  obtain ⟨site, isMethod, n⟩ := spot
  cases n with
  | assign target value =>
    obtain rfl := List.mem_singleton.1 h
    exact ⟨_, hn.2.2, nofun⟩
  | binary left operator right =>
    rcases List.mem_pair.1 h with rfl | rfl
    · exact ⟨_, hn.2.2.1, nofun⟩
    · exact ⟨_, hn.2.2.2, nofun⟩
  | call callee paren arguments =>
    rcases List.mem_cons.1 h with rfl | h
    · exact ⟨_, hn.2.2.1, nofun⟩
    · exact ⟨_, fits_of_mem_map hn.2.2.2 h, nofun⟩
  | property object name =>
    obtain rfl := List.mem_singleton.1 h
    exact ⟨_, hn.2.2, nofun⟩
  | group inner =>
    obtain rfl := List.mem_singleton.1 h
    exact ⟨_, hn.2, nofun⟩
  | logical left operator right =>
    rcases List.mem_pair.1 h with rfl | rfl
    · exact ⟨_, hn.2.2.1, nofun⟩
    · exact ⟨_, hn.2.2.2, nofun⟩
  | setProperty object name value =>
    rcases List.mem_pair.1 h with rfl | rfl
    · exact ⟨_, hn.2.2.2, nofun⟩
    · exact ⟨_, hn.2.2.1, nofun⟩
  | unary operator right =>
    obtain rfl := List.mem_singleton.1 h
    exact ⟨_, hn.2.2, nofun⟩
  | block statements =>
    exact ⟨_, fits_of_fitAll hn.2 (Site.node_mem_of_mem_statements h), fun _ => rfl⟩
  | classDecl name superclass methods =>
    rcases List.mem_append.1 h with h | h
    · cases superclass with
      | none => cases h
      | some parent =>
        obtain ⟨r, rfl, hr⟩ := Resolver.eq_ident_of_fitsSuperclass hn.2.2.1
        obtain rfl := List.mem_singleton.1 h
        exact ⟨.expression, ⟨rfl, hr⟩, nofun⟩
    · exact ⟨_, fits_of_mem_map hn.2.2.2 h, nofun⟩
  | expression value =>
    obtain rfl := List.mem_singleton.1 h
    exact ⟨_, hn.2, nofun⟩
  | function name params body =>
    exact ⟨_, fits_of_fitAll hn.2.2.2 (Site.node_mem_of_mem_statements h), fun _ => rfl⟩
  | conditional condition thenBranch elseBranch =>
    rcases List.mem_cons.1 h with rfl | h
    · exact ⟨_, hn.2.1, nofun⟩
    · rcases List.mem_cons.1 h with rfl | h
      · exact ⟨_, hn.2.2.1, nofun⟩
      · exact ⟨_, fits_of_fitsOption hn.2.2.2 h, nofun⟩
  | print value =>
    obtain rfl := List.mem_singleton.1 h
    exact ⟨_, hn.2, nofun⟩
  | returning keyword value => exact ⟨_, fits_of_fitsOption hn.2.2 h, nofun⟩
  | varDecl name initializer => exact ⟨_, fits_of_fitsOption hn.2.2 h, nofun⟩
  | loop condition body =>
    rcases List.mem_pair.1 h with rfl | rfl
    · exact ⟨_, hn.2.1, nofun⟩
    · exact ⟨_, hn.2.2, nofun⟩
  | literal value => cases h
  | superMethod keyword method => cases h
  | receiver keyword => cases h
  | ident name => cases h
  | misfit m => cases h

/-- No declaration is of `this`. -/
theorem this_not_mem_declared (hok : Resolver.AllLexed ok) {role : Role} {ns : List Node}
    (hns : Node.FitAll ok role ns) : "this" ∉ ns.filterMap Node.declared? := by
  intro hmem
  obtain ⟨n, hn, hdeclared⟩ := List.mem_filterMap.1 hmem
  have hfits := fits_of_fitAll hns hn
  cases n with
  | varDecl name initializer =>
    exact (Resolver.isName_of_is hok hfits.2.1).ne_this (Option.some.inj hdeclared)
  | function name params body =>
    exact (Resolver.isName_of_is hok hfits.2.1).ne_this (Option.some.inj hdeclared)
  | classDecl name superclass methods =>
    exact (Resolver.isName_of_is hok hfits.2.1).ne_this (Option.some.inj hdeclared)
  | _ => cases hdeclared

/-- Outside of every class no scope binds `this`. -/
theorem Spot.this_not_mem_opens (hok : Resolver.AllLexed ok) {spot part : Spot} {role : Role}
    {i : Nat} (hn : spot.node.Fits ok role) (h : spot.parts[i]? = some part)
    (hclass : part.site.inClass = .none) :
    spot.site.inClass = .none ∧ ∀ names ∈ spot.node.opens i, "this" ∉ names := by
  have htake : ∀ {role : Role} {ns : List Node}, Node.FitAll ok role ns →
      "this" ∉ (ns.take (i + 1)).filterMap Node.declared? := fun hns hmem =>
    this_not_mem_declared hok hns ((List.take_sublist _ _).filterMap _ |>.subset hmem)
  cases partAt h with
  | beside hopens hsite =>
    rw [hopens, ← hsite]
    exact ⟨hclass, nofun⟩
  | initializer hnode hpart hsite =>
    rw [hsite, Site.inClass_initializer] at hclass
    rw [hnode]
    exact ⟨hclass, nofun⟩
  | @statement statements hnode hpart hsite =>
    rw [hsite, (Site.afterAll_context _ _).2.2.2.2] at hclass
    rw [hnode] at hn ⊢
    refine ⟨hclass, fun names hnames => ?_⟩
    rw [List.mem_singleton.1 hnames]
    exact htake hn.2
  | @body name params body hnode hpart hsite =>
    rw [hsite, (Site.afterAll_context _ _).2.2.2.2] at hclass
    rw [hnode] at hn ⊢
    refine ⟨hclass, fun names hnames => ?_⟩
    rw [List.mem_singleton.1 hnames, List.mem_append, List.mem_map]
    rintro (⟨param, hparam, hthis⟩ | hthis)
    · exact (Resolver.isName_of_is hok (hn.2.2.1 param hparam)).ne_this hthis
    · exact htake hn.2.2.2 hthis
  | @method name superclass methods hnode hi hsite =>
    rw [hsite] at hclass
    cases superclass <;> cases hclass

theorem Spot.this_not_mem_enclosing (hok : Resolver.AllLexed ok) {path : List Nat}
    {spot found : Spot} (here : List Nat) {role : Role} (hn : spot.node.Fits ok role)
    (h : seek path spot = some found)
    (hclass : found.site.inClass = .none) :
    spot.site.inClass = .none ∧ ∀ scope ∈ spot.enclosing here path, "this" ∉ scope.names := by
  induction path generalizing here spot role with
  | nil =>
    obtain rfl : spot = found := Option.some.inj h
    exact ⟨hclass, nofun⟩
  | cons i path ih =>
    obtain ⟨part, hpart, hseek⟩ := Option.bind_eq_some_iff.1 h
    obtain ⟨role', hfits, -⟩ := fits_of_mem_parts hn (List.mem_of_getElem? hpart)
    obtain ⟨hpartClass, hinner⟩ := ih (here ++ [i]) hfits hseek
    obtain ⟨hspotClass, hopens⟩ := this_not_mem_opens hok hn hpart hpartClass
    refine ⟨hspotClass, fun scope hscope => ?_⟩
    rw [enclosing, hpart, List.mem_append, List.mem_map] at hscope
    rcases hscope with hscope | ⟨names, hnames, rfl⟩
    · exact hinner scope hscope
    · exact hopens names hnames

/-- Outside of every class no scope binds `this`. -/
theorem this_not_mem_scopesAround (hok : Resolver.AllLexed ok) {ns : List Node}
    (hns : Node.FitAll ok .declaration ns) {path : List Nat} {spot : Spot}
    (h : Node.seekAll ns path = some spot) (hclass : spot.site.inClass = .none) :
    ∀ scope ∈ Node.scopesAround ns path, "this" ∉ scope.names := by
  cases path with
  | nil => cases h
  | cons i path =>
    obtain ⟨part, hpart, hseek⟩ := Option.bind_eq_some_iff.1 h
    have hmem := Site.node_mem_of_mem_statements (List.mem_of_getElem? hpart)
    have hinner := Spot.this_not_mem_enclosing hok [i] (fits_of_fitAll hns hmem) hseek hclass
    rw [Node.scopesAround, hpart]
    exact hinner.2

theorem Spot.fits_of_seek {path : List Nat} {spot found : Spot} {role : Role}
    (hn : spot.node.Fits ok role) (h : seek path spot = some found) :
    ∃ role, found.node.Fits ok role := by
  induction path generalizing spot role with
  | nil =>
    obtain rfl : spot = found := Option.some.inj h
    exact ⟨role, hn⟩
  | cons i path ih =>
    obtain ⟨part, hpart, hseek⟩ := Option.bind_eq_some_iff.1 h
    obtain ⟨role', hfits, -⟩ := fits_of_mem_parts hn (List.mem_of_getElem? hpart)
    exact ih hfits hseek

/-- Every node in a parsed tree is a parsed node. -/
theorem fits_of_seekAll {ns : List Node} (hns : Node.FitAll ok .declaration ns) {path : List Nat}
    {spot : Spot} (h : Node.seekAll ns path = some spot) : ∃ role, spot.node.Fits ok role := by
  cases path with
  | nil => cases h
  | cons i path =>
    obtain ⟨part, hpart, hseek⟩ := Option.bind_eq_some_iff.1 h
    have hmem := Site.node_mem_of_mem_statements (List.mem_of_getElem? hpart)
    exact Spot.fits_of_seek (fits_of_fitAll hns hmem) hseek

end Fits

theorem Session.fitAll_of_parseTokens {s : Session} {tokens : List Token} {statements : List Node}
    (h : (s.parseTokens tokens).2 = .ok statements) :
    Node.FitAll (· ∈ tokens) .declaration statements := by
  have hfits : (Parser.program s.limits.grammar tokens).result.Satisfies (· ∈ tokens)
      (Node.FitAll (· ∈ tokens) .declaration) :=
    Parser.fits_program s.limits.grammar tokens fun _ ht => ht
  rw [parseTokens] at h
  cases hresult : (Parser.program s.limits.grammar tokens).result with
  | ok found rest =>
    rw [hresult] at h hfits
    cases h
    exact hfits.2
  | failed rest =>
    rw [hresult] at h
    cases h
    trivial
  | noToken =>
    rw [hresult] at h
    cases h
  | tooDeep =>
    rw [hresult] at h
    cases h

/-- Resolution gives a reference the distance that its position says. -/
theorem reference?_locate {spot : Spot} {r : Reference} (h : spot.node.reference? = some r) :
    ∃ r', spot.locate.node.reference? = some r' ∧ r'.name = r.name ∧
      (r'.hops = hopsTo? r.name.lexeme spot.site.scopes ∨
        spot.node = .receiver r ∧ spot.site.inClass = .none ∧ r' = r) := by
  obtain ⟨site, isMethod, n⟩ := spot
  cases n with
  | assign target value =>
    obtain rfl := Option.some.inj h
    exact ⟨_, rfl, rfl, .inl rfl⟩
  | superMethod keyword method =>
    obtain rfl := Option.some.inj h
    exact ⟨_, rfl, rfl, .inl rfl⟩
  | receiver keyword =>
    obtain rfl := Option.some.inj h
    refine ⟨_, rfl, ?_⟩
    by_cases hclass : site.inClass = .none
    · rw [if_pos hclass]
      exact ⟨rfl, .inr ⟨rfl, hclass, rfl⟩⟩
    · rw [if_neg hclass]
      exact ⟨rfl, .inl rfl⟩
  | ident name =>
    obtain rfl := Option.some.inj h
    exact ⟨_, rfl, rfl, .inl rfl⟩
  | _ => cases h

theorem kind?_locate (n : Node) (site : Site) (isMethod : Bool) :
    (n.locate site isMethod).kind? = n.kind? := by
  cases n <;> rfl

/-- Resolution of parsed statements comes back to where it began, outside of every scope, function
and class and without a fault. It gives each reference the distance to the first scope around it
that binds its name, and none if there is no such scope. -/
theorem resolve_lexical {s : Session} {tokens : List Token} {statements : List Node}
    (h : (s.parseTokens tokens).2 = .ok statements) :
    (Resolver.nodes statements {}).surroundings = {} ∧
      ∀ (path : List Nat) (n : Node) (r : Reference), Node.at? statements path = some n →
        n.reference? = some r →
        (n.kind? = some .receiver → Resolver.AllLexed (· ∈ tokens)) →
        ∃ n' r', Node.at? (resolve statements).1 path = some n' ∧ n'.kind? = n.kind? ∧
          n'.reference? = some r' ∧ r'.name = r.name ∧
          (∀ hops, r'.hops = some hops ↔
            FirstBinds (Node.scopesAround statements path) hops r.name.lexeme) ∧
          (r'.hops = none ↔
            ∀ scope ∈ Node.scopesAround statements path, r.name.lexeme ∉ scope.names) := by
  have hfits := Session.fitAll_of_parseTokens h
  have hfollows := follows_nodes hfits
  refine ⟨by rw [hfollows], fun path n r hat hreference hlexed => ?_⟩
  obtain ⟨spot, hseek, rfl⟩ := Option.map_eq_some_iff.1 hat
  obtain ⟨r', hreference', hname, hhops⟩ := reference?_locate hreference
  have hat' : Node.at? (resolve statements).1 path = some spot.locate.node := by
    rw [resolve, hfollows, Node.at?, Node.seekAll_locate, hseek]
    rfl
  have hdistance : r'.hops =
      hopsTo? r.name.lexeme ((Node.scopesAround statements path).map (·.names)) := by
    rcases hhops with hhops | ⟨hnode, hclass, rfl⟩
    · rw [hhops, (sameNames_seekAll hseek).hopsTo?_eq]
    · have hok := hlexed (by rw [hnode]; rfl)
      obtain ⟨role, hrole⟩ := fits_of_seekAll hfits hseek
      rw [hnode] at hrole
      obtain ⟨-, ⟨hmem, hkind⟩, hfresh⟩ := hrole
      have hthis : r'.name.lexeme = "this" :=
        (hok _ hmem (by rw [hkind]; decide)).lexeme_this hkind
      rw [hfresh, hthis, hopsTo?_eq_none_iff.2 (this_not_mem_scopesAround hok hfits hseek hclass)]
  refine ⟨_, r', hat', kind?_locate _ _ _, hreference', hname, fun hops => ?_, ?_⟩
  · rw [hdistance, hopsTo?_eq_some_iff]
  · rw [hdistance, hopsTo?_eq_none_iff]

/-- Inside of the function in a method, `super` is four scopes out. -/
theorem resolve_lexical_super :
    let source := "\x7b class B \x7b\x7d class A < B \x7b m(a) \x7b \x7b print a; var a = this; " ++
      "fun f() \x7b a = super.m; \x7d \x7d \x7d \x7d \x7d"
    ∃ statements, (Session.parseTokens {} (scan source).tokens).2 = .ok statements ∧
      ∃ n r, Node.at? (resolve statements).1 [0, 1, 1, 0, 2, 0, 0, 0] = some n ∧
        n.reference? = some r ∧ r.hops = some 4 := by
  intro source
  have hfacts : ((Session.parseTokens {} (scan source).tokens).2.toOption.map fun ns =>
      ((Node.at? ns [0, 1, 1, 0, 2, 0, 0, 0]).bind Node.reference?,
        hopsTo? "super" ((Node.scopesAround ns [0, 1, 1, 0, 2, 0, 0, 0]).map (·.names)))) =
      some (some ⟨⟨.superWord, "super", .nil, 1⟩, none⟩, some 4) := by decide +kernel
  cases hparsed : (Session.parseTokens {} (scan source).tokens).2 with
  | error crash =>
    rw [hparsed] at hfacts
    cases hfacts
  | ok statements =>
    rw [hparsed] at hfacts
    obtain ⟨hreference, hfirst⟩ := Prod.mk.inj (Option.some.inj hfacts)
    obtain ⟨n, hat, hn⟩ := Option.bind_eq_some_iff.1 hreference
    obtain ⟨n', r', hat', -, hreference', -, hhops, -⟩ := (resolve_lexical hparsed).2 _ n _ hat hn
      fun _ => Session.allLexed_tokens source
    exact ⟨statements, rfl, n', r', hat', hreference', (hhops 4).2 (hopsTo?_eq_some_iff.1 hfirst)⟩

end Lox
