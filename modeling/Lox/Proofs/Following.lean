import Mathlib.Tactic
import Lox.Proofs.Remarks
import Lox.Proofs.Resolving

/-!
# Resolution follows the walk

Resolution of a parsed tree gives each reference the distance of its position, complains at each
stop of the walk in turn, and comes back to where it began (`follows_nodes`). This holds with
complaints and without. There is a rule for sequences, and one for each operation on the stack of
scopes, and each kind of node goes through its parts by these rules.
-/

namespace Lox

open Site (declare_nil initializer_nil initializer_cons)

/-! ## Rules -/

/-- Resolution stands at the site, where the variable in initialization counts as bound. -/
structure Surroundings.StandsAt (s : Surroundings) (site : Site) : Prop where
  fault : s.fault = none
  scopes : ScopesAgree site.initializing s.scopes site.scopes
  bound : ∀ x, site.initializing = some x → ∃ names, site.scopes.head? = some names ∧ x ∈ names
  inFunction : s.inFunction = site.inFunction
  inClass : s.inClass = site.inClass

/-- The variables that are watched in each of the open scopes. -/
def Surroundings.tables (s : Surroundings) : List (Table Token) := s.scopes.map (·.unused)

namespace Surroundings.StandsAt

variable {s : Surroundings} {site : Site}

theorem length_tables (h : s.StandsAt site) : s.tables.length = site.scopes.length := by
  have hlength : ∀ {stack : List Scope} {scopes : List (List String)} {pending : Option String},
      ScopesAgree pending stack scopes → stack.length = scopes.length := by
    intro stack
    induction stack with
    | nil =>
      intro scopes pending h
      cases scopes with
      | nil => rfl
      | cons _ _ => exact h.elim
    | cons scope stack ih =>
      intro scopes pending h
      cases scopes with
      | nil => exact h.elim
      | cons names scopes => rw [List.length_cons, List.length_cons, ih h.2]
  rw [tables, List.length_map, hlength h.scopes]

theorem hopsTo?_eq (h : s.StandsAt site) (x : String) :
    Resolver.hopsTo? x s.scopes = Site.hopsTo? x site.scopes := by
  rw [hopsTo?_of_scopesAgree h.scopes]
  split
  · rename_i hx
    obtain ⟨names, hnames, hmem⟩ := h.bound x hx
    obtain ⟨rest, hscopes⟩ := List.head?_eq_some_iff.1 hnames
    rw [hscopes, Site.hopsTo?_cons, if_pos hmem]
  · rfl

/-- The stack is open where the site is in a scope. -/
theorem exists_scope (h : s.StandsAt site) {names : List String} {scopes : List (List String)}
    (hsites : site.scopes = names :: scopes) : ∃ scope stack, s.scopes = scope :: stack ∧
      scope.Agrees site.initializing names ∧ ScopesAgree none stack scopes := by
  have hscopes := h.scopes
  rw [hsites] at hscopes
  rcases hstack : s.scopes with _ | ⟨scope, stack⟩ <;> rw [hstack] at hscopes
  · exact hscopes.elim
  · exact ⟨scope, stack, rfl, hscopes.1, hscopes.2⟩

theorem scopes_eq_nil (h : s.StandsAt site) (hsites : site.scopes = []) : s.scopes = [] := by
  have hscopes := h.scopes
  cases hstack : s.scopes with
  | nil => rfl
  | cons scope stack =>
    rw [hstack, hsites] at hscopes
    exact hscopes.elim

/-- The order in which the names of a scope are listed does not matter. -/
theorem congr_names {names names' : List String} {scopes : List (List String)}
    (h : s.StandsAt { site with scopes := names :: scopes })
    (hnames : ∀ x, x ∈ names ↔ x ∈ names') :
    s.StandsAt { site with scopes := names' :: scopes } := by
  obtain ⟨scope, stack, hstack, hscope, hrest⟩ := h.exists_scope rfl
  refine ⟨h.fault, ?_, fun x hx => ?_, h.inFunction, h.inClass⟩
  · rw [hstack]
    refine ⟨fun x => ?_, hrest⟩
    rw [hscope x]
    simp only [hnames]
  · obtain ⟨bound, hbound, hmem⟩ := h.bound x hx
    obtain rfl : names = bound := Option.some.inj hbound
    exact ⟨names', rfl, (hnames x).1 hmem⟩

end Surroundings.StandsAt

namespace Resolver

variable {α β : Type} {site site' site'' : Site} {a : α} {b : β} {cs cs' : List Complaint}
  {f g : List (Table Token) → List (Table Token)}

/-- From one site the resolver goes to the other, with the value and the complaints that are said,
and does to the tables what is said. -/
def Follows (r : Resolver α) (site site' : Site) (f : List (Table Token) → List (Table Token))
    (a : α) (cs : List Complaint) : Prop :=
  ∀ s, s.StandsAt site → (r s).value = a ∧ (r s).surroundings.StandsAt site' ∧
    (r s).surroundings.tables = f s.tables ∧ (r s).complaints = cs

/-- The resolver comes back to where it began, having read what is said. -/
def Reads (r : Resolver α) (site : Site) (a : α) (reads : List (Nat × String))
    (cs : List Complaint) : Prop := Follows r site site (forget reads) a cs

theorem Follows.bind {r : Resolver α} {k : α → Resolver β} (hr : Follows r site site' f a cs)
    (hk : Follows (k a) site' site'' g b cs') :
    Follows (r >>= k) site site'' (fun tables => g (f tables)) b (cs ++ cs') := by
  intro s hs
  obtain ⟨hvalue, hsite, htables, hcs⟩ := hr s hs
  obtain ⟨hvalue', hsite', htables', hcs'⟩ := hk (r s).surroundings hsite
  show (k (r s).value (r s).surroundings).value = b ∧
    (k (r s).value (r s).surroundings).surroundings.StandsAt site'' ∧
    (k (r s).value (r s).surroundings).surroundings.tables = g (f s.tables) ∧
    (r s).complaints ++ (k (r s).value (r s).surroundings).complaints = cs ++ cs'
  rw [hvalue]
  exact ⟨hvalue', hsite', by rw [htables', htables], by rw [hcs, hcs']⟩

theorem Follows.congr {r : Resolver α} (hr : Follows r site site' f a cs)
    (hf : ∀ tables, tables.length = site.scopes.length → f tables = g tables) :
    Follows r site site' g a cs := by
  intro s hs
  obtain ⟨hvalue, hsite, htables, hcs⟩ := hr s hs
  exact ⟨hvalue, hsite, by rw [htables, hf _ hs.length_tables], hcs⟩

theorem Follows.of_stands {r : Resolver α} (hr : Follows r site site' f a cs)
    (h : ∀ s : Surroundings, s.StandsAt site' → s.StandsAt site'') :
    Follows r site site'' f a cs := by
  intro s hs
  obtain ⟨hvalue, hsite, hrest⟩ := hr s hs
  exact ⟨hvalue, h _ hsite, hrest⟩

theorem Follows.of_complaints {r : Resolver α} (hr : Follows r site site' f a cs) (h : cs = cs') :
    Follows r site site' f a cs' := h ▸ hr

theorem follows_pure (a : α) : Follows (Pure.pure a) site site id a [] :=
  fun _ hs => ⟨rfl, hs, rfl, rfl⟩

/-- What comes last makes the value. -/
theorem Follows.map {r : Resolver α} (hr : Follows r site site' f a cs) (k : α → β) :
    Follows (r >>= fun a => Pure.pure (k a)) site site' f (k a) cs :=
  (hr.bind (k := fun a => Pure.pure (k a)) (follows_pure (k a))).of_complaints (List.append_nil cs)

theorem reads_pure (a : α) : Reads (Pure.pure a) site a [] [] :=
  (follows_pure a).congr fun tables _ => (forget_nil tables).symm

theorem Reads.bind {r : Resolver α} {k : α → Resolver β} {reads reads' : List (Nat × String)}
    (hr : Reads r site a reads cs) (hk : Reads (k a) site b reads' cs') :
    Reads (r >>= k) site b (reads ++ reads') (cs ++ cs') :=
  (Follows.bind hr hk).congr fun tables _ => (forget_append reads reads' tables).symm

theorem Reads.map {r : Resolver α} {reads : List (Nat × String)} (hr : Reads r site a reads cs)
    (k : α → β) : Reads (r >>= fun a => Pure.pure (k a)) site (k a) reads cs := Follows.map hr k

theorem follows_get {k : Surroundings → Resolver α}
    (hk : ∀ s, s.StandsAt site → Follows (k s) site site' f a cs) :
    Follows (get >>= k) site site' f a cs := fun s hs => hk s hs s hs

theorem reads_complain {t : Token} (ht : t.isMissing = false) (problem : Problem) :
    Reads (complain t problem) site () [] [⟨t, problem⟩] := by
  intro s hs
  have hcomplain : complain t problem s = ⟨(), s, [⟨t, problem⟩]⟩ := by
    simp [complain, hs.fault, ht]
  rw [hcomplain]
  exact ⟨rfl, hs, (forget_nil _).symm, rfl⟩

/-- A complaint that is made under a condition. -/
theorem follows_complainIf {p : Prop} [Decidable p] {t : Token} (ht : t.isMissing = false)
    (problem : Problem) {k : Resolver α} (hk : Follows k site site' f a cs) :
    Follows (if p then complain t problem >>= fun _ => k else k) site site' f a
      ((if p then [⟨t, problem⟩] else []) ++ cs) := by
  split
  · exact (Follows.bind (reads_complain ht problem) hk).congr fun tables _ => by rw [forget_nil]
  · exact hk

/-! ### Names -/

/-- Outside of every scope there is no innermost one. -/
theorem follows_modifyInnermost_nil (hsites : site.scopes = []) (change : Scope → Scope) :
    Follows (modifyInnermost change) site site id () [] := by
  intro s hs
  have hsame : modifyInnermost change s = ⟨(), s, []⟩ := by
    rw [modifyInnermost, modify, hs.scopes_eq_nil hsites]
    obtain ⟨scopes, inFunction, inClass, fault⟩ := s
    obtain rfl : scopes = [] := hs.scopes_eq_nil hsites
    rfl
  rw [hsame]
  exact ⟨rfl, hs, rfl, rfl⟩

theorem follows_modifyInnermost (names' : List String) (pending : Option String)
    {names : List String} {scopes : List (List String)} {change : Scope → Scope}
    {g : Table Token → Table Token} (hsites : site.scopes = names :: scopes)
    (hbound : ∀ x, pending = some x → x ∈ names')
    (hchange : ∀ scope : Scope, scope.Agrees site.initializing names →
      (change scope).Agrees pending names')
    (hg : ∀ scope : Scope, (change scope).unused = g scope.unused) :
    Follows (modifyInnermost change) site
      { site with scopes := names' :: scopes, initializing := pending } (·.modify 0 g) () [] := by
  intro s hs
  obtain ⟨scope, stack, hstack, hscope, hrest⟩ := hs.exists_scope hsites
  refine ⟨rfl, ⟨hs.fault, ?_, fun x hx => ⟨names', rfl, hbound x hx⟩, hs.inFunction,
    hs.inClass⟩, ?_, rfl⟩
  · simp only [modifyInnermost, modify, hstack, List.modify_zero_cons]
    exact ⟨hchange scope hscope, hrest⟩
  · simp only [modifyInnermost, modify, Surroundings.tables, hstack, List.modify_zero_cons,
      List.map_cons, hg]

section Names

variable {name : Token}

theorem follows_checkName (hname : name.isMissing = false) {k : Resolver α}
    (hk : Follows k site site' f a cs) :
    Follows (checkName name >>= fun _ => k) site site' f a cs := by
  rw [checkName_eq hname, pure_bind]
  exact hk

/-- A name that is declared is bound and in initialization. -/
theorem follows_declare (hsite : site.initializing = none) (hname : name.isMissing = false) :
    Follows (declare name) site ((site.declare name.lexeme).initializer name.lexeme) id ()
      ((site.declare name.lexeme).redeclared name) := by
  refine follows_checkName hname (follows_get fun s hs => ?_)
  rcases hsites : site.scopes with _ | ⟨names, scopes⟩
  · rw [hs.scopes_eq_nil hsites, declare_nil hsites, initializer_nil hsites, Site.redeclared,
      hsites]
    exact follows_pure ()
  · obtain ⟨scope, stack, hstack, hscope, -⟩ := hs.exists_scope hsites
    have hbind : (site.declare name.lexeme).scopes = (name.lexeme :: names) :: scopes := by
      rw [Site.declare, hsites, Site.bind]
    have hcontains : scope.names.contains name.lexeme ↔ 0 < names.count name.lexeme := by
      rw [Table.contains, hscope, hsite, List.count_pos_iff]
      by_cases h : name.lexeme ∈ names <;> simp [h]
    rw [hstack, initializer_cons hbind, Site.redeclared, hbind]
    simp only [List.count_cons_self, Nat.lt_add_left_iff_pos, ← hcontains]
    refine (follows_complainIf hname _ ((follows_modifyInnermost (name.lexeme :: names)
      (some name.lexeme) (g := id) hsites ?_ ?_ ?_).congr ?_)).of_complaints (List.append_nil _)
    · rintro x ⟨rfl⟩
      exact List.mem_cons_self
    · intro scope hscope x
      rw [Table.get?_insert, hscope x, hsite]
      by_cases hx : x = name.lexeme <;> simp [hx, eq_comm]
    · exact fun _ => rfl
    · exact fun tables _ => List.modify_id 0 tables

/-- A definition ends the initialization. -/
theorem follows_define (hsite : site.initializing = none) :
    Follows (define name) ((site.declare name.lexeme).initializer name.lexeme)
      (site.declare name.lexeme) id () [] := by
  rcases hsites : site.scopes with _ | ⟨names, scopes⟩
  · rw [declare_nil hsites, initializer_nil hsites]
    exact follows_modifyInnermost_nil hsites _
  · have hbind : (site.declare name.lexeme).scopes = (name.lexeme :: names) :: scopes := by
      rw [Site.declare, hsites, Site.bind]
    have hdeclare : site.declare name.lexeme = { (site.declare name.lexeme).initializer name.lexeme
        with scopes := (name.lexeme :: names) :: scopes, initializing := none } := by
      rw [initializer_cons hbind, ← hbind, ← hsite]
      rfl
    nth_rewrite 2 [hdeclare]
    refine (follows_modifyInnermost _ _ (g := id) (by rw [initializer_cons hbind]; exact hbind)
      ?_ ?_ ?_).congr ?_
    · intro x hx
      cases hx
    · intro scope hscope x
      rw [initializer_cons hbind] at hscope
      rw [Table.get?_insert, hscope x]
      by_cases hx : x = name.lexeme <;> simp [hx, eq_comm]
    · exact fun _ => rfl
    · exact fun tables _ => List.modify_id 0 tables

/-- A name that is defined as soon as it is declared. -/
theorem follows_introduce (hsite : site.initializing = none) (hname : name.isMissing = false)
    {k : Resolver α} (hk : Follows k (site.declare name.lexeme) site' f a cs) :
    Follows (do declare name; define name; k) site site' f a
      ((site.declare name.lexeme).redeclared name ++ cs) :=
  (follows_declare hsite hname).bind ((follows_define hsite).bind hk)

theorem follows_watch : Follows (watch name) site site
    (·.modify 0 (·.insert name.lexeme name)) () [] := by
  rcases hsites : site.scopes with _ | ⟨names, scopes⟩
  · refine (follows_modifyInnermost_nil hsites _).congr fun tables htables => ?_
    rw [hsites, List.length_nil, List.length_eq_zero_iff] at htables
    rw [htables]
    rfl
  · intro s hs
    have hsame : site = { site with scopes := names :: scopes } := by rw [← hsites]
    have hbound : ∀ x, site.initializing = some x → x ∈ names := by
      intro x hx
      obtain ⟨names', hhead, hmem⟩ := hs.bound x hx
      rw [hsites] at hhead
      cases hhead
      exact hmem
    have hwatch : Follows (watch name) site { site with scopes := names :: scopes }
        (·.modify 0 (·.insert name.lexeme name)) () [] :=
      follows_modifyInnermost names site.initializing hsites hbound (fun _ hscope => hscope)
        fun _ => rfl
    rw [← hsame] at hwatch
    exact hwatch s hs

theorem reads_locate {r : Reference} (hname : r.name.isMissing = false) :
    Reads (locate r) site (site.locate r) [] [] := by
  refine follows_checkName hname (follows_get fun s hs => ?_)
  simp only [hs.fault, Option.isSome_none, Bool.false_eq_true, if_false, hs.hopsTo?_eq]
  exact reads_pure _

/-- The variable that many scopes out is no longer watched. -/
theorem reads_erase {x : String} {hops height : Nat}
    (hhops : Site.hopsTo? x site.scopes = some hops)
    (hheight : Site.heightOf? x site.scopes = some height) :
    Reads (modify fun s => { s with
      scopes := s.scopes.modify hops fun scope => { scope with unused := scope.unused.erase x } })
      site () [(height, x)] [] := by
  intro s hs
  refine ⟨rfl, ⟨hs.fault, scopesAgree_modify_unused (f := (·.erase x)) hops hs.scopes, hs.bound,
    hs.inFunction, hs.inClass⟩, ?_, rfl⟩
  rw [← modify_eq_forget hs.length_tables hhops hheight, modify, Surroundings.tables,
    Surroundings.tables]
  refine List.ext_getElem? fun i => ?_
  simp only [List.getElem?_map, List.getElem?_modify]
  cases s.scopes[i]? with
  | none => rfl
  | some scope => by_cases h : hops = i <;> simp [h]

/-- A reading forgets the variable that it finds. -/
theorem reads_read {r : Reference} (hname : r.name.isMissing = false) :
    Reads (read r) site (site.locate r)
      ((Site.heightOf? r.name.lexeme site.scopes).map fun height => (height, r.name.lexeme)).toList
      (if site.initializing = some r.name.lexeme then [⟨r.name, .readsOwnInitializer⟩]
        else []) := by
  refine follows_get fun s hs => ?_
  rw [isUnfinished_of_scopesAgree hs.scopes]
  simp only [decide_eq_true_eq]
  refine (follows_complainIf hname _ ?_).of_complaints (List.append_nil _)
  refine (reads_locate hname).bind ?_
  simp only [Site.locate]
  cases hhops : Site.hopsTo? r.name.lexeme site.scopes with
  | none =>
    rw [Site.heightOf?_eq_none_iff.2 hhops]
    exact reads_pure _
  | some hops =>
    obtain ⟨height, hheight⟩ :
        ∃ height, Site.heightOf? r.name.lexeme site.scopes = some height := by
      refine Option.ne_none_iff_exists'.1 fun hnone => ?_
      rw [Site.heightOf?_eq_none_iff.1 hnone] at hhops
      cases hhops
    rw [hheight]
    exact (reads_erase hhops hheight).map _

end Names

/-! ### Scopes, functions and classes -/

/-- Inside of a new scope nothing is watched at first, and when it closes what still is watched is
complained of. -/
theorem reads_withScope {scope : Scope} {names : List String} {body : Resolver α} {inner : Site}
    {reads : List (Nat × String)} {t : Table Token} (hscope : scope.Agrees none names)
    (hunused : scope.unused = .empty) (hsite : site.initializing = none)
    (htail : inner.scopes.tail = site.scopes) (hopen : inner.scopes ≠ [])
    (hfunction : inner.inFunction = site.inFunction) (hclass : inner.inClass = site.inClass)
    (hbody : Follows body (site.inside names) inner f a cs)
    (hf : ∀ tables, tables.length = site.scopes.length →
      f (.empty :: tables) = t :: forget reads tables) :
    Reads (withScope scope body) site a reads (cs ++ t.values.map (⟨·, .neverUsed⟩)) := by
  intro s hs
  have hscopes := hs.scopes
  rw [hsite] at hscopes
  obtain ⟨hvalue, hinner, htables, hcs⟩ := hbody { s with scopes := scope :: s.scopes }
    ⟨hs.fault, ⟨hscope, hscopes⟩, nofun, hs.inFunction, hs.inClass⟩
  obtain ⟨bound, rest, hsites⟩ := List.exists_cons_of_ne_nil hopen
  obtain ⟨left, stack, hstack, -, hrest⟩ := hinner.exists_scope hsites
  rw [hsites, List.tail_cons] at htail
  have hstart :
      Surroundings.tables { s with scopes := scope :: s.scopes } = .empty :: s.tables := by
    rw [Surroundings.tables, List.map_cons, hunused, Surroundings.tables]
  rw [hstart, hf _ hs.length_tables, Surroundings.tables, hstack, List.map_cons,
    List.cons.injEq] at htables
  refine ⟨hvalue, ⟨hinner.fault, ?_, ?_, hinner.inFunction.trans hfunction,
    hinner.inClass.trans hclass⟩, ?_, ?_⟩
  · rw [hsite, ← htail, withScope, hstack]
    exact hrest
  · rw [hsite]
    exact nofun
  · rw [withScope, Surroundings.tables, hstack]
    exact htables.2
  · rw [← htables.1, withScope, hcs, closing, hinner.fault, hstack]

theorem reads_withFunction {kind : FunctionContext} {body : Resolver α}
    {reads : List (Nat × String)} (hbody : Reads body { site with inFunction := kind } a reads cs) :
    Reads (withFunction kind body) site a reads cs := by
  intro s hs
  obtain ⟨hvalue, hstands, htables, hcs⟩ := hbody { s with inFunction := kind }
    ⟨hs.fault, hs.scopes, hs.bound, rfl, hs.inClass⟩
  exact ⟨hvalue, ⟨hstands.fault, hstands.scopes, hs.bound, hs.inFunction, hstands.inClass⟩,
    htables, hcs⟩

theorem reads_withClass {kind : ClassContext} {body : Resolver α} {reads : List (Nat × String)}
    (hbody : Reads body { site with inClass := kind } a reads cs) :
    Reads (withClass kind body) site a reads cs := by
  intro s hs
  obtain ⟨hvalue, hstands, htables, hcs⟩ := hbody { s with inClass := kind }
    ⟨hs.fault, hs.scopes, hs.bound, hs.inFunction, rfl⟩
  exact ⟨hvalue, ⟨hstands.fault, hstands.scopes, hs.bound, hstands.inFunction, hs.inClass⟩,
    htables, hcs⟩

theorem follows_parameters {params : List Token} (hparams : ∀ p ∈ params, p.isMissing = false)
    {names : List String} {scopes : List (List String)} (hsites : site.scopes = names :: scopes)
    (hsite : site.initializing = none) :
    Follows (parameters params) site
      { site with scopes := ((params.map (·.lexeme)).reverse ++ names) :: scopes } id ()
      (repeated names params) := by
  induction params generalizing site names with
  | nil =>
    rw [parameters, List.map_nil, List.reverse_nil, List.nil_append, ← hsites]
    exact follows_pure ()
  | cons param params ih =>
    obtain ⟨hparam, hrest⟩ := List.forall_mem_cons.1 hparams
    have hbind : (site.declare param.lexeme).scopes = (param.lexeme :: names) :: scopes := by
      rw [Site.declare, hsites, Site.bind]
    have hredeclared : (site.declare param.lexeme).redeclared param =
        if param.lexeme ∈ names then [⟨param, .alreadyDeclared⟩] else [] := by
      simp only [Site.redeclared, hbind, List.count_cons_self, Nat.lt_add_left_iff_pos,
        List.count_pos_iff]
    rw [parameters, repeated, ← hredeclared]
    have hparameters := follows_introduce hsite hparam (ih hrest hbind hsite)
    rw [List.map_cons, List.reverse_cons, List.append_assoc]
    exact hparameters

/-! ## Trees -/

/-- The resolver goes through the parts of a node, the first of which has the number `i`. -/
def Passes (r : Resolver α) (site : Site) (a : α) (here : List Nat) (i : Nat) (parts : List Spot) :
    Prop :=
  Reads r site a (readings (Spot.walkParts here i parts))
    (complaintsOf (Spot.walkParts here i parts))

/-- The resolver goes through the node. -/
def Visits (r : Resolver α) (site : Site) (a : α) (here : List Nat) (spot : Spot) : Prop :=
  Reads r site a (readings (spot.walk here)) (complaintsOf (spot.walk here))

section Parts

variable {here : List Nat} {i : Nat} {parts : List Spot} {part : Spot}

theorem passes_pure (a : α) : Passes (Pure.pure a) site a here i [] := reads_pure a

theorem Passes.cons {r : Resolver α} {k : α → Resolver β}
    (hr : Visits r site a (here ++ [i]) part) (hk : Passes (k a) site b here (i + 1) parts) :
    Passes (r >>= k) site b here i (part :: parts) := by
  rw [Passes, Spot.walkParts, readings_append, complaintsOf_append]
  exact Reads.bind hr hk

/-- A node that nothing is said about goes through its parts. -/
theorem Passes.visits {r : Resolver α} {spot : Spot} (hr : Passes r site a here 0 spot.parts)
    (hreading : Stop.reading? ⟨here, spot, false⟩ = none) (hremarks : spot.remarks = [])
    (hunread : spot.unread here = []) : Visits r site a here spot := by
  rw [Visits, readings_walk, complaintsOf_walk, hreading, hremarks, hunread, List.map_nil,
    List.append_nil]
  exact hr

/-- A node that is made of nothing else. -/
theorem Reads.visits {r : Resolver α} {spot : Spot}
    (hr : Reads r site a (Stop.reading? ⟨here, spot, false⟩).toList spot.remarks)
    (hparts : spot.parts = []) (hunread : spot.unread here = []) : Visits r site a here spot := by
  rw [Visits, readings_walk, complaintsOf_walk, hparts, hunread, List.map_nil, List.append_nil]
  simp only [Spot.walkParts, readings, complaintsOf, List.filterMap_nil, List.flatMap_nil,
    List.append_nil]
  exact hr

end Parts

/-- Resolution goes through a node that declares nothing. -/
def FollowsPart (site : Site) (n : Node) : Prop :=
  ∀ here, Visits (node n) site (n.locate site false) here ⟨site, false, n⟩

/-- Resolution goes through a statement, and then watches the variable that it declares. -/
def FollowsStatement (site : Site) (n : Node) : Prop :=
  ∀ here, Follows (node n) site (site.after n)
    (fun tables => (forget (readings (Spot.walk here ⟨site.after n, false, n⟩)) tables).modify 0
      n.watch)
    (n.locate (site.after n) false) (complaintsOf (Spot.walk here ⟨site.after n, false, n⟩))

def FollowsOption (site : Site) (found : Option Node) : Prop :=
  ∀ here i, Passes (nodeOption found) site (Node.locateOption site found) here i
    (found.toList.map (⟨site, false, ·⟩))

def FollowsEach (site : Site) (ns : List Node) : Prop :=
  ∀ here i, Passes (arguments ns) site (Node.locateEach site false ns) here i
    (ns.map (⟨site, false, ·⟩))

def FollowsAll (site : Site) (ns : List Node) : Prop :=
  ∀ here i, Follows (nodes ns) site (site.afterAll ns) (Spot.pass here i (site.statements ns))
    (Node.locateAll site ns) (complaintsOf (Spot.walkParts here i (site.statements ns)))

def FollowsMethods (site : Site) (ns : List Node) : Prop :=
  ∀ here i, Passes (methods ns) site (Node.locateEach site true ns) here i
    (ns.map (⟨site, true, ·⟩))

section Cases

theorem watch_eq_self {n : Node} (hn : n.declared? = none) (t : Table Token) : n.watch t = t := by
  cases n with
  | varDecl => cases hn
  | _ => rfl

theorem FollowsPart.statement {n : Node} (h : FollowsPart site n) (hn : n.declared? = none) :
    FollowsStatement site n := by
  intro here
  have hwatch : n.watch = id := funext (watch_eq_self hn)
  rw [Site.after_eq_self hn, hwatch]
  exact (h here).congr fun tables _ => (List.modify_id 0 _).symm

theorem FollowsStatement.part {n : Node} (h : FollowsStatement site n) (hn : n.declared? = none) :
    FollowsPart site n := by
  intro here
  have hstatement := h here
  have hwatch : n.watch = id := funext (watch_eq_self hn)
  rw [Site.after_eq_self hn, hwatch] at hstatement
  exact hstatement.congr fun tables _ => List.modify_id 0 _

/-- A node that only its parts say something about. -/
theorem FollowsStatement.of_passes {n : Node} (hn : n.isPlain)
    (h : ∀ here, Passes (node n) site (n.locate site false) here 0 (Spot.parts ⟨site, false, n⟩)) :
    FollowsStatement site n := by
  have hpart : FollowsPart site n := fun here => by
    refine (h here).visits ?_ ?_ ?_ <;> cases n <;> first | rfl | cases hn
  refine hpart.statement ?_
  cases n <;> first | rfl | cases hn

theorem followsPart_ident {r : Reference} (hname : r.name.isMissing = false) :
    FollowsPart site (.ident r) := fun _ => ((reads_read hname).map _).visits rfl rfl

theorem reads_checkSuper {keyword : Reference} {method : Token}
    (hkeyword : keyword.name.isMissing = false) : Reads (checkSuper keyword.name) site () []
      (Spot.remarks ⟨site, false, .superMethod keyword method⟩) := by
  refine follows_get fun s hs => ?_
  rw [hs.inClass, Spot.remarks]
  cases site.inClass with
  | none => exact reads_complain hkeyword _
  | plain => exact reads_complain hkeyword _
  | subclass => exact reads_pure ()

theorem followsPart_superMethod {keyword : Reference} {method : Token}
    (hkeyword : keyword.name.isMissing = false) :
    FollowsPart site (.superMethod keyword method) := by
  intro here
  refine Reads.visits ?_ rfl rfl
  rw [← List.append_nil (Spot.remarks _)]
  exact (reads_checkSuper hkeyword).bind
    ((reads_locate hkeyword).map (Node.superMethod · method))

theorem followsPart_receiver {keyword : Reference} (hkeyword : keyword.name.isMissing = false) :
    FollowsPart site (.receiver keyword) := by
  intro here
  refine Reads.visits (follows_get fun s hs => ?_) rfl rfl
  rw [hs.inClass, Node.locate, Spot.remarks]
  by_cases hclass : site.inClass = .none
  · simp only [hclass, if_true]
    exact (reads_complain hkeyword _).map _
  · simp only [hclass, if_false]
    exact (reads_locate hkeyword).map _

theorem followsPart_block {statements : List Node} (hsite : site.initializing = none)
    (hstatements : FollowsAll (site.inside []) statements) :
    FollowsPart site (.block statements) := by
  intro here
  obtain ⟨htail, -, -, hfunction, hclass⟩ :=
    Site.afterAll_context (site.inside []) statements
  rw [Visits, readings_walk, complaintsOf_walk]
  refine (reads_withScope (t := Spot.leftover here site.scopes.length 0
    ((site.inside []).statements statements) .empty) scope_agrees_empty rfl hsite htail
    (afterAll_ne_nil rfl statements) hfunction hclass (hstatements here 0) ?_).map Node.block
  intro tables htables
  rw [Spot.pass_cons, htables]
  rfl

/-- The body of a function, in a scope that binds its parameters. -/
theorem reads_functionBody (hsite : site.initializing = none) (kind : FunctionContext)
    {params : List Token} (hparams : ∀ p ∈ params, p.isMissing = false) {body : List Node}
    (hbody : FollowsAll (site.body kind params) body) (here : List Nat) :
    Reads (withFunction kind (withScope {} do parameters params; nodes body)) site
      (Node.locateAll (site.body kind params) body)
      (readings (Spot.walkParts here 0 ((site.body kind params).statements body)))
      (repeated [] params ++
        complaintsOf (Spot.walkParts here 0 ((site.body kind params).statements body)) ++
        (Spot.leftover here site.scopes.length 0 ((site.body kind params).statements body)
          .empty).values.map (⟨·, .neverUsed⟩)) := by
  obtain ⟨htail, -, -, hfunction, hclass⟩ :=
    Site.afterAll_context (site.body kind params) body
  have hparameters : Follows (parameters params) { site.inside [] with inFunction := kind }
      (site.body kind params) id () (repeated [] params) :=
    (follows_parameters hparams rfl rfl).of_stands fun s hs =>
      hs.congr_names fun x => by rw [List.append_nil, List.mem_reverse]
  refine reads_withFunction (reads_withScope scope_agrees_empty rfl hsite htail
    (afterAll_ne_nil rfl body) hfunction hclass (hparameters.bind (hbody here 0)) ?_)
  intro tables htables
  rw [id, Spot.pass_cons, htables]

theorem followsStatement_function {name : Token} {params : List Token} {body : List Node}
    (hsite : site.initializing = none) (hname : name.isMissing = false)
    (hparams : ∀ p ∈ params, p.isMissing = false)
    (hbody : FollowsAll ((site.declare name.lexeme).body .function params) body) :
    FollowsStatement site (.function name params body) := by
  intro here
  rw [readings_walk, complaintsOf_walk]
  have hdeclared : (site.declare name.lexeme).initializing = none := hsite
  have hfunction := follows_introduce hsite hname
    ((reads_functionBody hdeclared .function hparams hbody here).map (Node.function name params))
  refine (hfunction.congr fun tables _ => ?_).of_complaints ?_
  · exact (List.modify_id 0 _).symm
  · rw [← List.append_assoc, ← List.append_assoc]
    rfl

theorem visits_method {name : Token} {params : List Token} {body : List Node}
    (hsite : site.initializing = none) (hparams : ∀ p ∈ params, p.isMissing = false)
    (hbody : FollowsAll (site.body (methodContext name) params) body) (here : List Nat) :
    Visits (withFunction (methodContext name) (withScope {} do parameters params; nodes body)) site
      (Node.locateAll (site.body (methodContext name) params) body) here
      ⟨site, true, .function name params body⟩ := by
  rw [Visits, readings_walk, complaintsOf_walk]
  exact reads_functionBody hsite _ hparams hbody here

/-- Nothing is watched in the scope of a class. -/
theorem reads_classScope {body : Resolver α} {scope : Scope} {names : List String}
    {reads : List (Nat × String)} (hsite : site.initializing = none)
    (hscope : scope.Agrees none names) (hunused : scope.unused = .empty)
    (hbody : Reads body (site.inside names) a reads cs) :
    Reads (withScope scope body) site a reads cs := by
  have hfollows : Follows body (site.inside names) (site.inside names) (forget reads) a cs := hbody
  refine (reads_withScope (t := .empty) hscope hunused hsite ?_ ?_ ?_ ?_ hfollows
    ?_).of_complaints (List.append_nil cs)
  · rfl
  · exact List.cons_ne_nil names site.scopes
  · rfl
  · rfl
  · intro tables _
    rw [forget, Table.without_empty]

theorem reads_checkSuperclass {name : Token} {parent : Reference} (hname : name.isMissing = false)
    (hparent : parent.name.isMissing = false) :
    Reads (checkSuperclass name (.ident parent)) site () []
      (if name.lexeme = parent.name.lexeme then [⟨parent.name, .inheritsFromItself⟩] else []) := by
  simp only [checkSuperclass, Node.name?, hname, hparent, Bool.or_false, Bool.false_eq_true,
    if_false]
  split
  · exact reads_complain hparent _
  · exact reads_pure ()

theorem followsStatement_classDecl {name : Token} {declarations : List Node}
    (hsite : site.initializing = none) (hname : name.isMissing = false)
    (hmethods : FollowsMethods ((site.declare name.lexeme).methods none) declarations) :
    FollowsStatement site (.classDecl name none declarations) := by
  intro here
  rw [readings_walk, complaintsOf_walk]
  have hplain : Site.initializing { site.declare name.lexeme with inClass := .plain } = none :=
    hsite
  have hclass := follows_introduce hsite hname ((reads_withClass (reads_classScope hplain
    (scope_agrees_singleton "this") rfl (hmethods here 0))).map (Node.classDecl name none))
  refine (hclass.congr fun tables _ => ?_).of_complaints ?_
  · exact (List.modify_id 0 _).symm
  · simp [Spot.remarks, Spot.unread, Spot.parts, Site.after, Node.declared?]

theorem followsStatement_subclass {name : Token} {parent : Reference} {declarations : List Node}
    (hsite : site.initializing = none) (hname : name.isMissing = false)
    (hparent : parent.name.isMissing = false)
    (hmethods : FollowsMethods ((site.declare name.lexeme).methods (some (.ident parent)))
      declarations) :
    FollowsStatement site (.classDecl name (some (.ident parent)) declarations) := by
  intro here
  rw [readings_walk, complaintsOf_walk]
  -- Only the scopes matter to the superclass, not the class around it.
  have hvisit : Visits (node (.ident parent)) { site.declare name.lexeme with inClass := .subclass }
      ((Node.ident parent).locate (site.declare name.lexeme) false) (here ++ [0])
      ⟨site.declare name.lexeme, false, .ident parent⟩ :=
    ((reads_read hparent).map _).visits rfl rfl
  have hsubclass :
      Site.initializing { site.declare name.lexeme with inClass := .subclass } = none := hsite
  have hscopes := reads_classScope hsubclass (scope_agrees_singleton "super") rfl
    (reads_classScope rfl (scope_agrees_singleton "this") rfl (hmethods here 1))
  have hclass : Follows (node (.classDecl name (some (.ident parent)) declarations)) site
      (site.declare name.lexeme) _ ((Node.classDecl name (some (.ident parent)) declarations).locate
        (site.declare name.lexeme) false) _ :=
    follows_introduce hsite hname (Follows.bind (reads_checkSuperclass hname hparent)
      (reads_withClass (Passes.cons hvisit (hscopes.map _))))
  refine (hclass.congr fun tables _ => ?_).of_complaints ?_
  · rw [forget_nil]
    exact (List.modify_id 0 _).symm
  · simp [Spot.remarks, Spot.unread, Spot.parts, Spot.beside, Site.after, Node.declared?,
      Node.name?]

theorem followsPart_returning {keyword : Token} {value : Option Node}
    (hkeyword : keyword.isMissing = false) (hvalue : FollowsOption site value) :
    FollowsPart site (.returning keyword value) := by
  intro here
  rw [Visits, readings_walk, complaintsOf_walk]
  refine follows_get fun s hs => ?_
  rw [hs.inFunction]
  refine (follows_complainIf hkeyword _ (follows_complainIf hkeyword _
    ((hvalue here 0).map _))).of_complaints ?_
  rw [Spot.remarks, Spot.unread, List.map_nil, List.append_nil, ← List.append_assoc]
  rfl

theorem followsStatement_varDecl {name : Token} {initializer : Option Node}
    (hsite : site.initializing = none) (hname : name.isMissing = false)
    (hinitializer : FollowsOption ((site.declare name.lexeme).initializer name.lexeme)
      initializer) :
    FollowsStatement site (.varDecl name initializer) := by
  intro here
  rw [readings_walk, complaintsOf_walk]
  have hvar : Follows (node (.varDecl name initializer)) site (site.declare name.lexeme) _
      ((Node.varDecl name initializer).locate (site.declare name.lexeme) false) _ :=
    (follows_declare hsite hname).bind (Follows.bind (hinitializer here 0)
      ((follows_define hsite).bind (follows_watch.bind (follows_pure _))))
  refine (hvar.congr fun tables _ => ?_).of_complaints ?_
  · rfl
  · simp [Spot.remarks, Spot.unread, Spot.parts, Site.after, Node.declared?]

end Cases

section Trees

variable {ok : Token → Prop}

theorem is_not_missing {t : Token} {kind : TokenKind} (h : t.Is ok kind) (hkind : kind ≠ .missing) :
    t.isMissing = false := by
  simp [Token.isMissing, h.2, hkind]

/-- An expression declares nothing. -/
theorem FollowsStatement.expression {n : Node} (h : FollowsStatement site n)
    (hn : n.Fits ok .expression) : FollowsPart site n := h.part (declared?_eq_none hn (.inl rfl))

mutual

/-- Resolution goes through a parsed node where it stands. Only an expression can be part of an
initializer. -/
theorem node_follows {role : Role} {site : Site} (n : Node) (hn : n.Fits ok role)
    (hrole : role ≠ .expression → site.initializing = none) : FollowsStatement site n := by
  match n, hn with
  | .assign target value, hn =>
    obtain ⟨-, ⟨htarget, -⟩, hvalue⟩ := hn
    have hpart : FollowsPart site value := (node_follows value hvalue nofun).expression hvalue
    exact .of_passes rfl fun _ => .cons (hpart _)
      ((reads_locate (is_not_missing htarget (by decide))).map _)
  | .binary left operator right, hn =>
    obtain ⟨-, -, hleft, hright⟩ := hn
    have hfirst : FollowsPart site left := (node_follows left hleft nofun).expression hleft
    have hsecond : FollowsPart site right := (node_follows right hright nofun).expression hright
    exact .of_passes rfl fun _ => .cons (hfirst _) (.cons (hsecond _) (passes_pure _))
  | .call callee paren values, hn =>
    obtain ⟨-, -, hcallee, hvalues⟩ := hn
    have hfirst : FollowsPart site callee := (node_follows callee hcallee nofun).expression hcallee
    have hrest : FollowsEach site values := arguments_follow values hvalues
    exact .of_passes rfl fun here => .cons (hfirst _) ((hrest here 1).map _)
  | .property object name, hn =>
    obtain ⟨-, -, hobject⟩ := hn
    have hpart : FollowsPart site object := (node_follows object hobject nofun).expression hobject
    exact .of_passes rfl fun _ => .cons (hpart _) (passes_pure _)
  | .group inner, hn =>
    obtain ⟨-, hinner⟩ := hn
    have hpart : FollowsPart site inner := (node_follows inner hinner nofun).expression hinner
    exact .of_passes rfl fun _ => .cons (hpart _) (passes_pure _)
  | .literal value, _ =>
    exact .of_passes rfl fun _ => passes_pure _
  | .logical left operator right, hn =>
    obtain ⟨-, -, hleft, hright⟩ := hn
    have hfirst : FollowsPart site left := (node_follows left hleft nofun).expression hleft
    have hsecond : FollowsPart site right := (node_follows right hright nofun).expression hright
    exact .of_passes rfl fun _ => .cons (hfirst _) (.cons (hsecond _) (passes_pure _))
  | .setProperty object name value, hn =>
    obtain ⟨-, -, hobject, hvalue⟩ := hn
    have hfirst : FollowsPart site value := (node_follows value hvalue nofun).expression hvalue
    have hsecond : FollowsPart site object := (node_follows object hobject nofun).expression hobject
    exact .of_passes rfl fun _ => .cons (hfirst _) (.cons (hsecond _) (passes_pure _))
  | .superMethod keyword method, hn =>
    obtain ⟨-, ⟨hkeyword, -⟩, -⟩ := hn
    exact (followsPart_superMethod (is_not_missing hkeyword (by decide))).statement rfl
  | .receiver keyword, hn =>
    obtain ⟨-, hkeyword, -⟩ := hn
    exact (followsPart_receiver (is_not_missing hkeyword (by decide))).statement rfl
  | .unary operator right, hn =>
    obtain ⟨-, -, hright⟩ := hn
    have hpart : FollowsPart site right := (node_follows right hright nofun).expression hright
    exact .of_passes rfl fun _ => .cons (hpart _) (passes_pure _)
  | .ident name, hn =>
    obtain ⟨-, hname, -⟩ := hn
    exact (followsPart_ident (is_not_missing hname (by decide))).statement rfl
  | .block statements, hn =>
    obtain ⟨hstatement, hstatements⟩ := hn
    exact (followsPart_block (hrole (ne_expression_of_isStatement hstatement))
      (nodes_follow statements hstatements rfl)).statement rfl
  | .classDecl name none declarations, hn =>
    obtain ⟨hdeclaration, hname, -, hmethods⟩ := hn
    exact followsStatement_classDecl (hrole (by rw [hdeclaration]; decide))
      (is_not_missing hname (by decide)) (methods_follow declarations hmethods rfl)
  | .classDecl name (some parent) declarations, hn =>
    obtain ⟨hdeclaration, hname, hparent, hmethods⟩ := hn
    obtain ⟨r, rfl, hr⟩ := eq_ident_of_fitsSuperclass hparent
    exact followsStatement_subclass (hrole (by rw [hdeclaration]; decide))
      (is_not_missing hname (by decide)) (is_not_missing hr.1 (by decide))
      (methods_follow declarations hmethods rfl)
  | .expression value, hn =>
    obtain ⟨-, hvalue⟩ := hn
    have hpart : FollowsPart site value := (node_follows value hvalue nofun).expression hvalue
    exact .of_passes rfl fun _ => .cons (hpart _) (passes_pure _)
  | .function name params body, hn =>
    obtain ⟨hdeclaration, hname, hparams, hbody⟩ := hn
    exact followsStatement_function (hrole (by rcases hdeclaration with rfl | rfl <;> decide))
      (is_not_missing hname (by decide)) (fun p hp => is_not_missing (hparams p hp) (by decide))
      (nodes_follow body hbody rfl)
  | .conditional condition thenBranch elseBranch, hn =>
    obtain ⟨hstatement, hcondition, hthen, helse⟩ := hn
    have hsite := hrole (ne_expression_of_isStatement hstatement)
    have hfirst : FollowsPart site condition :=
      (node_follows condition hcondition nofun).expression hcondition
    have hsecond : FollowsPart site thenBranch :=
      (node_follows thenBranch hthen fun _ => hsite).part (declared?_eq_none hthen (.inr rfl))
    have hthird : FollowsOption site elseBranch :=
      option_follows elseBranch helse (.inr rfl) fun _ => hsite
    exact .of_passes rfl fun here => .cons (hfirst _) (.cons (hsecond _) ((hthird here 2).map _))
  | .print value, hn =>
    obtain ⟨-, hvalue⟩ := hn
    have hpart : FollowsPart site value := (node_follows value hvalue nofun).expression hvalue
    exact .of_passes rfl fun _ => .cons (hpart _) (passes_pure _)
  | .returning keyword value, hn =>
    obtain ⟨-, hkeyword, hvalue⟩ := hn
    exact (followsPart_returning (is_not_missing hkeyword (by decide))
      (option_follows value hvalue (.inl rfl) nofun)).statement rfl
  | .varDecl name initializer, hn =>
    obtain ⟨hdeclaration, hname, hinitializer⟩ := hn
    exact followsStatement_varDecl (hrole (by rw [hdeclaration]; decide))
      (is_not_missing hname (by decide)) (option_follows initializer hinitializer (.inl rfl) nofun)
  | .loop condition body, hn =>
    obtain ⟨hstatement, hcondition, hbody⟩ := hn
    have hsite := hrole (ne_expression_of_isStatement hstatement)
    have hfirst : FollowsPart site condition :=
      (node_follows condition hcondition nofun).expression hcondition
    have hsecond : FollowsPart site body := (node_follows body hbody fun _ => hsite).part
      (declared?_eq_none hbody (.inr rfl))
    exact .of_passes rfl fun _ => .cons (hfirst _) (.cons (hsecond _) (passes_pure _))
  | .misfit _, hn => exact hn.elim
termination_by structural n

theorem option_follows {role : Role} {site : Site} (found : Option Node)
    (hn : Node.FitsOption ok role found) (hpart : role = .expression ∨ role = .statement)
    (hrole : role ≠ .expression → site.initializing = none) : FollowsOption site found := by
  intro here i
  match found, hn with
  | none, _ => exact passes_pure _
  | some n, hn =>
    exact .cons ((node_follows n hn hrole).part (declared?_eq_none hn hpart) _) (passes_pure _)
termination_by structural found

theorem arguments_follow {site : Site} (ns : List Node) (hns : Node.FitAll ok .expression ns) :
    FollowsEach site ns := by
  intro here i
  match ns, hns with
  | [], _ => exact passes_pure _
  | n :: rest, ⟨hn, hrest⟩ =>
    rw [arguments_cons hn]
    exact .cons ((node_follows n hn nofun).expression hn _)
      ((arguments_follow rest hrest here (i + 1)).map _)
termination_by structural ns

theorem nodes_follow {site : Site} (ns : List Node) (hns : Node.FitAll ok .declaration ns)
    (hsite : site.initializing = none) : FollowsAll site ns := by
  intro here i
  match ns, hns with
  | [], _ => exact follows_pure _
  | n :: rest, ⟨hn, hrest⟩ =>
    have hafter : (site.after n).initializing = none :=
      (Site.after_context site n).2.2.1.trans hsite
    rw [nodes_cons hn, Site.statements, Spot.walkParts, complaintsOf_append]
    exact (node_follows n hn (fun _ => hsite) (here ++ [i])).bind
      ((nodes_follow rest hrest hafter here (i + 1)).map _)
termination_by structural ns

theorem methods_follow {site : Site} (ns : List Node) (hns : Node.FitAll ok .method ns)
    (hsite : site.initializing = none) : FollowsMethods site ns := by
  intro here i
  match ns, hns with
  | [], _ => exact passes_pure _
  | n :: rest, ⟨hn, hrest⟩ =>
    cases n with
    | function name params body =>
      obtain ⟨-, hname, hparams, hbody⟩ := hn
      rw [methods_cons (is_not_missing hname (by decide))]
      exact .cons (visits_method hsite (fun p hp => is_not_missing (hparams p hp) (by decide))
        (nodes_follow body hbody rfl) _) ((methods_follow rest hrest hsite here (i + 1)).map _)
    | _ => simp [Node.Fits, Role.IsStatement] at hn
termination_by structural ns

end

end Trees

end Resolver

/-- Resolution of a parsed program gives each reference the distance of its position, complains at
each stop of the walk in turn, and comes back to where it began. -/
theorem follows_nodes {ok : Token → Prop} {ns : List Node} (hns : Node.FitAll ok .declaration ns) :
    Resolver.nodes ns {} = ⟨Node.locateAll {} ns, {}, complaintsOf (Node.walkAll ns)⟩ := by
  have hstart : Surroundings.StandsAt {} {} := ⟨rfl, rfl, nofun, rfl, rfl⟩
  obtain ⟨hvalue, hstands, -, hcomplaints⟩ := Resolver.nodes_follow ns hns rfl [] 0 {} hstart
  obtain ⟨-, hlength, -, hfunction, hclass⟩ := Site.afterAll_context {} ns
  have hscopes := hstands.scopes_eq_nil (List.length_eq_zero_iff.1 hlength)
  have hfault := hstands.fault
  have hinFunction := hstands.inFunction.trans hfunction
  have hinClass := hstands.inClass.trans hclass
  generalize Resolver.nodes ns {} = reply at *
  obtain ⟨value, ⟨scopes, inFunction, inClass, fault⟩, complaints⟩ := reply
  obtain rfl : value = _ := hvalue
  obtain rfl : complaints = _ := hcomplaints
  obtain rfl : scopes = _ := hscopes
  obtain rfl : inFunction = _ := hinFunction
  obtain rfl : inClass = _ := hinClass
  obtain rfl : fault = _ := hfault
  rfl

end Lox
