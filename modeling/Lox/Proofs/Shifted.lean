import Mathlib.Tactic
import Lox.Proofs.Lexical

/-!
# Trees among other scopes

To `shift` a tree is to change the distances of the references that leave it, and to leave those
inside of it as they are. A tree that stands among other scopes, but in which every name is bound
by the same scope as before, has the distances of the shifted tree (`Node.locate_eq_shift`).
-/

namespace Lox

open Site (hopsTo? hopsTo?_cons)

/-- What becomes of distances within one more scope. -/
def liftHops (g : Nat → Nat) : Nat → Nat
  | 0 => 0
  | hops + 1 => g hops + 1

theorem liftHops_id : liftHops id = id := by
  funext hops
  cases hops <;> rfl

def Reference.shift (g : Nat → Nat) (r : Reference) : Reference := { r with hops := r.hops.map g }

mutual

/-- The tree with the distances of the references that leave it changed. -/
def Node.shift : (g : Nat → Nat) → Node → Node
  | g, .assign target value => .assign (target.shift g) (value.shift g)
  | g, .binary left operator right => .binary (left.shift g) operator (right.shift g)
  | g, .call callee paren arguments => .call (callee.shift g) paren (Node.shiftAll g arguments)
  | g, .property object name => .property (object.shift g) name
  | g, .group inner => .group (inner.shift g)
  | _, .literal value => .literal value
  | g, .logical left operator right => .logical (left.shift g) operator (right.shift g)
  | g, .setProperty object name value => .setProperty (object.shift g) name (value.shift g)
  | g, .superMethod keyword method => .superMethod (keyword.shift g) method
  | g, .receiver keyword => .receiver (keyword.shift g)
  | g, .unary operator right => .unary operator (right.shift g)
  | g, .ident name => .ident (name.shift g)
  | g, .block statements => .block (Node.shiftAll (liftHops g) statements)
  | g, .classDecl name none methods => .classDecl name none (Node.shiftAll (liftHops g) methods)
  | g, .classDecl name (some parent) methods =>
    .classDecl name (some (parent.shift g)) (Node.shiftAll (liftHops (liftHops g)) methods)
  | g, .expression value => .expression (value.shift g)
  | g, .function name params body => .function name params (Node.shiftAll (liftHops g) body)
  | g, .conditional condition thenBranch elseBranch =>
    .conditional (condition.shift g) (thenBranch.shift g) (Node.shiftOption g elseBranch)
  | g, .print value => .print (value.shift g)
  | g, .returning keyword value => .returning keyword (Node.shiftOption g value)
  | g, .varDecl name initializer => .varDecl name (Node.shiftOption g initializer)
  | g, .loop condition body => .loop (condition.shift g) (body.shift g)
  | _, .misfit m => .misfit m

def Node.shiftAll : (g : Nat → Nat) → List Node → List Node
  | _, [] => []
  | g, n :: rest => n.shift g :: Node.shiftAll g rest

def Node.shiftOption : (g : Nat → Nat) → Option Node → Option Node
  | _, none => none
  | g, some n => some (n.shift g)

end

mutual

theorem Node.shift_id : ∀ n : Node, n.shift id = n
  | .assign _ value | .property value _ | .group value | .unary _ value | .expression value
  | .print value => by simp [Node.shift, Reference.shift, value.shift_id]
  | .binary left _ right | .logical left _ right | .setProperty left _ right
  | .loop left right => by simp [Node.shift, left.shift_id, right.shift_id]
  | .call callee _ arguments => by simp [Node.shift, callee.shift_id, Node.shiftAll_id arguments]
  | .literal _ | .misfit _ => rfl
  | .superMethod _ _ | .receiver _ | .ident _ => by simp [Node.shift, Reference.shift]
  | .block statements => by simp [Node.shift, liftHops_id, Node.shiftAll_id statements]
  | .classDecl _ none methods => by simp [Node.shift, liftHops_id, Node.shiftAll_id methods]
  | .classDecl _ (some parent) methods => by
    simp [Node.shift, liftHops_id, parent.shift_id, Node.shiftAll_id methods]
  | .function _ _ body => by simp [Node.shift, liftHops_id, Node.shiftAll_id body]
  | .conditional condition thenBranch elseBranch => by
    simp [Node.shift, condition.shift_id, thenBranch.shift_id, Node.shiftOption_id elseBranch]
  | .returning _ value | .varDecl _ value => by simp [Node.shift, Node.shiftOption_id value]

theorem Node.shiftAll_id : ∀ ns : List Node, Node.shiftAll id ns = ns
  | [] => rfl
  | n :: rest => by rw [Node.shiftAll, n.shift_id, Node.shiftAll_id rest]

theorem Node.shiftOption_id : ∀ n : Option Node, Node.shiftOption id n = n
  | none => rfl
  | some n => by rw [Node.shiftOption, n.shift_id]

end

theorem Node.declared?_shift (g : Nat → Nat) (n : Node) : (n.shift g).declared? = n.declared? := by
  cases n with
  | classDecl name superclass methods => cases superclass <;> rfl
  | _ => rfl

theorem Node.name?_shift (g : Nat → Nat) (n : Node) : (n.shift g).name? = n.name? := by
  cases n with
  | classDecl name superclass methods => cases superclass <;> rfl
  | _ => rfl

theorem Site.after_shift (site : Site) (g : Nat → Nat) (n : Node) :
    site.after (n.shift g) = site.after n := by
  simp only [Site.after, Node.declared?_shift]

/-! ## Sites -/

namespace Site

/-- What is bound around the second site is bound around the first, at the new distances. -/
structure Moved (g : Nat → Nat) (site site' : Site) : Prop where
  hops : ∀ x, hopsTo? x site.scopes = (hopsTo? x site'.scopes).map g
  inClass : site.inClass = site'.inClass

/-- The sites are in scopes that bind the same names, around which they are moved. -/
structure MovedAround (g : Nat → Nat) (site site' : Site) : Prop where
  scopes : ∃ names outer outer', site.scopes = names :: outer ∧ site'.scopes = names :: outer' ∧
    ∀ x, hopsTo? x outer = (hopsTo? x outer').map g
  inClass : site.inClass = site'.inClass

variable {g : Nat → Nat} {site site' : Site}

theorem map_liftHops (hops : Option Nat) :
    (hops.map (· + 1)).map (liftHops g) = (hops.map g).map (· + 1) := by
  cases hops <;> rfl

theorem MovedAround.moved (h : MovedAround g site site') : Moved (liftHops g) site site' := by
  obtain ⟨⟨names, outer, outer', hscopes, hscopes', houter⟩, hclass⟩ := h
  refine ⟨fun x => ?_, hclass⟩
  rw [hscopes, hscopes', hopsTo?_cons, hopsTo?_cons, houter]
  split
  · rfl
  · rw [map_liftHops]

theorem Moved.inside (h : Moved g site site') (names : List String) :
    MovedAround g (site.inside names) (site'.inside names) :=
  ⟨⟨names, _, _, rfl, rfl, h.hops⟩, h.inClass⟩

theorem Moved.body (h : Moved g site site') (kind : FunctionContext) (params : List Token) :
    MovedAround g (site.body kind params) (site'.body kind params) :=
  ⟨(h.inside _).scopes, h.inClass⟩

theorem Moved.initializer (h : Moved g site site') (name : String) :
    Moved g (site.initializer name) (site'.initializer name) := by
  refine ⟨?_, ?_⟩
  · simpa only [scopes_initializer] using h.hops
  · simpa only [inClass_initializer] using h.inClass

theorem Moved.methods (h : Moved g site site') :
    Moved (liftHops g) (site.methods none) (site'.methods none) :=
  ⟨(h.inside ["this"]).moved.hops, rfl⟩

theorem Moved.methodsBelow (h : Moved g site site') (parent parent' : Node) :
    Moved (liftHops (liftHops g)) (site.methods (some parent)) (site'.methods (some parent')) :=
  ⟨((h.inside ["super"]).moved.inside ["this"]).moved.hops, rfl⟩

theorem MovedAround.after (h : MovedAround g site site') (n : Node) :
    MovedAround g (site.after n) (site'.after n) := by
  unfold Site.after
  split
  · exact h
  · rename_i name _
    obtain ⟨⟨names, outer, outer', hscopes, hscopes', houter⟩, hclass⟩ := h
    refine ⟨⟨name :: names, outer, outer', ?_, ?_, houter⟩, hclass⟩
    · rw [declare, hscopes, bind]
    · rw [declare, hscopes', bind]

/-- A scope without names moves everything one scope further out. -/
theorem moved_inside_nil (site : Site) : Moved (· + 1) (site.inside []) site := by
  refine ⟨fun x => ?_, rfl⟩
  rw [show (site.inside []).scopes = [] :: site.scopes from rfl, hopsTo?_cons,
    if_neg List.not_mem_nil]

theorem Moved.locate (h : Moved g site site') (r : Reference) :
    site.locate r = (site'.locate r).shift g := by
  rw [Site.locate, Site.locate, Reference.shift, h.hops]

end Site

/-! ## Distances of a tree that was moved -/

section Fits

open Site (Moved MovedAround)

variable {ok : Token → Prop}

mutual

/-- A tree has the distances of the shifted one where its names are bound as they were. -/
theorem Node.locate_eq_shift : ∀ {n : Node} {role : Role} {g : Nat → Nat} {site site' : Site}
    (isMethod : Bool), n.Fits ok role → Moved g site site' →
    n.locate site isMethod = (n.locate site' isMethod).shift g
  | .assign target value, _, g, site, site', _, hn, h => by
    simp only [Node.locate, Node.shift, h.locate, value.locate_eq_shift false hn.2.2 h]
  | .binary left _ right, _, g, site, site', _, hn, h => by
    simp only [Node.locate, Node.shift, left.locate_eq_shift false hn.2.2.1 h,
      right.locate_eq_shift false hn.2.2.2 h]
  | .call callee _ arguments, _, g, site, site', _, hn, h => by
    simp only [Node.locate, Node.shift, callee.locate_eq_shift false hn.2.2.1 h,
      Node.locateEach_eq_shift false hn.2.2.2 h]
  | .property object _, _, g, site, site', _, hn, h => by
    simp only [Node.locate, Node.shift, object.locate_eq_shift false hn.2.2 h]
  | .group inner, _, g, site, site', _, hn, h => by
    simp only [Node.locate, Node.shift, inner.locate_eq_shift false hn.2 h]
  | .literal _, _, g, site, site', _, hn, h => rfl
  | .logical left _ right, _, g, site, site', _, hn, h => by
    simp only [Node.locate, Node.shift, left.locate_eq_shift false hn.2.2.1 h,
      right.locate_eq_shift false hn.2.2.2 h]
  | .setProperty object _ value, _, g, site, site', _, hn, h => by
    simp only [Node.locate, Node.shift, object.locate_eq_shift false hn.2.2.1 h,
      value.locate_eq_shift false hn.2.2.2 h]
  | .superMethod .., _, g, site, site', _, hn, h => by
    simp only [Node.locate, Node.shift, h.locate]
  | .receiver keyword, _, g, site, site', _, hn, h => by
    have hfresh : keyword.shift g = keyword := by
      rw [Reference.shift, hn.2.2, Option.map_none, ← hn.2.2]
    simp only [Node.locate, Node.shift, h.inClass]
    split
    · rw [hfresh]
    · rw [h.locate]
  | .unary _ right, _, g, site, site', _, hn, h => by
    simp only [Node.locate, Node.shift, right.locate_eq_shift false hn.2.2 h]
  | .ident _, _, g, site, site', _, hn, h => by
    simp only [Node.locate, Node.shift, h.locate]
  | .block statements, _, g, site, site', _, hn, h => by
    simp only [Node.locate, Node.shift, Node.locateAll_eq_shift hn.2 (h.inside [])]
  | .classDecl name none methods, _, g, site, site', _, hn, h => by
    simp only [Node.locate, Node.locateOption, Node.shift,
      Node.locateEach_eq_shift true hn.2.2.2 h.methods]
  | .classDecl name (some parent) methods, _, g, site, site', _, hn, h => by
    obtain ⟨r, rfl, hr⟩ := Resolver.eq_ident_of_fitsSuperclass hn.2.2.1
    simp only [Node.locate, Node.locateOption, Node.shift, h.locate,
      Node.locateEach_eq_shift true hn.2.2.2 (h.methodsBelow (.ident r) (.ident r))]
  | .expression value, _, g, site, site', _, hn, h => by
    simp only [Node.locate, Node.shift, value.locate_eq_shift false hn.2 h]
  | .function _ params body, _, g, site, site', _, hn, h => by
    simp only [Node.locate, Node.shift, Node.locateAll_eq_shift hn.2.2.2 (h.body _ params)]
  | .conditional condition thenBranch elseBranch, _, g, site, site', _, hn, h => by
    simp only [Node.locate, Node.shift, condition.locate_eq_shift false hn.2.1 h,
      thenBranch.locate_eq_shift false hn.2.2.1 h, Node.locateOption_eq_shift hn.2.2.2 h]
  | .print value, _, g, site, site', _, hn, h => by
    simp only [Node.locate, Node.shift, value.locate_eq_shift false hn.2 h]
  | .returning _ value, _, g, site, site', _, hn, h => by
    simp only [Node.locate, Node.shift, Node.locateOption_eq_shift hn.2.2 h]
  | .varDecl name initializer, _, g, site, site', _, hn, h => by
    simp only [Node.locate, Node.shift,
      Node.locateOption_eq_shift hn.2.2 (h.initializer name.lexeme)]
  | .loop condition body, _, g, site, site', _, hn, h => by
    simp only [Node.locate, Node.shift, condition.locate_eq_shift false hn.2.1 h,
      body.locate_eq_shift false hn.2.2 h]
  | .misfit _, _, g, site, site', _, hn, h => hn.elim

theorem Node.locateEach_eq_shift : ∀ {ns : List Node} {role : Role} {g : Nat → Nat}
    {site site' : Site} (isMethod : Bool), Node.FitAll ok role ns → Moved g site site' →
    Node.locateEach site isMethod ns = Node.shiftAll g (Node.locateEach site' isMethod ns)
  | [], _, _, _, _, _, _, _ => rfl
  | n :: rest, _, g, site, site', isMethod, hns, h => by
    simp only [Node.locateEach, Node.shiftAll, n.locate_eq_shift isMethod hns.1 h,
      Node.locateEach_eq_shift isMethod hns.2 h]

theorem Node.locateAll_eq_shift : ∀ {ns : List Node} {role : Role} {g : Nat → Nat}
    {site site' : Site}, Node.FitAll ok role ns → MovedAround g site site' →
    Node.locateAll site ns = Node.shiftAll (liftHops g) (Node.locateAll site' ns)
  | [], _, _, _, _, _, _ => rfl
  | n :: rest, _, g, site, site', hns, h => by
    simp only [Node.locateAll, Node.shiftAll, n.locate_eq_shift false hns.1 (h.after n).moved,
      Node.locateAll_eq_shift hns.2 (h.after n)]

theorem Node.locateOption_eq_shift : ∀ {n : Option Node} {role : Role} {g : Nat → Nat}
    {site site' : Site}, Node.FitsOption ok role n → Moved g site site' →
    Node.locateOption site n = Node.shiftOption g (Node.locateOption site' n)
  | none, _, _, _, _, _, _ => rfl
  | some n, _, g, site, site', hn, h => by
    simp only [Node.locateOption, Node.shiftOption, n.locate_eq_shift false hn h]

end

end Fits

end Lox
