import Mathlib.Tactic
import Lox.Proofs.InStep

/-!
# Shifted trees run in step

A tree can be run among padding when it is shifted, and does not declare its names there
(`Placed`). It then runs in step with the tree that is not shifted, on a machine without the padding
(`simulates`). By induction on the depth, with one case for each sort of node.
-/

namespace Lox

namespace Padding

/-- The shifted tree stands at the site, where no names are bound in the padding. -/
structure Placed (L : List Bool) (site : Site) (n : Node) : Prop where
  shifted : (n.shift (hops L)).Scoped site
  gaps : Gaps L site.scopes
  quiet : L.head? = some true → n.declared? = none

/-- The shifted statements stand at the site, in a scope that is no padding. -/
structure PlacedAll (L : List Bool) (site : Site) (ns : List Node) : Prop where
  shifted : Node.ScopedAll site (Node.shiftAll (hops (false :: L)) ns)
  gaps : Gaps (false :: L) site.scopes

section Placed

variable {L : List Bool} {site : Site} {n : Node} {ns : List Node}

theorem placed_part (hgaps : Gaps L site.scopes)
    (h : (n.shift (hops L)).declared? = none ∧ (n.shift (hops L)).Scoped site) :
    Placed L site n :=
  ⟨h.2, hgaps, fun _ => (n.declared?_shift _).symm.trans h.1⟩

theorem Placed.head_ne (h : Placed L site n) {name : String} (hn : n.declared? = some name) :
    L.head? ≠ some true := by
  intro hhead
  rw [h.quiet hhead] at hn
  cases hn

theorem PlacedAll.first (h : PlacedAll L site (n :: ns)) : Placed (false :: L) site n :=
  ⟨h.shifted.1, h.gaps, by simp⟩

theorem PlacedAll.rest (h : PlacedAll L site (n :: ns)) : PlacedAll L (site.after n) ns := by
  have hrest := h.shifted.2
  rw [Site.after_shift] at hrest
  exact ⟨hrest, h.gaps.after (by simp) n⟩

theorem Placed.block (h : Placed L site (.block ns)) : PlacedAll L (site.inside []) ns := by
  have hshifted := h.shifted
  simp only [Node.shift, Node.Scoped, liftHops_hops] at hshifted
  exact ⟨hshifted, h.gaps.cons []⟩

theorem Placed.body {name : Token} {params : List Token}
    (h : Placed L site (.function name params ns)) :
    PlacedAll L ((site.declare name.lexeme).body .function params) ns := by
  have hshifted := h.shifted
  simp only [Node.shift, Node.Scoped, liftHops_hops] at hshifted
  exact ⟨hshifted.2.2, (h.gaps.bind (h.head_ne rfl) _).cons _⟩

end Placed

section Rules

open Eval Couple

variable {p q : Couple} {L : List Bool} {site : Site}

/-! ## Declarations -/

theorem sims_declareFunction {name : Token} {params : List Token} {body : List Node}
    (hp : p.Agrees) (hL : p.Stands L) (hn : Placed L site (.function name params body)) :
    Sims (declareFunction name ((Node.function name params body).shift (hops L)))
      (declareFunction name (.function name params body)) p fun _ _ _ => True := by
  refine sims_get hp _ _ ?_
  have hmatches : Matches p.links p.left.store p.right.store []
      ⟨(Node.function name params body).shift (hops L), p.left.environment, false⟩
      ⟨.function name params body, p.right.environment, false⟩ := by
    refine ⟨rfl, L, _, name, params, body, hL, hn.head_ne rfl, ?_, rfl, hn.body.gaps, hn.body.shifted⟩
    simp only [Node.shift, liftHops_hops, List.nil_append]
  refine (sims_newFunction hp hmatches).bind fun id id' q hq hid => ?_
  obtain ⟨rfl, hid⟩ := hid
  exact (sims_define name hq.agrees (hL.reaches hp hq) (hn.head_ne rfl)
    (show q.Shares (.function id') from hid)).mono fun _ _ _ _ _ => trivial

theorem sims_makeMethods {inner inner' : Nat} :
    ∀ {methods : List Node} {table : Table Nat} {p : Couple}, p.Agrees →
      Along p.links p.left.store p.right.store L inner inner' → Gaps (false :: L) site.scopes →
      Node.ScopedMethods site (Node.shiftAll (hops (false :: L)) methods) →
      MethodsMatch p.links p.left.store p.right.store table →
      Sims (makeMethods inner (Node.shiftAll (hops (false :: L)) methods) table)
        (makeMethods inner' methods table) p fun table table' q => table' = table ∧
          MethodsMatch q.links q.left.store q.right.store table
  | [], table, p, hp, _, _, _, htable => sims_pure hp ⟨rfl, htable⟩
  | method :: rest, table, p, hp, hL, hgaps, hmethods, htable => by
    cases method with
    | function name params body =>
      obtain ⟨⟨-, -, hbody⟩, hrest⟩ := hmethods
      have hname : Sims (methodName ((Node.function name params body).shift (hops (false :: L))))
          (methodName (.function name params body)) p fun text text' q => q = p ∧
            text = name.lexeme ∧ text' = name.lexeme := by
        refine (sims_checkToken name hp).bind fun _ _ q _ heq => ?_
        subst heq
        exact sims_pure hp ⟨rfl, rfl, rfl⟩
      refine hname.bind fun text text' q _ htext => ?_
      obtain ⟨rfl, rfl, rfl⟩ := htext
      have hmatches : Matches q.links q.left.store q.right.store [false]
          ⟨(Node.function name params body).shift (hops (false :: L)), inner,
            decide (name.lexeme = "init")⟩
          ⟨.function name params body, inner', decide (name.lexeme = "init")⟩ := by
        rw [liftHops_hops] at hbody
        refine ⟨rfl, L, site.body (Resolver.methodContext name) params, name, params, body, hL,
          by simp, ?_, rfl, hgaps.cons _, hbody⟩
        simp only [Node.shift, liftHops_hops]
        rfl
      refine (sims_newFunction hp hmatches).bind fun id id' r hr hid => ?_
      obtain ⟨rfl, hid⟩ := hid
      refine sims_makeMethods hr.agrees (hL.onward hp.store hr.onward) hgaps hrest
        fun x k hk => ?_
      rw [Table.get?_insert] at hk
      split at hk
      · cases hk
        exact hid
      · exact htable.onward hp.store hr.onward x k hk
    | classDecl name superclass methods => cases superclass <;> exact hmethods.elim
    | _ => exact hmethods.elim

theorem sims_declareClass (parent : Option Nat) {name : Token} {methods : List Node} {inner : Site}
    (hp : p.Agrees) (hL : p.Stands L) (hhead : L.head? ≠ some true)
    (hgaps : Gaps (false :: parent.elim L fun _ => false :: L) inner.scopes)
    (hmethods : Node.ScopedMethods inner
      (Node.shiftAll (hops (false :: parent.elim L fun _ => false :: L)) methods)) :
    Sims (declareClass name parent
        (Node.shiftAll (hops (false :: parent.elim L fun _ => false :: L)) methods))
      (declareClass name parent methods) p fun _ _ _ => True := by
  refine (sims_define name hp hL hhead (show p.Shares .nil from trivial)).bind
    fun _ _ q hq hhas => ?_
  refine sims_get hq.agrees _ _ ?_
  have hL := hL.reaches hp hq
  have hlt := (Along.lt hq.agrees.store hL).1
  refine (sims_methodEnvironment hq.agrees hL parent).bind fun env env' r hr hinner => ?_
  have hempty : MethodsMatch r.links r.left.store r.right.store .empty := by simp [MethodsMatch]
  have hmake := sims_makeMethods (hr.agrees.inside env env') hinner hgaps hmethods hempty
  have hleave := sims_entered (Q := fun _ _ _ => True)
    (k := fun methods => alloc (·.newClass ⟨name.lexeme, parent, methods⟩) >>= fun id =>
      assignNearest name (.cls id))
    (l := fun methods => alloc (·.newClass ⟨name.lexeme, parent, methods⟩) >>= fun id =>
      assignNearest name (.cls id)) hmake fun table table' t ht htable => ?_
  · rw [hr.left, hr.right] at hleave
    exact hleave
  · obtain ⟨rfl, htable⟩ := htable
    refine (sims_newClass ht.agrees htable).bind fun id id' u hu hid => ?_
    subst hid
    have hreach := (hr.trans ht).trans hu
    have hhas' := hreach.onward.left.has _ hlt _ hhas
    rw [← hreach.left] at hhas'
    exact sims_assignNearest name hu.agrees (hL.reaches hq.agrees hreach) hhead hhas' trivial

theorem sims_superclass (g : Nat → Nat) (parent : Node) (v : Value) (hp : p.Agrees) :
    Sims (superclass (parent.shift g) v) (superclass parent v) p fun id id' q =>
      id' = id ∧ q = p := by
  cases v with
  | cls id => exact sims_pure hp ⟨rfl, rfl⟩
  | _ =>
    simp only [superclass, Node.name?_shift]
    split
    · exact sims_fail hp
    · exact sims_fault hp

theorem checkInitialized_shift (g : Nat → Nat) (n : Node) (v : Value) :
    checkInitialized (n.shift g) v = checkInitialized n v := by
  cases n with
  | classDecl name superclass methods => cases superclass <;> rfl
  | ident r => cases v <;> rfl
  | _ => rfl

theorem sims_checkInitialized (n : Node) (v : Value) (hp : p.Agrees) :
    Sims (checkInitialized n v) (checkInitialized n v) p fun _ _ q => q = p := by
  unfold checkInitialized
  split
  · exact sims_fail hp
  · exact sims_pure hp rfl

/-- The receiver is as far from its superclass with the padding as without. -/
theorem sims_superMethod {mode : Mode} (hmode : mode.byDistance = true) {keyword : Reference}
    {method : Token} (hp : p.Agrees) (hL : p.Stands L)
    (hn : Placed L site (.superMethod keyword method)) :
    Sims (superMethod mode (keyword.shift (hops L)) method) (superMethod mode keyword method) p
      Same := by
  obtain ⟨-, -, i, hshifted, -, hthis⟩ := hn.shifted
  obtain ⟨k, hk, hhops⟩ := Option.map_eq_some_iff.1 hshifted
  have hgap : L[i]? ≠ some true := by
    intro hgap
    obtain ⟨names, hnames, hmem⟩ := Site.binds_of_hopsTo? hthis
    rw [hn.gaps i hgap] at hnames
    cases hnames
    cases hmem
  obtain ⟨j, rfl, hj⟩ := exists_hops_eq hhops hgap
  unfold superMethod
  rw [Eval.hops_eq hmode, Eval.hops_eq hmode, hshifted, hk]
  have hsuper := sims_getAt (j + 1) "super" hp hL
  rw [hhops] at hsuper
  refine hsuper.bind fun parent parent' q _ hparent => ?_
  obtain ⟨rfl, rfl, -⟩ := hparent
  have hreceiver := sims_getAt j "this" hp hL
  rw [hj] at hreceiver
  refine hreceiver.bind fun receiver receiver' q _ hreceiver => ?_
  obtain ⟨rfl, rfl, hreceiver⟩ := hreceiver
  cases parent' with
  | cls id =>
    refine (sims_checkToken method hp).bind fun _ _ r _ heq => ?_
    subst heq
    refine sims_get hp _ _ ?_
    rcases hp.store.method? id method.lexeme with ⟨hf, hf'⟩ | ⟨f, f', hf, hf', hmatches⟩ <;>
      rw [hf, hf']
    · exact sims_fail hp
    · exact (sims_bind hp hmatches hreceiver).bind fun id id' r hr hv => sims_pure hr.agrees hv
  | _ => exact sims_fault hp

/-! ## Nodes and calls -/

/-- Up to the depth, shifted trees and calls of what is shared run in step. -/
structure Simulates (mode : Mode) (depth : Nat) : Prop where
  node : ∀ {n : Node} {L : List Bool} {site : Site} {p : Couple}, p.Agrees → p.Stands L →
    Placed L site n → Sims (eval mode depth (n.shift (hops L))) (eval mode depth n) p Same
  call : ∀ {v : Value} {values : List Value} {p : Couple}, p.Agrees → p.Shares v →
    (∀ a ∈ values, p.Shares a) →
    Sims (call mode depth v values) (call mode depth v values) p Same

section Parts

variable {mode : Mode} {depth : Nat} (IH : Simulates mode depth)

include IH

theorem Simulates.each : ∀ {ns : List Node} {p : Couple}, p.Agrees → p.Stands L →
    Gaps L site.scopes → Node.ScopedEach site (Node.shiftAll (hops L) ns) →
    Sims ((Node.shiftAll (hops L) ns).mapM (eval mode depth)) (ns.mapM (eval mode depth)) p
      fun values values' q => values' = values ∧ ∀ v ∈ values, q.Shares v
  | [], p, hp, _, _, _ => sims_pure hp ⟨rfl, by simp⟩
  | n :: rest, p, hp, hL, hgaps, hns => by
    rw [Node.shiftAll, List.mapM_cons, List.mapM_cons]
    refine (IH.node hp hL (placed_part hgaps hns.1)).bind fun v w q hq hv => ?_
    obtain ⟨rfl, hv⟩ := hv
    refine (Simulates.each hq.agrees (hL.reaches hp hq) hgaps hns.2).bind
      fun values values' r hr hvalues => ?_
    obtain ⟨rfl, hvalues⟩ := hvalues
    refine sims_pure hr.agrees ⟨rfl, fun a ha => ?_⟩
    rcases List.mem_cons.1 ha with rfl | ha
    · exact hv.reaches hq.agrees hr
    · exact hvalues a ha

theorem Simulates.statements : ∀ {ns : List Node} {site : Site} {p : Couple}, p.Agrees →
    p.Stands (false :: L) → PlacedAll L site ns →
    Sims (inOrder (eval mode depth) (Node.shiftAll (hops (false :: L)) ns))
      (inOrder (eval mode depth) ns) p fun _ _ _ => True
  | [], _, _, hp, _, _ => sims_pure hp trivial
  | _ :: _, _, _, hp, hL, hns =>
    (IH.node hp hL hns.first).bind fun _ _ _ hq _ =>
      Simulates.statements hq.agrees (hL.reaches hp hq) hns.rest

theorem Simulates.turns {condition body : Node} {count : Nat} (hp : p.Agrees) (hL : p.Stands L)
    (hcondition : Placed L site condition) (hbody : Placed L site body) :
    Sims (repeatWhile (eval mode depth (condition.shift (hops L)))
        (eval mode depth (body.shift (hops L))) count)
      (repeatWhile (eval mode depth condition) (eval mode depth body) count) p fun _ _ _ => True :=
  sims_repeatWhile (fun hq hL => IH.node hq hL hcondition)
    (fun hq hL => (IH.node hq hL hbody).mono fun _ _ _ _ _ => trivial) hp hL

theorem Simulates.callFunction {id : Nat} {values : List Value} (hp : p.Agrees)
    (hv : p.Shares (.function id)) (hvalues : ∀ a ∈ values, p.Shares a) :
    Sims (Eval.call mode (depth + 1) (.function id) values)
      (Eval.call mode (depth + 1) (.function id) values) p Same := by
  obtain ⟨f, f', hf, hf', hinit, L, site, name, params, body, hL, hhead, hdecl, hdecl', hgaps,
    hbody⟩ := hv
  have hstart : f.declaration.parameters = .ok params := by rw [hdecl]; rfl
  have hstart' : f'.declaration.parameters = .ok params := by rw [hdecl']; rfl
  rcases hpresent : (params.zip values).any fun e => e.1.isMissing with _ | _
  · have hleft := call_function mode depth hf hstart hpresent
    have hright := call_function mode depth hf' hstart' hpresent
    rw [hinit, hdecl'] at hright
    rw [hdecl] at hleft
    have hpadded := hp.store.newEnvironment (parameterBindings params values) f.environment
      f'.environment fun x v hv => hvalues v (parameterBindings_get? hv).2
    have hq := hp.reaches hpadded (onward_newEnvironment ..)
    refine .after hleft hright hq ?_
    refine (sims_catchReturn ?_).bind fun v w r hr hv => ?_
    · have hinside := hq.agrees.inside p.left.store.environments.size
        p.right.store.environments.size
      exact (IH.statements hinside (hL.newEnvironment hp.store rfl rfl) ⟨hbody, hgaps⟩).bind
        fun _ _ r hr _ => sims_pure hr.agrees ⟨rfl, trivial⟩
    · split
      · have hstands : (r.inside f.environment f'.environment).Stands L :=
          hL.onward hp.store (hq.trans hr).onward
        have hget := sims_getAt 0 "this" (hr.agrees.inside _ _) hstands
        rw [hops_zero (L := L) hhead] at hget
        exact sims_within hget fun _ _ _ hw => hw.2
      · exact sims_pure hr.agrees hv
  · have hfault : ∀ {m : Machine} {g : Closure}, m.store.closure? id = some g →
        g.declaration.parameters = .ok params →
        Eval.call mode (depth + 1) (.function id) values m = .error (.fault .noMember) m := by
      intro m g hg hparams
      have hok : Eval.ofExcept (g.declaration.parameters.mapError .fault) m = .ok params m := by
        rw [hparams]
        rfl
      refine (bind_ok (c := get) rfl).trans ?_
      rw [hg]
      exact (bind_ok hok).trans (bind_error (parameterTable_missing hpresent m))
    exact sims_of_fault (hfault hf hstart) (hfault hf' hstart') hp

theorem Simulates.callClass {cls : Nat} {values : List Value} (hp : p.Agrees)
    (hvalues : ∀ a ∈ values, p.Shares a) :
    Sims (Eval.call mode (depth + 1) (.cls cls) values)
      (Eval.call mode (depth + 1) (.cls cls) values) p Same := by
  refine (sims_newInstance hp cls).bind fun id id' q hq hid => ?_
  subst hid
  refine sims_get hq.agrees _ _ ?_
  rcases hq.agrees.store.method? cls "init" with ⟨hf, hf'⟩ | ⟨f, f', hf, hf', hmatches⟩ <;>
    rw [hf, hf']
  · exact sims_pure hq.agrees ⟨rfl, trivial⟩
  · refine (sims_bind hq.agrees hmatches (show q.Shares (.inst id') from trivial)).bind
      fun bound bound' r hr hbound => ?_
    obtain ⟨hsame, hbound⟩ := hbound
    rw [hsame]
    refine (IH.call hr.agrees hbound fun a ha => ?_).bind fun _ _ t ht _ =>
      sims_pure ht.agrees ⟨rfl, trivial⟩
    exact (hvalues a ha).reaches hp (hq.trans hr)

theorem Simulates.callValue {v : Value} {values : List Value} (hp : p.Agrees)
    (hv : p.Shares v) (hvalues : ∀ a ∈ values, p.Shares a) :
    Sims (Eval.call mode (depth + 1) v values) (Eval.call mode (depth + 1) v values) p Same := by
  cases v with
  | function id => exact IH.callFunction hp hv hvalues
  | cls id => exact IH.callClass hp hvalues
  | native id =>
    refine sims_get hp _ _ ?_
    rw [show p.right.store.native? id = p.left.store.native? id by
      simp only [Store.native?, hp.store.natives]]
    rcases p.left.store.native? id with _ | n
    · exact sims_fault hp
    · exact sims_callNative hp n values
  | _ => exact sims_fault hp

theorem Simulates.callNode {callee : Node} {paren : Token} {arguments : List Node}
    (hp : p.Agrees) (hL : p.Stands L) (hn : Placed L site (.call callee paren arguments)) :
    Sims (eval mode (depth + 1) ((Node.call callee paren arguments).shift (hops L)))
      (eval mode (depth + 1) (.call callee paren arguments)) p Same := by
  obtain ⟨-, hcallee, harguments⟩ := hn.shifted
  refine (IH.node hp hL (placed_part hn.gaps hcallee)).bind fun v w q hq hv => ?_
  obtain ⟨rfl, hv⟩ := hv
  refine (IH.each hq.agrees (hL.reaches hp hq) hn.gaps harguments).bind
    fun values values' r hr hvalues => ?_
  obtain ⟨rfl, hvalues⟩ := hvalues
  have hv := hv.reaches hq.agrees hr
  refine sims_get hr.agrees _ _ ?_
  rw [hr.agrees.store.arity?_eq hv]
  rcases r.left.store.arity? w with f | _ | arity <;> simp only
  · exact sims_fault hr.agrees
  · exact sims_fail hr.agrees
  · split
    · exact (sims_fail (P := fun _ _ _ => False) hr.agrees).bind fun _ _ _ _ h => h.elim
    · exact IH.call hr.agrees hv hvalues

theorem Simulates.conditional {condition thenBranch : Node} {elseBranch : Option Node}
    (hp : p.Agrees) (hL : p.Stands L)
    (hn : Placed L site (.conditional condition thenBranch elseBranch)) :
    Sims (eval mode (depth + 1) ((Node.conditional condition thenBranch elseBranch).shift (hops L)))
      (eval mode (depth + 1) (.conditional condition thenBranch elseBranch)) p Same := by
  obtain ⟨hcondition, hthen, helse⟩ := hn.shifted
  refine (IH.node hp hL (placed_part hn.gaps hcondition)).bind fun v w q hq hv => ?_
  obtain ⟨rfl, -⟩ := hv
  have hL := hL.reaches hp hq
  split
  · exact (IH.node hq.agrees hL (placed_part hn.gaps hthen)).bind fun _ _ r hr _ =>
      sims_pure hr.agrees ⟨rfl, trivial⟩
  · cases elseBranch with
    | none => exact sims_pure hq.agrees ⟨rfl, trivial⟩
    | some branch =>
      exact (IH.node hq.agrees hL (placed_part hn.gaps helse)).bind fun _ _ r hr _ =>
        sims_pure hr.agrees ⟨rfl, trivial⟩

theorem Simulates.block {statements : List Node} (hp : p.Agrees) (hL : p.Stands L)
    (hn : Placed L site (.block statements)) :
    Sims (eval mode (depth + 1) ((Node.block statements).shift (hops L)))
      (eval mode (depth + 1) (.block statements)) p Same := by
  rw [Node.shift, liftHops_hops]
  refine sims_get hp _ _ ((sims_newEnvironment hp hL (by simp)).bind fun env env' q hq hinner => ?_)
  have hbody := IH.statements (hq.agrees.inside env env') hinner hn.block
  exact (sims_within (Q := fun _ _ _ => True) hbody fun _ _ _ _ => trivial).bind
    fun _ _ r hr _ => sims_pure hr.agrees ⟨rfl, trivial⟩

theorem Simulates.classDecl {name : Token} {parent : Option Node} {methods : List Node}
    (hp : p.Agrees) (hL : p.Stands L) (hn : Placed L site (.classDecl name parent methods)) :
    Sims (eval mode (depth + 1) ((Node.classDecl name parent methods).shift (hops L)))
      (eval mode (depth + 1) (.classDecl name parent methods)) p Same := by
  have hhead := hn.head_ne rfl
  have hgaps := hn.gaps.bind hhead name.lexeme
  have hshifted := hn.shifted
  cases parent with
  | none =>
    simp only [Node.shift, Node.Scoped, liftHops_hops] at hshifted ⊢
    have hinner : Gaps (false :: L) ((site.declare name.lexeme).methods none).scopes :=
      hgaps.cons _
    exact (sims_declareClass none hp hL hhead hinner hshifted.2).bind fun _ _ q hq _ =>
      sims_pure hq.agrees ⟨rfl, trivial⟩
  | some parent =>
    simp only [Node.shift, Node.Scoped, liftHops_hops] at hshifted ⊢
    obtain ⟨-, ⟨hdeclared, -, hparent⟩, hmethods⟩ := hshifted
    refine (IH.node hp hL (placed_part hn.gaps ⟨hdeclared, hparent⟩)).bind fun v w q hq hv => ?_
    obtain ⟨rfl, -⟩ := hv
    refine (sims_superclass (hops L) parent w hq.agrees).bind fun id id' t _ hid => ?_
    obtain ⟨rfl, rfl⟩ := hid
    have hinner : Gaps (false :: false :: L)
        ((site.declare name.lexeme).methods (some (parent.shift (hops L)))).scopes :=
      (hgaps.cons _).cons _
    exact (sims_declareClass (some id') hq.agrees (hL.reaches hp hq) hhead hinner hmethods).bind
      fun _ _ q hq _ => sims_pure hq.agrees ⟨rfl, trivial⟩

theorem Simulates.setProperty {object value : Node} {name : Token} (hp : p.Agrees)
    (hL : p.Stands L) (hn : Placed L site (.setProperty object name value)) :
    Sims (eval mode (depth + 1) ((Node.setProperty object name value).shift (hops L)))
      (eval mode (depth + 1) (.setProperty object name value)) p Same := by
  obtain ⟨-, hobject, hvalue⟩ := hn.shifted
  refine (IH.node hp hL (placed_part hn.gaps hobject)).bind fun v w q hq hv => ?_
  obtain ⟨rfl, -⟩ := hv
  cases w with
  | inst id =>
    refine (IH.node hq.agrees (hL.reaches hp hq) (placed_part hn.gaps hvalue)).bind
      fun u u' r hr hu => ?_
    obtain ⟨rfl, hu⟩ := hu
    exact (sims_setProperty id name hr.agrees hu).bind fun _ _ t ht _ =>
      sims_pure ht.agrees ⟨rfl, hu.reaches hr.agrees ht⟩
  | _ => exact sims_fail hq.agrees

theorem Simulates.print {value : Node} (hp : p.Agrees) (hL : p.Stands L)
    (hn : Placed L site (.print value)) :
    Sims (eval mode (depth + 1) ((Node.print value).shift (hops L)))
      (eval mode (depth + 1) (.print value)) p Same := by
  refine (IH.node hp hL (placed_part hn.gaps hn.shifted)).bind fun v w q hq hv => ?_
  obtain ⟨rfl, hv⟩ := hv
  rw [checkInitialized_shift]
  refine (sims_checkInitialized value w hq.agrees).bind fun _ _ r _ heq => ?_
  subst heq
  refine sims_get hq.agrees _ _ ?_
  rw [hq.agrees.store.stringify_eq hv]
  exact (sims_print hq.agrees _).bind fun _ _ t ht _ => sims_pure ht.agrees ⟨rfl, trivial⟩

theorem Simulates.varDecl {name : Token} {initializer : Option Node} (hp : p.Agrees)
    (hL : p.Stands L) (hn : Placed L site (.varDecl name initializer)) :
    Sims (eval mode (depth + 1) ((Node.varDecl name initializer).shift (hops L)))
      (eval mode (depth + 1) (.varDecl name initializer)) p Same := by
  have hhead := hn.head_ne rfl
  cases initializer with
  | none =>
    exact (sims_define name hp hL hhead (show p.Shares .nil from trivial)).bind fun _ _ q hq _ =>
      sims_pure hq.agrees ⟨rfl, trivial⟩
  | some value =>
    have hgaps : Gaps L (site.initializer name.lexeme).scopes := by
      rw [Site.scopes_initializer]
      exact hn.gaps
    refine (IH.node hp hL (placed_part hgaps hn.shifted.2)).bind fun v w q hq hv => ?_
    obtain ⟨rfl, hv⟩ := hv
    exact (sims_define name hq.agrees (hL.reaches hp hq) hhead hv).bind fun _ _ r hr _ =>
      sims_pure hr.agrees ⟨rfl, trivial⟩

theorem Simulates.nodeStep (hmode : mode.byDistance = true) {n : Node} (hp : p.Agrees)
    (hL : p.Stands L) (hn : Placed L site n) :
    Sims (eval mode (depth + 1) (n.shift (hops L))) (eval mode (depth + 1) n) p Same := by
  have hshifted := hn.shifted
  have hpart : ∀ {m : Node}, (m.shift (hops L)).declared? = none ∧
      (m.shift (hops L)).Scoped site → Placed L site m := placed_part hn.gaps
  cases n with
  | literal value => exact sims_pure hp ⟨rfl, by cases value <;> trivial⟩
  | group inner => exact IH.node hp hL (hpart hshifted)
  | ident r => exact sims_lookup hmode r hp hL
  | receiver r => exact sims_lookup hmode r hp hL
  | superMethod keyword method => exact sims_superMethod hmode hp hL hn
  | assign target value =>
    refine (IH.node hp hL (hpart hshifted.2.2)).bind fun v w q hq hv => ?_
    obtain ⟨rfl, hv⟩ := hv
    exact (sims_assign hmode target hq.agrees (hL.reaches hp hq) hv).bind fun _ _ r hr _ =>
      sims_pure hr.agrees ⟨rfl, hv.reaches hq.agrees hr⟩
  | unary operator right =>
    refine (IH.node hp hL (hpart hshifted.2)).bind fun v w q hq hv => ?_
    obtain ⟨rfl, -⟩ := hv
    exact sims_ofExcept hq.agrees (unary_endsPlainly operator w)
  | binary left operator right =>
    refine (IH.node hp hL (hpart hshifted.2.1)).bind fun v w q hq hv => ?_
    obtain ⟨rfl, -⟩ := hv
    refine (IH.node hq.agrees (hL.reaches hp hq) (hpart hshifted.2.2)).bind fun u u' r hr hu => ?_
    obtain ⟨rfl, -⟩ := hu
    exact sims_ofExcept hr.agrees (binary_endsPlainly operator w u')
  | logical left operator right =>
    refine (IH.node hp hL (hpart hshifted.2.1)).bind fun v w q hq hv => ?_
    obtain ⟨rfl, hv⟩ := hv
    refine (sims_checkToken operator hq.agrees).bind fun _ _ r _ heq => ?_
    subst heq
    split
    · exact sims_pure hq.agrees ⟨rfl, hv⟩
    · exact IH.node hq.agrees (hL.reaches hp hq) (hpart hshifted.2.2)
  | call callee paren arguments => exact IH.callNode hp hL hn
  | property object name =>
    refine (IH.node hp hL (hpart hshifted.2)).bind fun v w q hq hv => ?_
    obtain ⟨rfl, -⟩ := hv
    cases w with
    | inst id => exact sims_getProperty id name hq.agrees
    | _ => exact sims_fail hq.agrees
  | setProperty object name value => exact IH.setProperty hp hL hn
  | block statements => exact IH.block hp hL hn
  | classDecl name parent methods => exact IH.classDecl hp hL hn
  | expression value =>
    refine (IH.node hp hL (hpart hshifted)).bind fun v w q hq hv => ?_
    obtain ⟨rfl, -⟩ := hv
    rw [checkInitialized_shift]
    exact (sims_checkInitialized value w hq.agrees).bind fun _ _ r hr _ =>
      sims_pure hr.agrees ⟨rfl, trivial⟩
  | function name params body =>
    exact (sims_declareFunction hp hL hn).bind fun _ _ q hq _ =>
      sims_pure hq.agrees ⟨rfl, trivial⟩
  | conditional condition thenBranch elseBranch => exact IH.conditional hp hL hn
  | print value => exact IH.print hp hL hn
  | returning keyword value =>
    cases value with
    | none => exact sims_throw hp fun v hv => by cases hv; trivial
    | some value =>
      refine (IH.node hp hL (hpart hshifted.2.2)).bind fun v w q hq hv => ?_
      obtain ⟨rfl, hv⟩ := hv
      exact sims_throw hq.agrees fun u hu => by cases hu; exact hv
  | varDecl name initializer => exact IH.varDecl hp hL hn
  | loop condition body =>
    exact (IH.turns hp hL (hpart hshifted.1) (hpart hshifted.2)).bind fun _ _ q hq _ =>
      sims_pure hq.agrees ⟨rfl, trivial⟩
  | misfit m => exact hshifted.elim

end Parts

/-- A shifted tree runs in step with the tree, however deep they may nest. -/
theorem simulates {mode : Mode} (hmode : mode.byDistance = true) (depth : Nat) :
    Simulates mode depth := by
  induction depth with
  | zero =>
    exact ⟨fun hp _ _ => sims_throw hp (by simp), fun hp _ _ => sims_throw hp (by simp)⟩
  | succ depth IH => exact ⟨fun hp hL hn => IH.nodeStep hmode hp hL hn, IH.callValue⟩

end Rules

end Padding

end Lox
