import Mathlib.Tactic
import Lox.Proofs.Alike
import Lox.Proofs.Resolving

/-!
# Trees with other tokens or distances

`Node.map` puts other tokens and other distances into a tree. A tree without its distances
(`Node.unresolvedAll`) is what resolution started from (`resolve_unresolved`): resolution fills in
distances and changes nothing else.

A scoped tree in which every token is replaced by one that is alike is alike as a whole
(`Node.Scoped.like_map`).
-/

namespace Lox

def Reference.map (f : Token → Token) (g : Option Nat → Option Nat) (r : Reference) : Reference :=
  ⟨f r.name, g r.hops⟩

section Map

variable (f : Token → Token) (g : Option Nat → Option Nat)

mutual

/-- The tree with its tokens and distances changed. -/
def Node.map : Node → Node
  | .assign target value => .assign (target.map f g) value.map
  | .binary left operator right => .binary left.map (f operator) right.map
  | .call callee paren arguments => .call callee.map (f paren) (Node.mapAll arguments)
  | .property object name => .property object.map (f name)
  | .group inner => .group inner.map
  | .literal value => .literal value
  | .logical left operator right => .logical left.map (f operator) right.map
  | .setProperty object name value => .setProperty object.map (f name) value.map
  | .superMethod keyword method => .superMethod (keyword.map f g) (f method)
  | .receiver keyword => .receiver (keyword.map f g)
  | .unary operator right => .unary (f operator) right.map
  | .ident name => .ident (name.map f g)
  | .block statements => .block (Node.mapAll statements)
  | .classDecl name superclass methods =>
    .classDecl (f name) (Node.mapOption superclass) (Node.mapAll methods)
  | .expression value => .expression value.map
  | .function name params body => .function (f name) (params.map f) (Node.mapAll body)
  | .conditional condition thenBranch elseBranch =>
    .conditional condition.map thenBranch.map (Node.mapOption elseBranch)
  | .print value => .print value.map
  | .returning keyword value => .returning (f keyword) (Node.mapOption value)
  | .varDecl name initializer => .varDecl (f name) (Node.mapOption initializer)
  | .loop condition body => .loop condition.map body.map
  | .misfit m => .misfit m

def Node.mapAll : List Node → List Node
  | [] => []
  | n :: rest => n.map :: Node.mapAll rest

def Node.mapOption : Option Node → Option Node
  | none => none
  | some n => some n.map

end

end Map

theorem Node.mapAll_eq_map (f : Token → Token) (g : Option Nat → Option Nat) (ns : List Node) :
    Node.mapAll f g ns = ns.map (Node.map f g) := by
  induction ns with
  | nil => rfl
  | cons n rest ih => rw [Node.mapAll, ih, List.map_cons]

@[simp]
theorem Node.length_mapAll (f : Token → Token) (g : Option Nat → Option Nat) (ns : List Node) :
    (Node.mapAll f g ns).length = ns.length := by
  rw [Node.mapAll_eq_map, List.length_map]

theorem Node.mapAll_append (f : Token → Token) (g : Option Nat → Option Nat) (ns rest : List Node) :
    Node.mapAll f g (ns ++ rest) = Node.mapAll f g ns ++ Node.mapAll f g rest := by
  simp only [Node.mapAll_eq_map, List.map_append]

section Tokens

variable (f : Token → Token) (g : Option Nat → Option Nat)

mutual

theorem Node.tokens_map : ∀ n : Node, (n.map f g).tokens = n.tokens.map f
  | .assign _ value | .property value _ | .unary _ value => by
    simp only [Node.map, Node.tokens, Node.tokens_map value, List.map_cons, Reference.map]
  | .group value | .expression value | .print value => by
    simp only [Node.map, Node.tokens, Node.tokens_map value]
  | .binary left _ right | .logical left _ right | .setProperty left _ right => by
    simp only [Node.map, Node.tokens, Node.tokens_map left, Node.tokens_map right, List.map_cons,
      List.map_append]
  | .loop condition body => by
    simp only [Node.map, Node.tokens, Node.tokens_map condition, Node.tokens_map body,
      List.map_append]
  | .call callee _ arguments => by
    simp only [Node.map, Node.tokens, Node.tokens_map callee, Node.tokensAll_map arguments,
      List.map_cons, List.map_append]
  | .literal _ | .superMethod _ _ | .receiver _ | .ident _ | .misfit _ => rfl
  | .block statements => by simp only [Node.map, Node.tokens, Node.tokensAll_map statements]
  | .classDecl _ superclass methods => by
    simp only [Node.map, Node.tokens, Node.tokensOption_map superclass,
      Node.tokensAll_map methods, List.map_cons, List.map_append]
  | .function _ _ body => by
    simp only [Node.map, Node.tokens, Node.tokensAll_map body, List.map_cons, List.map_append]
  | .conditional condition thenBranch elseBranch => by
    simp only [Node.map, Node.tokens, Node.tokens_map condition, Node.tokens_map thenBranch,
      Node.tokensOption_map elseBranch, List.map_append]
  | .returning _ value | .varDecl _ value => by
    simp only [Node.map, Node.tokens, Node.tokensOption_map value, List.map_cons]

theorem Node.tokensAll_map : ∀ ns : List Node,
    Node.tokensAll (Node.mapAll f g ns) = (Node.tokensAll ns).map f
  | [] => rfl
  | n :: rest => by
    simp only [Node.mapAll, Node.tokensAll, Node.tokens_map n, Node.tokensAll_map rest,
      List.map_append]

theorem Node.tokensOption_map : ∀ n : Option Node,
    Node.tokensOption (Node.mapOption f g n) = (Node.tokensOption n).map f
  | none => rfl
  | some n => by simp only [Node.mapOption, Node.tokensOption, Node.tokens_map n]

end

end Tokens

section Nesting

variable (f : Token → Token) (g : Option Nat → Option Nat)

mutual

theorem Node.nesting_map : ∀ n : Node, (n.map f g).nesting = n.nesting
  | .assign _ value | .property value _ | .group value | .unary _ value | .expression value
  | .print value => by simp only [Node.map, Node.nesting, Node.nesting_map value]
  | .binary left _ right | .logical left _ right | .setProperty left _ right
  | .loop left right => by
    simp only [Node.map, Node.nesting, Node.nesting_map left, Node.nesting_map right]
  | .call callee _ arguments => by
    simp only [Node.map, Node.nesting, Node.nesting_map callee, Node.nestingAll_map arguments]
  | .literal _ | .superMethod _ _ | .receiver _ | .ident _ | .misfit _ => rfl
  | .block statements => by simp only [Node.map, Node.nesting, Node.nestingAll_map statements]
  | .classDecl _ superclass methods => by
    simp only [Node.map, Node.nesting, Node.nestingOption_map superclass,
      Node.nestingAll_map methods]
  | .function _ _ body => by simp only [Node.map, Node.nesting, Node.nestingAll_map body]
  | .conditional condition thenBranch elseBranch => by
    simp only [Node.map, Node.nesting, Node.nesting_map condition, Node.nesting_map thenBranch,
      Node.nestingOption_map elseBranch]
  | .returning _ value | .varDecl _ value => by
    simp only [Node.map, Node.nesting, Node.nestingOption_map value]

theorem Node.nestingAll_map : ∀ ns : List Node,
    Node.nestingAll (Node.mapAll f g ns) = Node.nestingAll ns
  | [] => rfl
  | n :: rest => by
    simp only [Node.mapAll, Node.nestingAll, Node.nesting_map n, Node.nestingAll_map rest]

theorem Node.nestingOption_map : ∀ n : Option Node,
    Node.nestingOption (Node.mapOption f g n) = Node.nestingOption n
  | none => rfl
  | some n => by simp only [Node.mapOption, Node.nestingOption, Node.nesting_map n]

end

end Nesting

/-- The trees as they were before resolution. -/
def Node.unresolvedAll (ns : List Node) : List Node := Node.mapAll id (fun _ => none) ns

/-! ## Maps one after the other -/

theorem Reference.map_map (f f' : Token → Token) (g g' : Option Nat → Option Nat) (r : Reference) :
    (r.map f' g').map f g = r.map (f ∘ f') (g ∘ g') := rfl

section Composition

variable (f f' : Token → Token) (g g' : Option Nat → Option Nat)

mutual

theorem Node.map_map : ∀ n : Node, (n.map f' g').map f g = n.map (f ∘ f') (g ∘ g')
  | .assign _ value | .property value _ | .group value | .unary _ value | .expression value
  | .print value => by
    simp only [Node.map, Reference.map_map, Node.map_map value, Function.comp]
  | .binary left _ right | .logical left _ right | .setProperty left _ right
  | .loop left right => by
    simp only [Node.map, Node.map_map left, Node.map_map right, Function.comp]
  | .call callee _ arguments => by
    simp only [Node.map, Node.map_map callee, Node.mapAll_mapAll arguments, Function.comp]
  | .literal _ | .superMethod _ _ | .receiver _ | .ident _ | .misfit _ => rfl
  | .block statements => by simp only [Node.map, Node.mapAll_mapAll statements]
  | .classDecl _ superclass methods => by
    simp only [Node.map, Node.mapOption_mapOption superclass, Node.mapAll_mapAll methods,
      Function.comp]
  | .function _ _ body => by
    simp only [Node.map, List.map_map, Node.mapAll_mapAll body, Function.comp]
  | .conditional condition thenBranch elseBranch => by
    simp only [Node.map, Node.map_map condition, Node.map_map thenBranch,
      Node.mapOption_mapOption elseBranch]
  | .returning _ value | .varDecl _ value => by
    simp only [Node.map, Node.mapOption_mapOption value, Function.comp]

theorem Node.mapAll_mapAll : ∀ ns : List Node,
    Node.mapAll f g (Node.mapAll f' g' ns) = Node.mapAll (f ∘ f') (g ∘ g') ns
  | [] => rfl
  | n :: rest => by simp only [Node.mapAll, Node.map_map n, Node.mapAll_mapAll rest]

theorem Node.mapOption_mapOption : ∀ n : Option Node,
    Node.mapOption f g (Node.mapOption f' g' n) = Node.mapOption (f ∘ f') (g ∘ g') n
  | none => rfl
  | some n => by simp only [Node.mapOption, Node.map_map n]

end

end Composition

mutual

theorem Node.map_id : ∀ n : Node, n.map id id = n
  | .assign _ value | .property value _ | .group value | .unary _ value | .expression value
  | .print value => by simp only [Node.map, Reference.map, Node.map_id value, id]
  | .binary left _ right | .logical left _ right | .setProperty left _ right
  | .loop left right => by simp only [Node.map, Node.map_id left, Node.map_id right, id]
  | .call callee _ arguments => by
    simp only [Node.map, Node.map_id callee, Node.mapAll_id arguments, id]
  | .literal _ | .superMethod _ _ | .receiver _ | .ident _ | .misfit _ => rfl
  | .block statements => by simp only [Node.map, Node.mapAll_id statements]
  | .classDecl _ superclass methods => by
    simp only [Node.map, Node.mapOption_id superclass, Node.mapAll_id methods, id]
  | .function _ _ body => by simp only [Node.map, List.map_id, Node.mapAll_id body, id]
  | .conditional condition thenBranch elseBranch => by
    simp only [Node.map, Node.map_id condition, Node.map_id thenBranch,
      Node.mapOption_id elseBranch]
  | .returning _ value | .varDecl _ value => by simp only [Node.map, Node.mapOption_id value, id]

theorem Node.mapAll_id : ∀ ns : List Node, Node.mapAll id id ns = ns
  | [] => rfl
  | n :: rest => by simp only [Node.mapAll, Node.map_id n, Node.mapAll_id rest]

theorem Node.mapOption_id : ∀ n : Option Node, Node.mapOption id id n = n
  | none => rfl
  | some n => by simp only [Node.mapOption, Node.map_id n]

end

section Fits

variable {ok : Token → Prop}

theorem Reference.IsFresh.map_eq {kind : TokenKind} {r : Reference} (h : r.IsFresh ok kind) :
    r.map id (fun _ => none) = r := by
  obtain ⟨name, hops⟩ := r
  obtain ⟨-, rfl⟩ := h
  rfl

mutual

/-- The tokens of a parsed tree are among the tokens of interest. -/
theorem Node.Fits.tokens : ∀ {n : Node} {role : Role}, n.Fits ok role → ∀ t ∈ n.tokens, ok t
  | .assign _ _, _, hn => List.forall_mem_cons.2 ⟨hn.2.1.1.1, hn.2.2.tokens⟩
  | .property _ _, _, hn | .unary _ _, _, hn => List.forall_mem_cons.2 ⟨hn.2.1.1, hn.2.2.tokens⟩
  | .binary _ _ _, _, hn | .logical _ _ _, _, hn | .setProperty _ _ _, _, hn =>
    List.forall_mem_append.2
      ⟨List.forall_mem_cons.2 ⟨hn.2.1.1, hn.2.2.1.tokens⟩, hn.2.2.2.tokens⟩
  | .call _ _ _, _, hn => List.forall_mem_append.2
      ⟨List.forall_mem_cons.2 ⟨hn.2.1.1, hn.2.2.1.tokens⟩, Node.FitAll.tokens hn.2.2.2⟩
  | .group _, _, hn | .expression _, _, hn | .print _, _, hn => hn.2.tokens
  | .literal _, _, _ => List.forall_mem_nil _
  | .superMethod _ _, _, hn =>
    List.forall_mem_cons.2 ⟨hn.2.1.1.1, List.forall_mem_singleton.2 hn.2.2.1⟩
  | .receiver _, _, hn | .ident _, _, hn => List.forall_mem_singleton.2 hn.2.1.1
  | .block _, _, hn => Node.FitAll.tokens hn.2
  | .classDecl _ superclass _, _, hn => by
    refine List.forall_mem_append.2
      ⟨List.forall_mem_cons.2 ⟨hn.2.1.1, ?_⟩, Node.FitAll.tokens hn.2.2.2⟩
    cases superclass with
    | none => exact List.forall_mem_nil _
    | some parent =>
      obtain ⟨r, rfl, hr⟩ := Resolver.eq_ident_of_fitsSuperclass hn.2.2.1
      exact List.forall_mem_singleton.2 hr.1.1
  | .function _ _ _, _, hn => List.forall_mem_append.2
      ⟨List.forall_mem_cons.2 ⟨hn.2.1.1, fun t ht => (hn.2.2.1 t ht).1⟩,
        Node.FitAll.tokens hn.2.2.2⟩
  | .conditional _ _ _, _, hn => List.forall_mem_append.2
      ⟨List.forall_mem_append.2 ⟨hn.2.1.tokens, hn.2.2.1.tokens⟩, Node.FitsOption.tokens hn.2.2.2⟩
  | .returning _ _, _, hn | .varDecl _ _, _, hn =>
    List.forall_mem_cons.2 ⟨hn.2.1.1, Node.FitsOption.tokens hn.2.2⟩
  | .loop _ _, _, hn => List.forall_mem_append.2 ⟨hn.2.1.tokens, hn.2.2.tokens⟩

theorem Node.FitAll.tokens : ∀ {ns : List Node} {role : Role}, Node.FitAll ok role ns →
    ∀ t ∈ Node.tokensAll ns, ok t
  | [], _, _, t, ht => absurd ht List.not_mem_nil
  | n :: rest, _, hns, t, ht => by
    rcases List.mem_append.1 ht with ht | ht
    · exact hns.1.tokens t ht
    · exact Node.FitAll.tokens hns.2 t ht

theorem Node.FitsOption.tokens : ∀ {n : Option Node} {role : Role}, Node.FitsOption ok role n →
    ∀ t ∈ Node.tokensOption n, ok t
  | none, _, _, _, ht => absurd ht List.not_mem_nil
  | some _, _, hn, _, ht => Node.Fits.tokens hn _ ht

end

/-! ## What resolution changes -/

namespace Resolver

variable {α β : Type}

/-- Whatever it starts from, the resolver gives such a value. -/
def Gives (r : Resolver α) (Q : α → Prop) : Prop := ∀ s, Q (r s).value

theorem gives_pure {a : α} {Q : α → Prop} (h : Q a) : Gives (Pure.pure a) Q := fun _ => h

theorem Gives.bind {r : Resolver α} {f : α → Resolver β} {P : α → Prop} {Q : β → Prop}
    (hr : Gives r P) (hf : ∀ a, P a → Gives (f a) Q) : Gives (r >>= f) Q :=
  fun s => hf _ (hr s) _

theorem gives_some (r : Resolver α) : Gives r fun _ => True := fun _ => trivial

/-- What is resolved inside a scope, a function or a class has the same value outside of it. -/
theorem Gives.withScope {r : Resolver α} {Q : α → Prop} (h : Gives r Q) (scope : Scope) :
    Gives (withScope scope r) Q := fun _ => h _

theorem Gives.withFunction {r : Resolver α} {Q : α → Prop} (h : Gives r Q)
    (kind : FunctionContext) : Gives (withFunction kind r) Q := fun _ => h _

theorem Gives.withClass {r : Resolver α} {Q : α → Prop} (h : Gives r Q) (kind : ClassContext) :
    Gives (withClass kind r) Q := fun _ => h _

theorem gives_locate {kind : TokenKind} {r : Reference} (hr : r.IsFresh ok kind) :
    Gives (locate r) fun r' => r'.map id (fun _ => none) = r := by
  refine (gives_some _).bind fun _ _ => (gives_some _).bind fun s _ => ?_
  split
  · exact gives_pure hr.map_eq
  · exact gives_pure hr.map_eq

theorem gives_read {kind : TokenKind} {r : Reference} (hr : r.IsFresh ok kind) :
    Gives (read r) fun r' => r'.map id (fun _ => none) = r := by
  refine (gives_some _).bind fun s _ => ?_
  split
  · refine (gives_some _).bind fun _ _ => (gives_locate hr).bind fun found hfound => ?_
    split
    · exact gives_pure hfound
    · exact (gives_some _).bind fun _ _ => gives_pure hfound
  · refine (gives_locate hr).bind fun found hfound => ?_
    split
    · exact gives_pure hfound
    · exact (gives_some _).bind fun _ _ => gives_pure hfound

theorem name_read {kind : TokenKind} {r : Reference} (hr : r.IsFresh ok kind) (s : Surroundings) :
    (read r s).value.name = r.name := by
  have hread : (read r s).value.map id (fun _ => none) = r := gives_read hr s
  nth_rw 2 [← hread]
  rfl

mutual

theorem node_unresolved : ∀ {n : Node} {role : Role}, n.Fits ok role →
    Gives (node n) fun n' => n'.map id (fun _ => none) = n
  | .assign target value, _, hn =>
    (node_unresolved hn.2.2).bind fun _ hvalue => (gives_locate hn.2.1).bind fun _ htarget =>
      gives_pure (congrArg₂ Node.assign htarget hvalue)
  | .binary left operator right, _, hn =>
    (node_unresolved hn.2.2.1).bind fun _ hleft => (node_unresolved hn.2.2.2).bind fun _ hright =>
      gives_pure (congrArg₂ (Node.binary · operator ·) hleft hright)
  | .call callee paren values, _, hn =>
    (node_unresolved hn.2.2.1).bind fun _ hcallee =>
      (arguments_unresolved hn.2.2.2).bind fun _ hvalues =>
        gives_pure (congrArg₂ (Node.call · paren ·) hcallee hvalues)
  | .property object name, _, hn =>
    (node_unresolved hn.2.2).bind fun _ hobject =>
      gives_pure (congrArg (Node.property · name) hobject)
  | .group inner, _, hn =>
    (node_unresolved hn.2).bind fun _ hinner => gives_pure (congrArg Node.group hinner)
  | .literal _, _, _ => gives_pure rfl
  | .logical left operator right, _, hn =>
    (node_unresolved hn.2.2.1).bind fun _ hleft => (node_unresolved hn.2.2.2).bind fun _ hright =>
      gives_pure (congrArg₂ (Node.logical · operator ·) hleft hright)
  | .setProperty object name value, _, hn =>
    (node_unresolved hn.2.2.2).bind fun _ hvalue => (node_unresolved hn.2.2.1).bind fun _ hobject =>
      gives_pure (congrArg₂ (Node.setProperty · name ·) hobject hvalue)
  | .superMethod keyword method, _, hn =>
    (gives_some _).bind fun _ _ => (gives_locate hn.2.1).bind fun _ hkeyword =>
      gives_pure (congrArg (Node.superMethod · method) hkeyword)
  | .receiver keyword, _, hn => by
    refine (gives_some _).bind fun s _ => ?_
    split
    · exact (gives_some _).bind fun _ _ => gives_pure (congrArg Node.receiver hn.2.map_eq)
    · exact (gives_locate hn.2).bind fun _ hkeyword =>
        gives_pure (congrArg Node.receiver hkeyword)
  | .unary operator right, _, hn =>
    (node_unresolved hn.2.2).bind fun _ hright => gives_pure (congrArg (Node.unary operator) hright)
  | .ident name, _, hn =>
    (gives_read hn.2).bind fun _ hname => gives_pure (congrArg Node.ident hname)
  | .block statements, _, hn =>
    ((nodes_unresolved hn.2).withScope _).bind fun _ hstatements =>
      gives_pure (congrArg Node.block hstatements)
  | .classDecl name none declarations, _, hn =>
    (gives_some _).bind fun _ _ => (gives_some _).bind fun _ _ =>
      (((methods_unresolved hn.2.2.2).withScope _).withClass _).bind fun _ hmethods =>
        gives_pure (congrArg (Node.classDecl name none) hmethods)
  | .classDecl name (some parent) declarations, _, hn => by
    obtain ⟨r, rfl, hr⟩ := eq_ident_of_fitsSuperclass hn.2.2.1
    refine (gives_some _).bind fun _ _ => (gives_some _).bind fun _ _ =>
      (gives_some _).bind fun _ _ => Gives.withClass (Gives.bind (P := fun n =>
        n.map id (fun _ => none) = .ident r) ?_ fun parent hparent => ?_) _
    · exact (gives_read hr).bind fun _ hname => gives_pure (congrArg Node.ident hname)
    · exact (((methods_unresolved hn.2.2.2).withScope _).withScope _).bind fun _ hmethods =>
        gives_pure (congrArg₂ (Node.classDecl name) (congrArg some hparent) hmethods)
  | .expression value, _, hn =>
    (node_unresolved hn.2).bind fun _ hvalue => gives_pure (congrArg Node.expression hvalue)
  | .function name params body, _, hn =>
    (gives_some _).bind fun _ _ => (gives_some _).bind fun _ _ =>
      ((((gives_some _).bind fun _ _ => nodes_unresolved hn.2.2.2).withScope _).withFunction _).bind
        fun _ hbody => gives_pure (congrArg₂ (Node.function name) (List.map_id params) hbody)
  | .conditional condition thenBranch elseBranch, _, hn => by
    refine (node_unresolved hn.2.1).bind fun condition' hcondition =>
      (node_unresolved hn.2.2.1).bind fun then' hthen =>
        (option_unresolved hn.2.2.2).bind fun else' helse => gives_pure ?_
    simp only [Node.map, hcondition, hthen, helse]
  | .print value, _, hn =>
    (node_unresolved hn.2).bind fun _ hvalue => gives_pure (congrArg Node.print hvalue)
  | .returning keyword value, _, hn => by
    have hvalue : Gives (do return Node.returning keyword (← nodeOption value)) fun n' =>
        n'.map id (fun _ => none) = .returning keyword value :=
      (option_unresolved hn.2.2).bind fun _ hvalue =>
        gives_pure (congrArg (Node.returning keyword) hvalue)
    refine (gives_some _).bind fun s _ => ?_
    dsimp only
    split
    · refine (gives_some _).bind fun _ _ => ?_
      split
      · exact (gives_some _).bind fun _ _ => hvalue
      · exact hvalue
    · split
      · exact (gives_some _).bind fun _ _ => hvalue
      · exact hvalue
  | .varDecl name initializer, _, hn =>
    (gives_some _).bind fun _ _ => (option_unresolved hn.2.2).bind fun _ hinitializer =>
      (gives_some _).bind fun _ _ => (gives_some _).bind fun _ _ =>
        gives_pure (congrArg (Node.varDecl name) hinitializer)
  | .loop condition body, _, hn =>
    (node_unresolved hn.2.1).bind fun _ hcondition => (node_unresolved hn.2.2).bind fun _ hbody =>
      gives_pure (congrArg₂ Node.loop hcondition hbody)
  | .misfit _, _, hn => hn.elim

theorem option_unresolved : ∀ {n : Option Node} {role : Role}, Node.FitsOption ok role n →
    Gives (nodeOption n) fun n' => Node.mapOption id (fun _ => none) n' = n
  | none, _, _ => gives_pure rfl
  | some _, _, hn => (node_unresolved hn).bind fun _ hn' => gives_pure (congrArg some hn')

theorem arguments_unresolved : ∀ {ns : List Node} {role : Role}, Node.FitAll ok role ns →
    Gives (arguments ns) fun ns' => Node.mapAll id (fun _ => none) ns' = ns
  | [], _, _ => gives_pure rfl
  | n :: rest, _, hns => by
    rw [arguments_cons hns.1]
    exact (node_unresolved hns.1).bind fun _ hn => (arguments_unresolved hns.2).bind
      fun _ hrest => gives_pure (congrArg₂ List.cons hn hrest)

theorem nodes_unresolved : ∀ {ns : List Node} {role : Role}, Node.FitAll ok role ns →
    Gives (nodes ns) fun ns' => Node.mapAll id (fun _ => none) ns' = ns
  | [], _, _ => gives_pure rfl
  | n :: rest, _, hns => by
    rw [nodes_cons hns.1]
    exact (node_unresolved hns.1).bind fun _ hn => (nodes_unresolved hns.2).bind
      fun _ hrest => gives_pure (congrArg₂ List.cons hn hrest)

theorem methods_unresolved : ∀ {ns : List Node}, Node.FitAll ok .method ns →
    Gives (methods ns) fun ns' => Node.mapAll id (fun _ => none) ns' = ns
  | [], _ => gives_pure rfl
  | n :: rest, hns => by
    cases n with
    | function name params body =>
      have hrest : Gives (do
          let body ← withFunction (methodContext name) (withScope {} do
            parameters params
            nodes body)
          return .function name params body :: (← methods rest)) fun ns' =>
          Node.mapAll id (fun _ => none) ns' = .function name params body :: rest :=
        ((((gives_some _).bind fun _ _ => nodes_unresolved hns.1.2.2.2).withScope _).withFunction
          _).bind fun _ hbody => (methods_unresolved hns.2).bind fun _ hrest => gives_pure
            (congrArg₂ List.cons (congrArg₂ (Node.function name) (List.map_id params) hbody) hrest)
      rw [methods]
      split
      · exact (gives_some _).bind fun _ _ => hrest
      · exact hrest
    | _ => simp [Node.FitAll, Node.Fits, Role.IsStatement] at hns

end

end Resolver

/-- Resolution fills in distances and changes nothing else. -/
theorem resolve_unresolved {ns : List Node} (hns : Node.FitAll ok .declaration ns) :
    Node.unresolvedAll (resolve ns).1 = ns := Resolver.nodes_unresolved hns {}

theorem tokens_resolve {ns : List Node} (hns : Node.FitAll ok .declaration ns) :
    ∀ t ∈ Node.tokensAll (resolve ns).1, ok t := by
  have htokens := congrArg Node.tokensAll (resolve_unresolved hns)
  rw [Node.unresolvedAll, Node.tokensAll_map, List.map_id] at htokens
  rw [htokens]
  exact hns.tokens

end Fits

/-! ## Trees without marks -/

section Same

variable {c : Change} {f : Token → Token} {L : List Bool} (hL : ∀ b ∈ L, b = false)

include hL

theorem Change.refers_map {r : Reference} (h : c.Alike r.name (f r.name)) :
    c.Refers L r (r.map f id) := by
  refine ⟨rfl, ?_⟩
  rw [Change.mark_eq_false hL]
  exact Change.named_of_alike h

theorem Change.kept_map {t : Token} (h : c.Alike t (f t)) : c.Kept (L.headD false) t (f t) := by
  rw [Change.headD_eq_false hL]
  exact ⟨h, nofun, nofun⟩

theorem Change.marks_cons : ∀ b ∈ false :: L, b = false := by
  intro b hb
  rcases List.mem_cons.1 hb with rfl | hb
  · rfl
  · exact hL b hb

end Same

theorem Change.params_map {c : Change} {f : Token → Token} {params : List Token}
    (h : ∀ t ∈ params, c.Alike t (f t)) : params.Forall₂ (c.Named false) (params.map f) := by
  induction params with
  | nil => exact .nil
  | cons t rest ih =>
    exact .cons (named_of_alike (h t List.mem_cons_self))
      (ih fun t ht => h t (List.mem_cons_of_mem _ ht))

/-- What holds of all tokens of a whole holds of those of a part. -/
theorem Token.forall_part {P : Token → Prop} {part whole : List Token} (h : ∀ t ∈ whole, P t)
    (hpart : part ⊆ whole) : ∀ t ∈ part, P t :=
  fun t ht => h t (hpart ht)

mutual

/-- A scoped tree is alike to itself with other tokens, if they are alike. -/
theorem Node.Scoped.like_map {c : Change} {f : Token → Token} : ∀ {n : Node} {site : Site}
    {L : List Bool}, n.Scoped site → (∀ b ∈ L, b = false) → (∀ t ∈ n.tokens, c.Alike t (f t)) →
    n.Like c L (n.map f id)
  | .assign target value, _, _, hn, hL, ht =>
    ⟨_, _, rfl, c.refers_map hL (ht _ (by simp [Node.tokens])),
      hn.2.2.2.like_map hL (Token.forall_part ht (by simp [Node.tokens]))⟩
  | .binary left operator right, _, _, hn, hL, ht =>
    ⟨_, _, _, rfl, ht _ (by simp [Node.tokens]),
      hn.2.1.2.like_map hL (Token.forall_part ht (by simp [Node.tokens])),
      hn.2.2.2.like_map hL (Token.forall_part ht (by simp [Node.tokens]))⟩
  | .call callee paren arguments, _, _, hn, hL, ht =>
    ⟨_, _, _, rfl, ht _ (by simp [Node.tokens]),
      hn.2.1.2.like_map hL (Token.forall_part ht (by simp [Node.tokens])),
      Node.ScopedEach.like_map hn.2.2 hL (Token.forall_part ht (by simp [Node.tokens]))⟩
  | .property object name, _, _, hn, hL, ht =>
    ⟨_, _, rfl, ht _ (by simp [Node.tokens]),
      hn.2.2.like_map hL (Token.forall_part ht (by simp [Node.tokens]))⟩
  | .group inner, _, _, hn, hL, ht => ⟨_, rfl, hn.2.like_map hL ht⟩
  | .literal _, _, _, _, _, _ => rfl
  | .logical left operator right, _, _, hn, hL, ht =>
    ⟨_, _, _, rfl, ht _ (by simp [Node.tokens]),
      hn.2.1.2.like_map hL (Token.forall_part ht (by simp [Node.tokens])),
      hn.2.2.2.like_map hL (Token.forall_part ht (by simp [Node.tokens]))⟩
  | .setProperty object name value, _, _, hn, hL, ht =>
    ⟨_, _, _, rfl, ht _ (by simp [Node.tokens]),
      hn.2.1.2.like_map hL (Token.forall_part ht (by simp [Node.tokens])),
      hn.2.2.2.like_map hL (Token.forall_part ht (by simp [Node.tokens]))⟩
  | .superMethod keyword method, _, _, _, hL, ht =>
    ⟨_, _, rfl, c.refers_map hL (ht _ (by simp [Node.tokens])),
      ht _ (by simp [Node.tokens])⟩
  | .receiver keyword, _, _, _, hL, ht =>
    ⟨_, rfl, c.refers_map hL (ht _ (by simp [Node.tokens]))⟩
  | .unary operator right, _, _, hn, hL, ht =>
    ⟨_, _, rfl, ht _ (by simp [Node.tokens]),
      hn.2.2.like_map hL (Token.forall_part ht (by simp [Node.tokens]))⟩
  | .ident name, _, _, _, hL, ht => ⟨_, rfl, c.refers_map hL (ht _ (by simp [Node.tokens]))⟩
  | .block statements, _, _, hn, hL, ht =>
    ⟨false, _, rfl, Node.ScopedAll.like_map hn (Change.marks_cons hL) ht⟩
  | .classDecl name none methods, _, _, hn, hL, ht =>
    ⟨_, _, rfl, c.kept_map hL (ht _ (by simp [Node.tokens])),
      Node.ScopedMethods.like_map hn.2 (Change.marks_cons hL)
        (Token.forall_part ht (by simp [Node.tokens]))⟩
  | .classDecl name (some parent) methods, _, _, hn, hL, ht => by
    obtain ⟨-, ⟨-, ⟨_, rfl⟩, -⟩, hmethods⟩ := hn
    exact ⟨_, _, _, _, rfl, rfl, c.kept_map hL (ht _ (by simp [Node.tokens])),
      c.refers_map hL (ht _ (by simp [Node.tokens, Node.tokensOption])),
      Node.ScopedMethods.like_map hmethods (Change.marks_cons (Change.marks_cons hL))
        (Token.forall_part ht (by simp [Node.tokens]))⟩
  | .expression value, _, _, hn, hL, ht => ⟨_, rfl, hn.2.like_map hL ht⟩
  | .function name params body, _, _, hn, hL, ht =>
    ⟨false, _, _, _, rfl, c.kept_map hL (ht _ (by simp [Node.tokens])),
      c.params_map (Token.forall_part ht (by simp [Node.tokens])),
      Node.ScopedAll.like_map hn.2.2 (Change.marks_cons hL)
        (Token.forall_part ht (by simp [Node.tokens]))⟩
  | .conditional condition thenBranch elseBranch, _, _, hn, hL, ht =>
    ⟨_, _, _, rfl,
      hn.1.2.like_map hL (Token.forall_part ht (by simp [Node.tokens])),
      hn.2.1.2.like_map hL (Token.forall_part ht (by simp [Node.tokens])),
      Node.ScopedOption.like_map hn.2.2 hL (Token.forall_part ht (by simp [Node.tokens]))⟩
  | .print value, _, _, hn, hL, ht => ⟨_, rfl, hn.2.like_map hL ht⟩
  | .returning keyword value, _, _, hn, hL, ht =>
    ⟨_, _, rfl, ht _ (by simp [Node.tokens]),
      Node.ScopedOption.like_map hn.2.2 hL (Token.forall_part ht (by simp [Node.tokens]))⟩
  | .varDecl name initializer, _, _, hn, hL, ht =>
    ⟨_, _, rfl, (c.kept_map hL (ht _ (by simp [Node.tokens]))).named,
      Node.ScopedOption.like_map hn.2 hL (Token.forall_part ht (by simp [Node.tokens]))⟩
  | .loop condition body, _, _, hn, hL, ht =>
    ⟨_, _, rfl, hn.1.2.like_map hL (Token.forall_part ht (by simp [Node.tokens])),
      hn.2.2.like_map hL (Token.forall_part ht (by simp [Node.tokens]))⟩
  | .misfit _, _, _, hn, _, _ => hn.elim

theorem Node.ScopedEach.like_map {c : Change} {f : Token → Token} : ∀ {ns : List Node} {site : Site}
    {L : List Bool},
    Node.ScopedEach site ns → (∀ b ∈ L, b = false) → (∀ t ∈ Node.tokensAll ns, c.Alike t (f t)) →
    Node.LikeAll c L ns (Node.mapAll f id ns)
  | [], _, _, _, _, _ => rfl
  | n :: rest, _, _, hns, hL, ht =>
    ⟨_, _, rfl, hns.1.2.like_map hL (Token.forall_part ht (by simp [Node.tokensAll])),
      Node.ScopedEach.like_map hns.2 hL (Token.forall_part ht (by simp [Node.tokensAll]))⟩

theorem Node.ScopedAll.like_map {c : Change} {f : Token → Token} : ∀ {ns : List Node} {site : Site}
    {L : List Bool},
    Node.ScopedAll site ns → (∀ b ∈ L, b = false) → (∀ t ∈ Node.tokensAll ns, c.Alike t (f t)) →
    Node.LikeAll c L ns (Node.mapAll f id ns)
  | [], _, _, _, _, _ => rfl
  | n :: rest, _, _, hns, hL, ht =>
    ⟨_, _, rfl, hns.1.like_map hL (Token.forall_part ht (by simp [Node.tokensAll])),
      Node.ScopedAll.like_map hns.2 hL (Token.forall_part ht (by simp [Node.tokensAll]))⟩

theorem Node.ScopedMethods.like_map {c : Change} {f : Token → Token} : ∀ {ns : List Node}
    {site : Site} {L : List Bool},
    Node.ScopedMethods site ns → (∀ b ∈ L, b = false) →
    (∀ t ∈ Node.tokensAll ns, c.Alike t (f t)) → Node.LikeMethods c L ns (Node.mapAll f id ns)
  | [], _, _, _, _, _ => rfl
  | n :: rest, _, _, hns, hL, ht => by
    cases n with
    | function name params body =>
      exact ⟨false, _, _, _, _, rfl, ht _ (by simp [Node.tokensAll, Node.tokens]),
        c.params_map (Token.forall_part ht (by simp [Node.tokensAll, Node.tokens])),
        Node.ScopedAll.like_map hns.1.2.2 (Change.marks_cons hL)
          (Token.forall_part ht fun t h => by simp [Node.tokensAll, Node.tokens, h]),
        Node.ScopedMethods.like_map hns.2 hL (Token.forall_part ht (by simp [Node.tokensAll]))⟩
    | _ => exact hns.elim

theorem Node.ScopedOption.like_map {c : Change} {f : Token → Token} : ∀ {n : Option Node}
    {site : Site} {L : List Bool},
    Node.ScopedOption site n → (∀ b ∈ L, b = false) →
    (∀ t ∈ Node.tokensOption n, c.Alike t (f t)) → Node.LikeOption c L n (Node.mapOption f id n)
  | none, _, _, _, _, _ => rfl
  | some _, _, _, hn, hL, ht => ⟨_, rfl, hn.2.like_map hL ht⟩

end

end Lox
