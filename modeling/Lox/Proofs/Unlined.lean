import Mathlib.Tactic
import Lox.Proofs.Relabeled

/-!
# Resolution without lines

`unlined` takes the lines out of tokens, and so out of all that has tokens in it. Resolution looks
at the kinds and the texts of tokens only. Of a tree without its lines it makes what it makes of the
tree, without the lines, and complains of the same tokens in the same order (`resolve_unlined`).
This holds of every tree, whatever stands in it in the place of a node.
-/

namespace Lox

/-- The token with its line taken out. -/
def Token.unlined (t : Token) : Token := { t with line := 0 }

def Reference.unlined (r : Reference) : Reference := { r with name := r.name.unlined }

def Complaint.unlined (c : Complaint) : Complaint := { c with token := c.token.unlined }

mutual

/-- The tree with its lines taken out. -/
def Node.unlined : Node → Node
  | .assign target value => .assign target.unlined value.unlined
  | .binary left operator right => .binary left.unlined operator.unlined right.unlined
  | .call callee paren arguments =>
    .call callee.unlined paren.unlined (Node.unlinedAll arguments)
  | .property object name => .property object.unlined name.unlined
  | .group inner => .group inner.unlined
  | .literal value => .literal value
  | .logical left operator right => .logical left.unlined operator.unlined right.unlined
  | .setProperty object name value => .setProperty object.unlined name.unlined value.unlined
  | .superMethod keyword method => .superMethod keyword.unlined method.unlined
  | .receiver keyword => .receiver keyword.unlined
  | .unary operator right => .unary operator.unlined right.unlined
  | .ident name => .ident name.unlined
  | .block statements => .block (Node.unlinedAll statements)
  | .classDecl name superclass methods =>
    .classDecl name.unlined (Node.unlinedOption superclass) (Node.unlinedAll methods)
  | .expression value => .expression value.unlined
  | .function name params body =>
    .function name.unlined (params.map Token.unlined) (Node.unlinedAll body)
  | .conditional condition thenBranch elseBranch =>
    .conditional condition.unlined thenBranch.unlined (Node.unlinedOption elseBranch)
  | .print value => .print value.unlined
  | .returning keyword value => .returning keyword.unlined (Node.unlinedOption value)
  | .varDecl name initializer => .varDecl name.unlined (Node.unlinedOption initializer)
  | .loop condition body => .loop condition.unlined body.unlined
  | .misfit m => .misfit m.unlined

def Misfit.unlined : Misfit → Misfit
  | .token t => .token t.unlined
  | .value v => .value v
  | .list items => .list (Node.unlinedAll items)
  | .unlisted content => .unlisted content.unlined
  | .function name params body =>
    .function name.unlined params.unlined (Node.unlinedAll body)
  | .quoted q => .quoted q

def Node.unlinedAll : List Node → List Node
  | [] => []
  | n :: rest => n.unlined :: Node.unlinedAll rest

def Node.unlinedOption : Option Node → Option Node
  | none => none
  | some n => some n.unlined

end

@[simp]
theorem Token.unlined_kind (t : Token) : t.unlined.kind = t.kind := rfl

@[simp]
theorem Token.unlined_lexeme (t : Token) : t.unlined.lexeme = t.lexeme := rfl

@[simp]
theorem Token.unlined_literal (t : Token) : t.unlined.literal = t.literal := rfl

@[simp]
theorem Token.unlined_isMissing (t : Token) : t.unlined.isMissing = t.isMissing := rfl

@[simp]
theorem Reference.unlined_name (r : Reference) : r.unlined.name = r.name.unlined := rfl

@[simp]
theorem Reference.unlined_hops (r : Reference) : r.unlined.hops = r.hops := rfl

theorem Node.unlinedAll_eq_map (ns : List Node) : Node.unlinedAll ns = ns.map Node.unlined := by
  induction ns with
  | nil => rfl
  | cons n rest ih => rw [Node.unlinedAll, ih, List.map_cons]

/-! ## What does not depend on lines -/

theorem Node.unlined_name? (n : Node) : n.unlined.name? = n.name?.map Token.unlined := by
  cases n with
  | misfit m => cases m <;> rfl
  | _ => rfl

theorem Node.unlined_sort (n : Node) : n.unlined.sort = n.sort := by
  cases n with
  | misfit m => cases m <;> rfl
  | _ => rfl

theorem Node.unlined_body (n : Node) : n.unlined.body = Node.unlinedAll n.body := by
  cases n with
  | misfit m => cases m <;> rfl
  | _ => rfl

theorem Node.unlined_parameters (n : Node) :
    n.unlined.parameters = n.parameters.map (List.map Token.unlined) := by
  cases n with
  | misfit m =>
    cases m with
    | function name params body =>
      simp only [Node.unlined, Misfit.unlined, Node.parameters, Node.unlined_sort, Except.map]
    | _ => rfl
  | _ => rfl

section Nesting

mutual

theorem Node.nesting_unlined : ∀ n : Node, n.unlined.nesting = n.nesting
  | .assign _ value | .property value _ | .group value | .unary _ value | .expression value
  | .print value => by simp only [Node.unlined, Node.nesting, Node.nesting_unlined value]
  | .binary left _ right | .logical left _ right | .setProperty left _ right
  | .loop left right => by
    simp only [Node.unlined, Node.nesting, Node.nesting_unlined left, Node.nesting_unlined right]
  | .call callee _ arguments => by
    simp only [Node.unlined, Node.nesting, Node.nesting_unlined callee,
      Node.nestingAll_unlined arguments]
  | .literal _ | .superMethod _ _ | .receiver _ | .ident _ => rfl
  | .block statements => by
    simp only [Node.unlined, Node.nesting, Node.nestingAll_unlined statements]
  | .classDecl _ superclass methods => by
    simp only [Node.unlined, Node.nesting, Node.nestingOption_unlined superclass,
      Node.nestingAll_unlined methods]
  | .function _ _ body => by simp only [Node.unlined, Node.nesting, Node.nestingAll_unlined body]
  | .conditional condition thenBranch elseBranch => by
    simp only [Node.unlined, Node.nesting, Node.nesting_unlined condition,
      Node.nesting_unlined thenBranch, Node.nestingOption_unlined elseBranch]
  | .returning _ value | .varDecl _ value => by
    simp only [Node.unlined, Node.nesting, Node.nestingOption_unlined value]
  | .misfit m => by simp only [Node.unlined, Node.nesting, Misfit.nesting_unlined m]

theorem Misfit.nesting_unlined : ∀ m : Misfit, m.unlined.nesting = m.nesting
  | .token _ | .value _ | .quoted _ => rfl
  | .list items => by simp only [Misfit.unlined, Misfit.nesting, Node.nestingAll_unlined items]
  | .unlisted content => by simp only [Misfit.unlined, Misfit.nesting, Node.nesting_unlined content]
  | .function _ params body => by
    simp only [Misfit.unlined, Misfit.nesting, Node.nesting_unlined params,
      Node.nestingAll_unlined body]

theorem Node.nestingAll_unlined : ∀ ns : List Node,
    Node.nestingAll (Node.unlinedAll ns) = Node.nestingAll ns
  | [] => rfl
  | n :: rest => by
    simp only [Node.unlinedAll, Node.nestingAll, Node.nesting_unlined n,
      Node.nestingAll_unlined rest]

theorem Node.nestingOption_unlined : ∀ n : Option Node,
    Node.nestingOption (Node.unlinedOption n) = Node.nestingOption n
  | none => rfl
  | some n => by simp only [Node.unlinedOption, Node.nestingOption, Node.nesting_unlined n]

end

end Nesting

section Map

mutual

/-- To take the lines out of the tokens first makes no difference. -/
theorem Node.unlined_map : ∀ n : Node, (n.map Token.unlined id).unlined = n.unlined
  | .assign _ value | .property value _ | .unary _ value => by
    simp only [Node.map, Node.unlined, Node.unlined_map value]
    rfl
  | .group value | .expression value | .print value => by
    simp only [Node.map, Node.unlined, Node.unlined_map value]
  | .binary left _ right | .logical left _ right | .setProperty left _ right => by
    simp only [Node.map, Node.unlined, Node.unlined_map left, Node.unlined_map right]
    rfl
  | .loop condition body => by
    simp only [Node.map, Node.unlined, Node.unlined_map condition, Node.unlined_map body]
  | .call callee _ arguments => by
    simp only [Node.map, Node.unlined, Node.unlined_map callee, Node.unlinedAll_map arguments]
    rfl
  | .literal _ | .superMethod _ _ | .receiver _ | .ident _ | .misfit _ => rfl
  | .block statements => by simp only [Node.map, Node.unlined, Node.unlinedAll_map statements]
  | .classDecl _ superclass methods => by
    simp only [Node.map, Node.unlined, Node.unlinedOption_map superclass,
      Node.unlinedAll_map methods]
    rfl
  | .function _ _ body => by
    simp only [Node.map, Node.unlined, Node.unlinedAll_map body, List.map_map]
    rfl
  | .conditional condition thenBranch elseBranch => by
    simp only [Node.map, Node.unlined, Node.unlined_map condition, Node.unlined_map thenBranch,
      Node.unlinedOption_map elseBranch]
  | .returning _ value | .varDecl _ value => by
    simp only [Node.map, Node.unlined, Node.unlinedOption_map value]
    rfl

theorem Node.unlinedAll_map : ∀ ns : List Node,
    Node.unlinedAll (Node.mapAll Token.unlined id ns) = Node.unlinedAll ns
  | [] => rfl
  | n :: rest => by
    simp only [Node.mapAll, Node.unlinedAll, Node.unlined_map n, Node.unlinedAll_map rest]

theorem Node.unlinedOption_map : ∀ n : Option Node,
    Node.unlinedOption (Node.mapOption Token.unlined id n) = Node.unlinedOption n
  | none => rfl
  | some n => by simp only [Node.mapOption, Node.unlinedOption, Node.unlined_map n]

end

end Map

/-! ## Scopes -/

namespace Table

variable {β γ : Type}

/-- The table with its values replaced. -/
def mapValues (f : β → γ) (t : Table β) : Table γ := ⟨t.entries.map fun e => (e.1, f e.2)⟩

theorem insert_mapValues (f : β → γ) (t : Table β) (name : String) (value : β) :
    (t.mapValues f).insert name (f value) = (t.insert name value).mapValues f := by
  obtain ⟨entries⟩ := t
  unfold insert mapValues
  congr 1
  induction entries with
  | nil => rfl
  | cons entry rest ih =>
    obtain ⟨key, old⟩ := entry
    simp only [List.map_cons, insertEntry] at ih ⊢
    rw [ih]
    split <;> rfl

theorem erase_mapValues (f : β → γ) (t : Table β) (name : String) :
    (t.mapValues f).erase name = (t.erase name).mapValues f := by
  simp only [erase, mapValues, List.filter_map]
  rfl

theorem values_mapValues (f : β → γ) (t : Table β) : (t.mapValues f).values = t.values.map f := by
  simp [values, mapValues]

end Table

def Scope.unlined (scope : Scope) : Scope :=
  { scope with unused := scope.unused.mapValues Token.unlined }

def Surroundings.unlined (s : Surroundings) : Surroundings :=
  { s with scopes := s.scopes.map Scope.unlined }

namespace Resolver

variable {α β σ τ : Type} {g : α → β} {h : σ → τ}

def Reply.unlined (g : α → β) (reply : Reply α) : Reply β where
  value := g reply.value
  surroundings := reply.surroundings.unlined
  complaints := reply.complaints.map Complaint.unlined

/-- Without lines around it the second resolver makes what the first makes, without the lines. -/
def Carries (g : α → β) (r : Resolver α) (r' : Resolver β) : Prop :=
  ∀ s, r' s.unlined = (r s).unlined g

/-! ## Rules -/

theorem carries_pure (a : α) : Carries g (Pure.pure a) (Pure.pure (g a)) := fun _ => rfl

theorem Carries.bind {r : Resolver α} {r' : Resolver β} {k : α → Resolver σ} {k' : β → Resolver τ}
    (hr : Carries g r r') (hk : ∀ a, Carries h (k a) (k' (g a))) :
    Carries h (r >>= k) (r' >>= k') := by
  intro s
  show Resolver.bind r' k' _ = (Resolver.bind r k s).unlined h
  unfold Resolver.bind
  simp only [hr s, Reply.unlined, hk (r s).value (r s).surroundings, List.map_append]

theorem Carries.ite {p q : Prop} [Decidable p] [Decidable q] {r t : Resolver α}
    {r' t' : Resolver β} (hpq : p ↔ q) (hr : Carries g r r') (ht : Carries g t t') :
    Carries g (if p then r else t) (if q then r' else t') := by
  by_cases hp : p
  · rwa [if_pos hp, if_pos (hpq.1 hp)]
  · rwa [if_neg hp, if_neg (mt hpq.2 hp)]

theorem carries_get : Carries Surroundings.unlined get get := fun _ => rfl

theorem carries_modify {f f' : Surroundings → Surroundings}
    (hf : ∀ s, f' s.unlined = (f s).unlined) : Carries id (modify f) (modify f') := by
  intro s
  simp only [modify, hf, Reply.unlined, List.map_nil, id]

theorem carries_halt (fault : Fault) : Carries id (halt fault) (halt fault) :=
  carries_modify fun _ => rfl

/-- What is no list has the same sort without its lines. -/
theorem carries_haltAt (content : Node) (fault : String → Fault) :
    Carries id (halt (fault content.sort)) (halt (fault content.unlined.sort)) := by
  rw [Node.unlined_sort]
  exact carries_halt _

theorem carries_complain (t : Token) (problem : Problem) :
    Carries id (complain t problem) (complain t.unlined problem) := by
  intro s
  have hfault : s.unlined.fault = s.fault := rfl
  unfold complain
  rw [hfault, Token.unlined_isMissing]
  split
  · rfl
  · split
    · exact carries_halt _ s
    · rfl

theorem closing_unlined (s : Surroundings) :
    closing s.unlined = (closing s).map Complaint.unlined := by
  obtain ⟨_ | ⟨scope, rest⟩, inFunction, inClass, _ | fault⟩ := s
  · rfl
  · rfl
  · simp only [closing, Surroundings.unlined, List.map_cons, Scope.unlined, Table.values_mapValues,
      List.map_map]
    rfl
  · rfl

theorem Carries.withScope {r : Resolver α} {r' : Resolver β} (hr : Carries g r r') (scope : Scope) :
    Carries g (withScope scope r) (withScope scope.unlined r') := by
  intro s
  have hinner := hr { s with scopes := scope :: s.scopes }
  have hsurroundings : Surroundings.unlined { s with scopes := scope :: s.scopes } =
      { s.unlined with scopes := scope.unlined :: s.unlined.scopes } := rfl
  rw [hsurroundings] at hinner
  unfold Resolver.withScope
  simp only [hinner, Reply.unlined, closing_unlined, List.map_append]
  simp only [Surroundings.unlined, List.map_tail]

theorem Carries.withFunction {r : Resolver α} {r' : Resolver β} (hr : Carries g r r')
    (kind : FunctionContext) : Carries g (withFunction kind r) (withFunction kind r') := by
  intro s
  have hinner := hr { s with inFunction := kind }
  unfold Resolver.withFunction
  simp only [Surroundings.unlined, Reply.unlined] at hinner ⊢
  rw [hinner]

theorem Carries.withClass {r : Resolver α} {r' : Resolver β} (hr : Carries g r r')
    (kind : ClassContext) : Carries g (withClass kind r) (withClass kind r') := by
  intro s
  have hinner := hr { s with inClass := kind }
  unfold Resolver.withClass
  simp only [Surroundings.unlined, Reply.unlined] at hinner ⊢
  rw [hinner]

/-! ## Names -/

theorem modify_unlined {f f' : Scope → Scope} (hf : ∀ scope, f' scope.unlined = (f scope).unlined)
    (scopes : List Scope) (i : Nat) :
    (scopes.map Scope.unlined).modify i f' = (scopes.modify i f).map Scope.unlined := by
  induction scopes generalizing i with
  | nil => simp
  | cons scope rest ih =>
    cases i with
    | zero => simp [hf]
    | succ i => simp [ih]

theorem carries_modifyInnermost {f f' : Scope → Scope}
    (hf : ∀ scope, f' scope.unlined = (f scope).unlined) :
    Carries id (modifyInnermost f) (modifyInnermost f') := by
  refine carries_modify fun s => ?_
  simp only [Surroundings.unlined, modify_unlined hf]

theorem carries_checkName (name : Token) :
    Carries id (checkName name) (checkName name.unlined) := by
  refine carries_get.bind fun s => .ite ?_ (carries_halt _) (carries_pure ())
  rw [Token.unlined_isMissing, Surroundings.unlined, List.isEmpty_map]

theorem carries_declare (name : Token) : Carries id (declare name) (declare name.unlined) := by
  refine (carries_checkName name).bind fun _ => carries_get.bind fun s => ?_
  obtain ⟨_ | ⟨scope, rest⟩, inFunction, inClass, fault⟩ := s
  · exact carries_pure ()
  · refine .ite .rfl ((carries_complain name _).bind fun _ => ?_) ?_ <;>
      exact carries_modifyInnermost fun _ => rfl

theorem carries_define (name : Token) : Carries id (define name) (define name.unlined) :=
  carries_modifyInnermost fun _ => rfl

theorem carries_watch (name : Token) : Carries id (watch name) (watch name.unlined) := by
  refine carries_modifyInnermost fun scope => ?_
  simp only [Scope.unlined, Token.unlined_lexeme, Table.insert_mapValues]

theorem hopsTo?_unlined (name : String) (scopes : List Scope) :
    hopsTo? name (scopes.map Scope.unlined) = hopsTo? name scopes := by
  unfold hopsTo?
  rw [List.findIdx?_map]
  rfl

theorem isUnfinished_unlined (name : String) (scopes : List Scope) :
    isUnfinished name (scopes.map Scope.unlined) = isUnfinished name scopes := by
  cases scopes <;> rfl

theorem carries_locate (r : Reference) :
    Carries Reference.unlined (locate r) (locate r.unlined) := by
  refine (carries_checkName r.name).bind fun _ => carries_get.bind fun s => ?_
  have hhops : hopsTo? r.unlined.name.lexeme s.unlined.scopes = hopsTo? r.name.lexeme s.scopes :=
    hopsTo?_unlined _ _
  have hfault : s.unlined.fault = s.fault := rfl
  simp only [hhops, hfault]
  split
  · exact carries_pure r
  · exact carries_pure { r with hops := hopsTo? r.name.lexeme s.scopes }

theorem carries_read (r : Reference) : Carries Reference.unlined (read r) (read r.unlined) := by
  refine carries_get.bind fun s => .ite ?_ ((carries_complain r.name _).bind fun _ => ?_) ?_
  · exact iff_of_eq (congrArg (· = true) (isUnfinished_unlined _ _).symm)
  all_goals
    refine (carries_locate r).bind fun found => ?_
    rw [Reference.unlined_hops]
    cases found.hops with
    | none => exact carries_pure found
    | some hops =>
      refine (carries_modify fun s => ?_).bind fun _ => carries_pure found
      simp only [Surroundings.unlined, Surroundings.mk.injEq, and_true]
      refine modify_unlined (fun scope => ?_) _ _
      simp only [Scope.unlined, Reference.unlined_name, Token.unlined_lexeme,
        Table.erase_mapValues]

theorem carries_checkSuper (keyword : Token) :
    Carries id (checkSuper keyword) (checkSuper keyword.unlined) := by
  refine carries_get.bind fun s => ?_
  have hclass : s.unlined.inClass = s.inClass := rfl
  rw [hclass]
  cases s.inClass with
  | none => exact carries_complain keyword _
  | plain => exact carries_complain keyword _
  | subclass => exact carries_pure ()

theorem carries_checkSuperclass (name : Token) (parent : Node) :
    Carries id (checkSuperclass name parent) (checkSuperclass name.unlined parent.unlined) := by
  unfold checkSuperclass
  rw [Node.unlined_name?]
  cases parent.name? with
  | none => exact carries_halt _
  | some parentName =>
    have hself : Carries id
        (if name.lexeme = parentName.lexeme then complain parentName .inheritsFromItself
          else Pure.pure ())
        (if name.unlined.lexeme = parentName.unlined.lexeme then
          complain parentName.unlined .inheritsFromItself else Pure.pure ()) :=
      .ite .rfl (carries_complain parentName _) (carries_pure ())
    exact .ite .rfl ((carries_halt _).bind fun _ => hself) hself

theorem carries_parameters : ∀ params : List Token,
    Carries id (parameters params) (parameters (params.map Token.unlined))
  | [] => carries_pure ()
  | name :: rest =>
    (carries_declare name).bind fun _ => (carries_define name).bind fun _ =>
      carries_parameters rest

/-! ## Trees -/

mutual

theorem carries_node : ∀ n : Node, Carries Node.unlined (node n) (node n.unlined)
  | .assign target value =>
    (carries_node value).bind fun value => (carries_locate target).bind fun target =>
      carries_pure (Node.assign target value)
  | .binary left operator right =>
    (carries_node left).bind fun left => (carries_node right).bind fun right =>
      carries_pure (Node.binary left operator right)
  | .call callee paren values =>
    (carries_node callee).bind fun callee => (carries_arguments values).bind fun values =>
      carries_pure (Node.call callee paren values)
  | .property object name =>
    (carries_node object).bind fun object => carries_pure (Node.property object name)
  | .group inner => (carries_node inner).bind fun inner => carries_pure (Node.group inner)
  | .literal value => carries_pure (Node.literal value)
  | .logical left operator right =>
    (carries_node left).bind fun left => (carries_node right).bind fun right =>
      carries_pure (Node.logical left operator right)
  | .setProperty object name value =>
    (carries_node value).bind fun value => (carries_node object).bind fun object =>
      carries_pure (Node.setProperty object name value)
  | .superMethod keyword method =>
    (carries_checkSuper keyword.name).bind fun _ => (carries_locate keyword).bind fun keyword =>
      carries_pure (Node.superMethod keyword method)
  | .receiver keyword =>
    carries_get.bind fun _ => .ite .rfl
      ((carries_complain keyword.name _).bind fun _ => carries_pure (Node.receiver keyword))
      ((carries_locate keyword).bind fun keyword => carries_pure (Node.receiver keyword))
  | .unary operator right =>
    (carries_node right).bind fun right => carries_pure (Node.unary operator right)
  | .ident name => (carries_read name).bind fun name => carries_pure (Node.ident name)
  | .block statements =>
    ((carries_nodes statements).withScope {}).bind fun statements =>
      carries_pure (Node.block statements)
  | .classDecl name none declarations =>
    (carries_declare name).bind fun _ => (carries_define name).bind fun _ =>
      (((carries_methods declarations).withScope thisScope).withClass .plain).bind
        fun declarations => carries_pure (Node.classDecl name none declarations)
  | .classDecl name (some parent) declarations =>
    (carries_declare name).bind fun _ => (carries_define name).bind fun _ =>
      (carries_checkSuperclass name parent).bind fun _ =>
        ((carries_node parent).bind fun parent =>
          (((carries_methods declarations).withScope thisScope).withScope superScope).bind
            fun declarations =>
              carries_pure (Node.classDecl name (some parent) declarations)).withClass .subclass
  | .expression value => (carries_node value).bind fun value => carries_pure (Node.expression value)
  | .function name params body =>
    (carries_declare name).bind fun _ => (carries_define name).bind fun _ =>
      ((((carries_parameters params).bind fun _ => carries_nodes body).withScope {}).withFunction
        .function).bind fun body => carries_pure (Node.function name params body)
  | .conditional condition thenBranch elseBranch =>
    (carries_node condition).bind fun condition => (carries_node thenBranch).bind fun thenBranch =>
      (carries_nodeOption elseBranch).bind fun elseBranch =>
        carries_pure (Node.conditional condition thenBranch elseBranch)
  | .print value => (carries_node value).bind fun value => carries_pure (Node.print value)
  | .returning keyword value => by
    have hvalue : Carries Node.unlined
        (nodeOption value >>= fun value => Pure.pure (Node.returning keyword value))
        (nodeOption (Node.unlinedOption value) >>= fun value =>
          Pure.pure (Node.returning keyword.unlined value)) :=
      (carries_nodeOption value).bind fun value => carries_pure (Node.returning keyword value)
    have hcheck (around : FunctionContext) : Carries Node.unlined
        (if value.isSome ∧ around = .initializer then
          complain keyword .returnsFromInitializer >>= fun _ =>
            nodeOption value >>= fun value => Pure.pure (Node.returning keyword value)
        else nodeOption value >>= fun value => Pure.pure (Node.returning keyword value))
        (if (Node.unlinedOption value).isSome ∧ around = .initializer then
          complain keyword.unlined .returnsFromInitializer >>= fun _ =>
            nodeOption (Node.unlinedOption value) >>= fun value =>
              Pure.pure (Node.returning keyword.unlined value)
        else nodeOption (Node.unlinedOption value) >>= fun value =>
          Pure.pure (Node.returning keyword.unlined value)) :=
      .ite (by cases value <;> exact .rfl) ((carries_complain keyword _).bind fun _ => hvalue)
        hvalue
    exact carries_get.bind fun s => .ite .rfl
      ((carries_complain keyword _).bind fun _ => hcheck s.inFunction) (hcheck s.inFunction)
  | .varDecl name initializer =>
    (carries_declare name).bind fun _ => (carries_nodeOption initializer).bind fun initializer =>
      (carries_define name).bind fun _ => (carries_watch name).bind fun _ =>
        carries_pure (Node.varDecl name initializer)
  | .loop condition body =>
    (carries_node condition).bind fun condition => (carries_node body).bind fun body =>
      carries_pure (Node.loop condition body)
  | .misfit m => (carries_misfit m).bind fun m => carries_pure (Node.misfit m)

theorem carries_misfit : ∀ m : Misfit, Carries Misfit.unlined (misfit m) (misfit m.unlined)
  | .list items => (carries_nodes items).bind fun items => carries_pure (Misfit.list items)
  | .unlisted content =>
    (carries_node content).bind fun content => carries_pure (Misfit.unlisted content)
  | .function name params body =>
    (carries_declare name).bind fun _ => (carries_haltAt params _).bind fun _ =>
      carries_pure (Misfit.function name params body)
  | .quoted q => carries_pure (Misfit.quoted q)
  | .token t => (carries_halt _).bind fun _ => carries_pure (Misfit.token t)
  | .value v => (carries_halt _).bind fun _ => carries_pure (Misfit.value v)

theorem carries_nodeOption : ∀ n : Option Node,
    Carries Node.unlinedOption (nodeOption n) (nodeOption (Node.unlinedOption n))
  | none => carries_pure none
  | some n => (carries_node n).bind fun n => carries_pure (some n)

theorem carries_nodes : ∀ ns : List Node,
    Carries Node.unlinedAll (nodes ns) (nodes (Node.unlinedAll ns))
  | [] => carries_pure []
  | n :: rest => by
    have hcons : Carries Node.unlinedAll
        (node n >>= fun n => nodes rest >>= fun rest => Pure.pure (n :: rest))
        (node n.unlined >>= fun n => nodes (Node.unlinedAll rest) >>= fun rest =>
          Pure.pure (n :: rest)) :=
      (carries_node n).bind fun n => (carries_nodes rest).bind fun rest =>
        carries_pure (n :: rest)
    cases n with
    | misfit m =>
      cases m with
      | list items =>
        exact (carries_halt _).bind fun _ =>
          carries_pure (g := Node.unlinedAll) (.misfit (.list items) :: rest)
      | _ => exact hcons
    | _ => exact hcons

theorem carries_arguments : ∀ ns : List Node,
    Carries Node.unlinedAll (arguments ns) (arguments (Node.unlinedAll ns))
  | [] => carries_pure []
  | n :: rest => by
    have hcons : Carries Node.unlinedAll
        (node n >>= fun n => arguments rest >>= fun rest => Pure.pure (n :: rest))
        (node n.unlined >>= fun n => arguments (Node.unlinedAll rest) >>= fun rest =>
          Pure.pure (n :: rest)) :=
      (carries_node n).bind fun n => (carries_arguments rest).bind fun rest =>
        carries_pure (n :: rest)
    cases n with
    | misfit m =>
      cases m with
      | unlisted content =>
        exact (carries_haltAt content _).bind fun _ =>
          carries_pure (g := Node.unlinedAll) (.misfit (.unlisted content) :: rest)
      | _ => exact hcons
    | _ => exact hcons

theorem carries_methods : ∀ ns : List Node,
    Carries Node.unlinedAll (methods ns) (methods (Node.unlinedAll ns))
  | [] => carries_pure []
  | n :: rest => by
    have hhalt : Carries Node.unlinedAll (halt .noMember >>= fun _ => Pure.pure (n :: rest))
        (halt .noMember >>= fun _ => Pure.pure (Node.unlinedAll (n :: rest))) :=
      (carries_halt _).bind fun _ => carries_pure (n :: rest)
    cases n with
    | function name params body =>
      have hbody : Carries Node.unlinedAll
          (withFunction (methodContext name)
            (withScope {} (parameters params >>= fun _ => nodes body)) >>= fun body =>
              methods rest >>= fun rest => Pure.pure (.function name params body :: rest))
          (withFunction (methodContext name.unlined)
            (withScope {} (parameters (params.map Token.unlined) >>= fun _ =>
              nodes (Node.unlinedAll body))) >>= fun body =>
                methods (Node.unlinedAll rest) >>= fun rest =>
                  Pure.pure (.function name.unlined (params.map Token.unlined) body :: rest)) :=
        ((((carries_parameters params).bind fun _ =>
          carries_nodes body).withScope {}).withFunction _).bind fun body =>
            (carries_methods rest).bind fun rest =>
              carries_pure (.function name params body :: rest)
      exact .ite .rfl ((carries_halt _).bind fun _ => hbody) hbody
    | misfit m =>
      cases m with
      | unlisted content =>
        exact (carries_haltAt content _).bind fun _ =>
          carries_pure (g := Node.unlinedAll) (.misfit (.unlisted content) :: rest)
      | function name params body =>
        have hparams : Carries Node.unlinedAll
            (halt (.notIterable params.sort) >>= fun _ =>
              Pure.pure (.misfit (.function name params body) :: rest))
            (halt (.notIterable params.unlined.sort) >>= fun _ =>
              Pure.pure (Node.unlinedAll (.misfit (.function name params body) :: rest))) :=
          (carries_haltAt params _).bind fun _ => carries_pure _
        exact .ite .rfl ((carries_halt _).bind fun _ => hparams) hparams
      | _ => exact hhalt
    | _ => exact hhalt

end

end Resolver

/-- Resolution does not go by lines. -/
theorem resolve_unlined (ns : List Node) :
    resolve (Node.unlinedAll ns) =
      (Node.unlinedAll (resolve ns).1, (resolve ns).2.map Complaint.unlined) := by
  have hnodes := Resolver.carries_nodes ns {}
  have hstart : Surroundings.unlined {} = {} := rfl
  rw [hstart] at hnodes
  simp only [resolve, hnodes, Resolver.Reply.unlined]

end Lox
