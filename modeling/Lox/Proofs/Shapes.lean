import Mathlib.Tactic
import Lox.Proofs.Relabeled

/-!
# Trees and their tokens

A tree is its shape and its tokens (`Node.eqAll_of_shape`), for it is what the tokens make of the
shape (`Node.fill_map`). A phrase has each of its tokens at least as often as its tree has
(`Derives.count_tokens`). So if no token of a phrase is in it twice, then to put other tokens into
its tree is to put them into the phrase.
-/

namespace Lox

/-! ## Shapes -/

/-- The trees with all of their tokens taken out. -/
def Node.shapeAll (ns : List Node) : List Node := Node.mapAll (fun _ => .missing) id ns

/-- The next of the tokens that are left. -/
def nextToken : StateM (List Token) Token := fun ts => (ts.headD .missing, ts.tail)

mutual

/-- The tree with other tokens in it, in the order in which it has them. -/
def Node.fill : Node → StateM (List Token) Node
  | .assign target value => do
    let name ← nextToken
    return .assign { target with name } (← value.fill)
  | .binary left _ right => do
    let operator ← nextToken
    return .binary (← left.fill) operator (← right.fill)
  | .call callee _ arguments => do
    let paren ← nextToken
    return .call (← callee.fill) paren (← Node.fillAll arguments)
  | .property object _ => do
    let name ← nextToken
    return .property (← object.fill) name
  | .group inner => return .group (← inner.fill)
  | .literal value => return .literal value
  | .logical left _ right => do
    let operator ← nextToken
    return .logical (← left.fill) operator (← right.fill)
  | .setProperty object _ value => do
    let name ← nextToken
    return .setProperty (← object.fill) name (← value.fill)
  | .superMethod keyword _ => return .superMethod { keyword with name := ← nextToken } (← nextToken)
  | .receiver keyword => return .receiver { keyword with name := ← nextToken }
  | .unary _ right => return .unary (← nextToken) (← right.fill)
  | .ident name => return .ident { name with name := ← nextToken }
  | .block statements => return .block (← Node.fillAll statements)
  | .classDecl _ superclass methods =>
    return .classDecl (← nextToken) (← Node.fillOption superclass) (← Node.fillAll methods)
  | .expression value => return .expression (← value.fill)
  | .function _ params body =>
    return .function (← nextToken) (← params.mapM fun _ => nextToken) (← Node.fillAll body)
  | .conditional condition thenBranch elseBranch =>
    return .conditional (← condition.fill) (← thenBranch.fill) (← Node.fillOption elseBranch)
  | .print value => return .print (← value.fill)
  | .returning _ value => return .returning (← nextToken) (← Node.fillOption value)
  | .varDecl _ initializer => return .varDecl (← nextToken) (← Node.fillOption initializer)
  | .loop condition body => return .loop (← condition.fill) (← body.fill)
  | .misfit m => return .misfit m

def Node.fillAll : List Node → StateM (List Token) (List Node)
  | [] => return []
  | n :: rest => return (← n.fill) :: (← Node.fillAll rest)

def Node.fillOption : Option Node → StateM (List Token) (Option Node)
  | none => return none
  | some n => return some (← n.fill)

end

@[simp]
theorem run_nextToken (t : Token) (ts : List Token) : nextToken.run (t :: ts) = pure (t, ts) := rfl

theorem run_mapM_nextToken (f : Token → Token) (params rest : List Token) :
    (params.mapM ((fun _ => nextToken) ∘ f)).run (params ++ rest) = pure (params, rest) := by
  induction params with
  | nil => rfl
  | cons t params ih => simp [ih]

section Fill

variable (f : Token → Token)

mutual

/-- A tree is what its own tokens make of it, whatever tokens it had. -/
theorem Node.fill_map : ∀ (n : Node) (rest : List Token),
    (n.map f id).fill.run (n.tokens ++ rest) = pure (n, rest)
  | .assign _ value, rest | .property value _, rest | .group value, rest | .unary _ value, rest
  | .expression value, rest | .print value, rest => by
    simp [Node.map, Node.fill, Node.tokens, Reference.map, value.fill_map]
  | .binary left _ right, rest | .logical left _ right, rest | .setProperty left _ right, rest
  | .loop left right, rest => by
    simp [Node.map, Node.fill, Node.tokens, left.fill_map, right.fill_map]
  | .call callee _ arguments, rest => by
    simp [Node.map, Node.fill, Node.tokens, callee.fill_map, Node.fillAll_map arguments]
  | .literal _, _ | .superMethod _ _, _ | .receiver _, _ | .ident _, _ | .misfit _, _ => rfl
  | .block statements, rest => by
    simp [Node.map, Node.fill, Node.tokens, Node.fillAll_map statements]
  | .classDecl _ superclass methods, rest => by
    simp [Node.map, Node.fill, Node.tokens, Node.fillOption_map superclass,
      Node.fillAll_map methods]
  | .function _ params body, rest => by
    simp [Node.map, Node.fill, Node.tokens, run_mapM_nextToken f params, Node.fillAll_map body]
  | .conditional condition thenBranch elseBranch, rest => by
    simp [Node.map, Node.fill, Node.tokens, condition.fill_map, thenBranch.fill_map,
      Node.fillOption_map elseBranch]
  | .returning _ value, rest | .varDecl _ value, rest => by
    simp [Node.map, Node.fill, Node.tokens, Node.fillOption_map value]

theorem Node.fillAll_map : ∀ (ns : List Node) (rest : List Token),
    (Node.fillAll (Node.mapAll f id ns)).run (Node.tokensAll ns ++ rest) = pure (ns, rest)
  | [], _ => rfl
  | n :: ns, rest => by
    simp [Node.mapAll, Node.fillAll, Node.tokensAll, n.fill_map, Node.fillAll_map ns]

theorem Node.fillOption_map : ∀ (n : Option Node) (rest : List Token),
    (Node.fillOption (Node.mapOption f id n)).run (Node.tokensOption n ++ rest) = pure (n, rest)
  | none, _ => rfl
  | some n, rest => by
    simp [Node.mapOption, Node.fillOption, Node.tokensOption, n.fill_map]

end

end Fill

/-- Trees of one shape with the same tokens are the same. -/
theorem Node.eqAll_of_shape {ns ns' : List Node} (h : Node.shapeAll ns = Node.shapeAll ns')
    (ht : Node.tokensAll ns = Node.tokensAll ns') : ns = ns' := by
  have hns := Node.fillAll_map (fun _ => .missing) ns []
  have hns' := Node.fillAll_map (fun _ => .missing) ns' []
  rw [shapeAll, shapeAll] at h
  rw [h, ht, hns'] at hns
  exact (Prod.mk.inj hns).1.symm

/-! ## The tokens of a phrase -/

theorem Node.tokensAll_append (ns ns' : List Node) :
    Node.tokensAll (ns ++ ns') = Node.tokensAll ns ++ Node.tokensAll ns' := by
  induction ns with
  | nil => rfl
  | cons n ns ih => simp [Node.tokensAll, ih]

def Phrase.tokens : Phrase → List Token
  | .expression n | .disjunction n | .conjunction n | .equality n | .comparison n | .term n
  | .factor n | .unary n | .access n | .primary n | .binding n | .function n | .statement n _
  | .declaration n => n.tokens
  | .arguments ns | .methods ns | .declarations ns => Node.tokensAll ns
  | .optional n | .initializer n | .superclass n => Node.tokensOption n
  | .parameters names => names

theorem count_forTree (initializer condition increment : Option Node) (body : Node)
    (t : Token) :
    (forTree initializer condition increment body).tokens.count t =
      (Node.tokensOption initializer).count t + (Node.tokensOption condition).count t +
        (Node.tokensOption increment).count t + body.tokens.count t := by
  cases initializer <;> cases condition <;> cases increment <;>
    simp [forTree, Node.tokens, Node.tokensAll, Node.tokensOption] <;> omega

/-- Each token is in the tree of a phrase no more often than in the phrase. -/
theorem Derives.count_tokens {nearest : Bool} {g : Phrase} {ts : List Token}
    (h : Derives nearest g ts) (t : Token) : g.tokens.count t ≤ ts.count t := by
  induction h with
  | _ =>
    simp only [Phrase.tokens, Node.tokens, Node.tokensAll, Node.tokensOption,
      Node.tokensAll_append, count_forTree, List.count_append, List.count_cons,
      List.count_nil, List.append_nil, List.cons_append] at *
    omega

/-! ## Programs with other tokens -/

namespace Parser

/-- The tokens, each with its number in the place of its line. -/
def numbered (tokens : List Token) : List Token :=
  tokens.mapIdx fun i t => { t with line := i }

/-- The token on the line on which it was before it got its number. -/
def onLine (tokens : List Token) (t : Token) : Token :=
  { t with line := (tokens[t.line.toNat]?.map (·.line)).getD t.line }

theorem map_onLine (tokens : List Token) : (numbered tokens).map (onLine tokens) = tokens := by
  refine List.ext_getElem (by simp [numbered]) fun i hi hi' => ?_
  simp [numbered, onLine, hi']

theorem nodup_numbered (tokens : List Token) : (numbered tokens).Nodup := by
  have hlines : (numbered tokens).map (·.line) = (List.range tokens.length).map Int.ofNat := by
    refine List.ext_getElem (by simp [numbered]) fun i hi hi' => ?_
    simp [numbered]
  refine List.Nodup.of_map (·.line) ?_
  rw [hlines]
  exact List.nodup_range.map fun _ _ => Int.ofNat.inj

/-- The first list with its members replaced, if they are in no other place of it, by those of the
second. -/
def replace (ts us : List Token) (f : Token → Token) (t : Token) : Token :=
  if t ∈ ts then us.getD (ts.idxOf t) t else f t

theorem map_replace {ts us : List Token} (hts : ts.Nodup) (hlength : ts.length = us.length)
    (f : Token → Token) : ts.map (replace ts us f) = us := by
  refine List.ext_getElem (by simpa using hlength) fun i hi hi' => ?_
  have hlt : i < ts.length := by simpa using hi
  rw [List.getElem_map, replace, if_pos (List.getElem_mem hlt), hts.idxOf_getElem i hlt]
  simp [hi']

theorem relabels_onLine (tokens : List Token) : Relabels (onLine tokens) :=
  ⟨fun _ => rfl, fun _ => rfl⟩

/-- A program is also read from its tokens with their numbers, of which none is in its trees
twice. -/
theorem program_numbered {depth : Nat} {tokens rest : List Token} {ns : List Node}
    (hended : Ended tokens) (h : program depth tokens = ⟨[], .ok ns rest⟩) :
    ∃ ns₀ rest₀, program depth (numbered tokens) = ⟨[], .ok ns₀ rest₀⟩ ∧
      Node.mapAll (onLine tokens) id ns₀ = ns ∧ (Node.tokensAll ns₀).Nodup := by
  have hrelabel := program_relabel (relabels_onLine tokens) depth (numbered tokens)
  rw [map_onLine, h] at hrelabel
  rcases hreply : program depth (numbered tokens) with ⟨complaints, result⟩
  rw [hreply] at hrelabel
  simp only [Reply.relabel, Reply.mk.injEq] at hrelabel
  obtain ⟨hcomplaints, hresult⟩ := hrelabel
  obtain rfl := List.map_eq_nil_iff.1 hcomplaints.symm
  rcases result with ⟨ns₀, rest₀⟩ | _ | _ | _ <;> cases hresult
  refine ⟨ns₀, rest₀, rfl, rfl, List.nodup_iff_count_le_one.2 fun t => ?_⟩
  have hended₀ : Ended (numbered tokens) := by
    obtain ⟨t, ht, hkind⟩ := hended
    obtain ⟨i, hi, rfl⟩ := List.getElem_of_mem ht
    exact ⟨_, List.getElem_mem (by simpa [numbered] using hi), by simpa [numbered] using hkind⟩
  obtain ⟨ts, last, us, hts, -, hderives, -⟩ := program_derived true hended₀ hreply
  calc (Node.tokensAll ns₀).count t ≤ ts.count t := hderives.count_tokens t
    _ ≤ (numbered tokens).count t := by simp [hts]
    _ ≤ 1 := List.nodup_iff_count_le_one.1 (nodup_numbered tokens) t

/-- To put other tokens into the trees of a program is to put them into its tokens. -/
theorem program_retold {depth : Nat} {tokens rest : List Token} {ns ns' : List Node}
    {R : Token → Token → Prop} (hended : Ended tokens)
    (h : program depth tokens = ⟨[], .ok ns rest⟩)
    (hR : ∀ t t', R t t' → t'.kind = t.kind ∧ t'.literal = t.literal)
    (hshape : Node.shapeAll ns' = Node.shapeAll ns)
    (htokens : List.Forall₂ R (Node.tokensAll ns) (Node.tokensAll ns')) :
    ∃ tokens' rest', List.Forall₂ (fun t t' => t' = t ∨ R t t') tokens tokens' ∧
      program depth tokens' = ⟨[], .ok ns' rest'⟩ := by
  obtain ⟨ns₀, rest₀, hprogram, hns, hnodup⟩ := program_numbered hended h
  let f := onLine tokens
  let g := replace (Node.tokensAll ns₀) (Node.tokensAll ns') f
  rw [← hns, Node.tokensAll_map] at htokens
  have hlength : (Node.tokensAll ns₀).length = (Node.tokensAll ns').length := by
    simpa using htokens.length_eq
  have hmap : (Node.tokensAll ns₀).map g = Node.tokensAll ns' := map_replace hnodup hlength f
  rw [← hmap, List.forall₂_map_left_iff, List.forall₂_map_right_iff, List.forall₂_same] at htokens
  have hrelated : ∀ t, g t = f t ∨ R (f t) (g t) := by
    intro t
    by_cases ht : t ∈ Node.tokensAll ns₀
    · exact .inr (htokens t ht)
    · exact .inl (if_neg ht)
  have hg : Relabels g := by
    refine ⟨fun t => ?_, fun t => ?_⟩ <;> rcases hrelated t with heq | hrelated
    · rw [heq]
      exact (relabels_onLine tokens).kind t
    · exact (hR _ _ hrelated).1
    · rw [heq]
      exact (relabels_onLine tokens).literal t
    · exact (hR _ _ hrelated).2
  have hns' : Node.mapAll g id ns₀ = ns' := by
    refine Node.eqAll_of_shape ?_ ?_
    · rw [hshape, ← hns, Node.shapeAll, Node.shapeAll, Node.mapAll_mapAll, Node.mapAll_mapAll]
      rfl
    · rw [Node.tokensAll_map, hmap]
  refine ⟨(numbered tokens).map g, rest₀.map g, ?_, ?_⟩
  · have hsame := map_onLine tokens
    nth_rewrite 1 [← hsame]
    rw [List.forall₂_map_left_iff, List.forall₂_map_right_iff, List.forall₂_same]
    exact fun t _ => hrelated t
  · rw [program_relabel hg, hprogram, ← hns']
    rfl

end Parser

end Lox
