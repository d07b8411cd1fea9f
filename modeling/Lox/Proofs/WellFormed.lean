import Mathlib.Tactic
import Lox.Machine.Operator
import Lox.Session
import Lox.Proofs.Accepted
import Lox.Proofs.Recovery
import Lox.Proofs.Shape

/-!
# Trees are well formed

Whatever tokens are read, if only there is an end of source among them, the statements that come of
it stand where the grammar has them. An operator in such a tree is one that the machine knows
(`Operator.binary_handles_iff`).

Lists that are too long are complained of and still read. So it takes a tree without complaints for
its parameters and arguments to be as few as the language allows: it has a derivation, and no
derivation has a longer list in it (`Derives.takesFew`).
-/

namespace Lox

/-! ## Operators that the machine knows -/

namespace Operator

theorem ofNumbers_ne_fault {operator : Token} {compute : Number → Number → Value}
    {left right : Value} {f : Fault} :
    ofNumbers operator compute left right ≠ .error (.fault f) := by
  unfold ofNumbers
  split <;> simp

theorem add_ne_fault {operator : Token} {left right : Value} {f : Fault} :
    (add operator left right).mapError Signal.error ≠ .error (.fault f) := by
  unfold add
  split <;> simp [Except.mapError]

/-- The machine finds no fault with an operator of two operands just when it is one of ten. -/
theorem binary_handles_iff {operator : Token} :
    operator.kind ∈ binaryKinds ↔
      ∀ left right f, binary operator left right ≠ .error (.fault f) := by
  constructor
  · intro hkind left right f
    simp only [binaryKinds, List.mem_cons, List.not_mem_nil, or_false] at hkind
    rcases hkind with h | h | h | h | h | h | h | h | h | h <;>
      simp [binary, h, ofNumbers_ne_fault, add_ne_fault]
  · intro h
    by_contra hkind
    have hfault : ∃ f, binary operator .nil .nil = .error (.fault f) := by
      unfold binary
      split
      case h_11 => exact ⟨_, rfl⟩
      case h_12 => exact ⟨_, rfl⟩
      all_goals
        rename_i heq
        exact absurd (by rw [heq]; decide) hkind
    obtain ⟨f, hf⟩ := hfault
    exact h _ _ _ hf

theorem unary_handles_iff {operator : Token} :
    operator.kind ∈ unaryKinds ↔ ∀ right f, unary operator right ≠ .error (.fault f) := by
  constructor
  · intro hkind right f
    simp only [unaryKinds, List.mem_cons, List.not_mem_nil, or_false] at hkind
    rcases hkind with h | h
    · simp [unary, h]
    · cases right <;> simp [unary, h]
  · intro h
    by_contra hkind
    have hfault : ∃ f, unary operator .nil = .error (.fault f) := by
      unfold unary
      split
      case h_3 => exact ⟨_, rfl⟩
      case h_4 => exact ⟨_, rfl⟩
      all_goals
        rename_i heq
        exact absurd (by rw [heq]; decide) hkind
    obtain ⟨f, hf⟩ := hfault
    exact h _ _ hf

end Operator

/-! ## Lists that are not too long -/

mutual

/-- No function in the node has more than 255 parameters, and no call more than 255 arguments. -/
def Node.TakesFew : Node → Prop
  | .assign _ value => value.TakesFew
  | .binary left _ right => left.TakesFew ∧ right.TakesFew
  | .call callee _ arguments =>
    arguments.length ≤ 255 ∧ callee.TakesFew ∧ Node.AllTakeFew arguments
  | .property object _ => object.TakesFew
  | .group inner => inner.TakesFew
  | .literal _ => True
  | .logical left _ right => left.TakesFew ∧ right.TakesFew
  | .setProperty object _ value => object.TakesFew ∧ value.TakesFew
  | .superMethod _ _ => True
  | .receiver _ => True
  | .unary _ right => right.TakesFew
  | .ident _ => True
  | .block statements => Node.AllTakeFew statements
  | .classDecl _ superclass methods => Node.OptionTakesFew superclass ∧ Node.AllTakeFew methods
  | .expression value => value.TakesFew
  | .function _ params body => params.length ≤ 255 ∧ Node.AllTakeFew body
  | .conditional condition thenBranch elseBranch =>
    condition.TakesFew ∧ thenBranch.TakesFew ∧ Node.OptionTakesFew elseBranch
  | .print value => value.TakesFew
  | .returning _ value => Node.OptionTakesFew value
  | .varDecl _ initializer => Node.OptionTakesFew initializer
  | .loop condition body => condition.TakesFew ∧ body.TakesFew
  | .misfit _ => False

def Node.AllTakeFew : List Node → Prop
  | [] => True
  | n :: rest => n.TakesFew ∧ Node.AllTakeFew rest

def Node.OptionTakesFew : Option Node → Prop
  | none => True
  | some n => n.TakesFew

end

theorem allTakeFew_append : ∀ {xs ys : List Node}, Node.AllTakeFew xs → Node.AllTakeFew ys →
    Node.AllTakeFew (xs ++ ys)
  | [], _, _, hy => hy
  | _ :: _, _, hx, hy => ⟨hx.1, allTakeFew_append hx.2 hy⟩

/-- What is true of a node is true of the tree of a phrase. -/
def Phrase.TakesFew : Phrase → Prop
  | .expression n | .disjunction n | .conjunction n | .equality n | .comparison n | .term n
  | .factor n | .unary n | .access n | .primary n | .binding n | .function n | .statement n _
  | .declaration n => n.TakesFew
  | .arguments ns | .methods ns | .declarations ns => Node.AllTakeFew ns
  | .optional n | .initializer n | .superclass n => Node.OptionTakesFew n
  | .parameters _ => True

theorem forTree_takesFew {initializer condition increment : Option Node} {body : Node}
    (hi : Node.OptionTakesFew initializer) (hc : Node.OptionTakesFew condition)
    (hn : Node.OptionTakesFew increment) (hb : body.TakesFew) :
    (forTree initializer condition increment body).TakesFew := by
  cases initializer <;> cases condition <;> cases increment <;>
    simp_all [forTree, Node.TakesFew, Node.AllTakeFew, Node.OptionTakesFew]

/-- A phrase of the grammar has no list in it that is too long. -/
theorem Derives.takesFew {nearest : Bool} {g : Phrase} {ts : List Token}
    (h : Derives nearest g ts) : g.TakesFew := by
  induction h with
  | call _ _ _ hfew _ ihcallee iharguments => exact ⟨hfew, ihcallee, iharguments⟩
  | arguments _ _ _ _ ihrest ihlast => exact allTakeFew_append ihrest ⟨ihlast, trivial⟩
  | function _ _ _ hfew _ _ _ _ _ ihbody => exact ⟨hfew, ihbody⟩
  | methods _ _ ihrest ihlast => exact allTakeFew_append ihrest ⟨ihlast, trivial⟩
  | forLoop _ _ _ _ _ _ _ _ ihi ihc ihn ihb => exact forTree_takesFew ihi ihc ihn ihb
  | declarations _ _ ihrest ihlast => exact allTakeFew_append ihrest ⟨ihlast, trivial⟩
  | _ => simp_all [Phrase.TakesFew, Node.TakesFew, Node.AllTakeFew, Node.OptionTakesFew]

/-! ## What parsing returns -/

namespace Session

open Lox.Parser

variable {s : Session} {tokens : List Token} {ns : List Node}

theorem result_of_parseTokens (h : Ended tokens) (hparsed : (s.parseTokens tokens).2 = .ok ns) :
    (program s.limits.grammar tokens).result = .ok ns (tokens.drop (endIndex tokens)) := by
  rcases program_result s.limits.grammar h with ⟨statements, hok⟩ | ⟨hdeep, -⟩
  · rw [parseTokens, hok] at hparsed
    rw [hok, Except.ok.inj hparsed]
  · rw [parseTokens, hdeep] at hparsed
    cases hparsed

theorem fitAll_parseTokens (h : Ended tokens) (hparsed : (s.parseTokens tokens).2 = .ok ns) :
    Node.FitAll (· ∈ tokens) .declaration ns := by
  have hfits := fits_program s.limits.grammar tokens fun _ ht => ht
  rw [result_of_parseTokens h hparsed] at hfits
  exact hfits.2

theorem allTakeFew_parseTokens (h : Ended tokens) (hparsed : (s.parseTokens tokens).2 = .ok ns)
    (hclean : (program s.limits.grammar tokens).complaints = []) : Node.AllTakeFew ns := by
  have hgives : (program s.limits.grammar).Gives tokens ns (tokens.drop (endIndex tokens)) := by
    have hresult := result_of_parseTokens h hparsed
    unfold Gives
    rcases hreply : program s.limits.grammar tokens with ⟨complaints, result⟩
    rw [hreply] at hclean hresult
    obtain rfl : complaints = [] := hclean
    obtain rfl : result = _ := hresult
    rfl
  obtain ⟨_, _, _, -, -, hderived, -⟩ := program_derived true h hgives
  exact hderived.takesFew

/-- Of tokens with an end of source among them, however they go on, come statements that stand where
the grammar has them, made of these tokens alone. If nothing was complained of, no list of
parameters or arguments in them is too long. Their operators are of the kinds that the machine finds
no fault with. -/
theorem parseTokens_wellFormed (s : Session) {tokens : List Token} (h : Ended tokens) :
    (10 * tokens.length + 12 ≤ s.limits.grammar → ∃ ns, (s.parseTokens tokens).2 = .ok ns) ∧
    (∀ ns, (s.parseTokens tokens).2 = .ok ns →
      Node.FitAll (· ∈ tokens) .declaration ns ∧
      ((program s.limits.grammar tokens).complaints = [] → Node.AllTakeFew ns)) ∧
    ∀ operator : Token,
      (operator.kind ∈ Operator.binaryKinds ↔
        ∀ left right f, Operator.binary operator left right ≠ .error (.fault f)) ∧
      (operator.kind ∈ Operator.unaryKinds ↔
        ∀ right f, Operator.unary operator right ≠ .error (.fault f)) := by
  refine ⟨fun hdepth => ?_, fun ns hparsed => ?_, fun operator => ?_⟩
  · rcases program_result s.limits.grammar h with ⟨statements, hok⟩ | ⟨-, hdeep⟩
    · exact ⟨statements, by rw [parseTokens, hok]⟩
    · omega
  · exact ⟨fitAll_parseTokens h hparsed, allTakeFew_parseTokens h hparsed⟩
  · exact ⟨Operator.binary_handles_iff, Operator.unary_handles_iff⟩

/-- Tokens that go wrong twice, and a call of a call that does not go wrong. -/
theorem parseTokens_wellFormed_malformed :
    (∃ ns, (parseTokens {} malformed).2 = .ok ns ∧
      Node.FitAll (· ∈ malformed) .declaration ns) ∧
    ∃ ns, (parseTokens {} (scan "f(a)(b, -c);").tokens).2 = .ok ns ∧ Node.AllTakeFew ns := by
  have hmalformed : Ended malformed := ⟨⟨.eof, "", .nil, 1⟩, by decide, rfl⟩
  have hcalls : Ended (scan "f(a)(b, -c);").tokens := ⟨⟨.eof, "", .nil, 1⟩, by decide +kernel, rfl⟩
  obtain ⟨hreturns, hwellFormed, -⟩ := parseTokens_wellFormed {} hmalformed
  obtain ⟨hreturns', hwellFormed', -⟩ := parseTokens_wellFormed {} hcalls
  obtain ⟨ns, hns⟩ := hreturns (by decide)
  obtain ⟨ns', hns'⟩ := hreturns' (by decide +kernel)
  exact ⟨⟨ns, hns, (hwellFormed ns hns).1⟩,
    ns', hns', (hwellFormed' ns' hns').2 (by decide +kernel)⟩

end Session

end Lox
