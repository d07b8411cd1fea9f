import Mathlib.Tactic
import Lox.Number.Text
import Lox.Proofs.Grammar
import Lox.Proofs.Respelled
import Lox.Proofs.Unlined

/-!
# How the tokens and literals of a program are spelled

A token is made up of its kind, its text and its literal, but these are not independent: the text of
an operator or a keyword is settled by its kind and the kind by its text, and an identifier has no
literal (`Token.IsSpelled`). Apart from its line such a token is its text
(`Token.IsSpelled.unlined_eq_fixed`, `Token.IsSpelled.identifier`).

The literals of a program are those of its tokens, and the `true` of a loop without a condition
(`Derives.mem_literals`). No string among them has a quote in it, and no number is negative or
something other than a number (`Literal.IsSpelled`).
-/

namespace Lox

open Scan (Lexeme operators isLetter isWordChar)

/-! ## Tokens -/

/-- The texts that stand for the same token wherever they are one. -/
def Scan.fixed : List (String × TokenKind) := operators ++ TokenKind.keywords

/-- The token that such a text stands for. -/
def Token.fixed (text : String) : Token := ⟨(Scan.fixed.lookup text).getD .missing, text, .nil, 0⟩

def Token.identifier (text : String) : Token := ⟨.identifier, text, .nil, 0⟩

/-- The token is as the lexicon has it. -/
def Token.IsSpelled (t : Token) : Prop :=
  t.kind = .eof ∨ Lexeme t.kind t.lexeme.toList t.literal ∨
    t.kind = .string ∧ ∃ text, t.literal = .string text ∧ '"' ∉ text.toList

theorem Scan.isSpelled_of_mem {source : String} {t : Token} (h : t ∈ (scan source).tokens) :
    t.IsSpelled := by
  rcases mem_tokens h with ⟨heof, -⟩ | hmem
  · exact .inl heof
  · obtain ⟨rest, hcut⟩ := (tiles_pieces _).cut _ hmem
    generalize hpiece : Piece.token t.kind t.lexeme.toList t.literal = piece at hcut
    cases hcut with
    | lexeme hlexeme =>
      cases hpiece
      exact .inr (.inl hlexeme)
    | @string body _ hbody =>
      obtain ⟨hkind, -, hliteral⟩ := Piece.token.inj hpiece
      exact .inr (.inr ⟨hkind, String.ofList body, hliteral, by rwa [String.toList_ofList]⟩)
    | _ => cases hpiece

namespace Token.IsSpelled

variable {t : Token} {text : String}

/-- The kinds with fixed texts. -/
theorem fixed_mem (h : t.IsSpelled) (hkind : t.kind ∈ Scan.fixed.map (·.2)) :
    (t.lexeme, t.kind) ∈ Scan.fixed ∧ t.literal = .nil := by
  have hothers : ∀ kind ∈ Scan.fixed.map (·.2),
      kind ≠ .eof ∧ kind ≠ .string ∧ kind ≠ .number ∧ kind ≠ .identifier := by decide
  obtain ⟨heof, hstring, hnumber, hidentifier⟩ := hothers _ hkind
  rcases h with h | h | h
  · exact absurd h heof
  · generalize hchars : t.lexeme.toList = chars at h
    generalize t.kind = kind, t.literal = literal at h hstring hnumber hidentifier ⊢
    cases h with
    | operator hmem =>
      rw [String.toList_injective hchars]
      exact ⟨List.mem_append_left _ hmem, rfl⟩
    | keyword hmem =>
      rw [String.toList_injective hchars]
      exact ⟨List.mem_append_right _ hmem, rfl⟩
    | identifier => exact absurd rfl hidentifier
    | _ => exact absurd rfl hnumber
  · exact absurd h.1 hstring

/-- But for its line, a token with a fixed text is what its text stands for. -/
theorem unlined_eq_fixed (h : t.IsSpelled) (hkind : t.kind ∈ Scan.fixed.map (·.2)) :
    t.unlined = .fixed t.lexeme := by
  obtain ⟨hmem, hliteral⟩ := h.fixed_mem hkind
  have hlookup : ∀ p ∈ Scan.fixed, (Scan.fixed.lookup p.1).getD .missing = p.2 := by decide
  obtain ⟨kind, lexeme, literal, line⟩ := t
  obtain rfl : literal = .nil := hliteral
  exact congrArg (Token.mk · lexeme .nil 0) (hlookup _ hmem).symm

theorem lexeme_eq (h : t.IsSpelled) (hmem : (text, t.kind) ∈ Scan.fixed) : t.lexeme = text := by
  have hunique : ∀ p ∈ Scan.fixed, ∀ q ∈ Scan.fixed, p.2 = q.2 → p.1 = q.1 := by decide
  exact hunique _ (h.fixed_mem (List.mem_map_of_mem hmem)).1 _ hmem rfl

theorem identifier (h : t.IsSpelled) (hkind : t.kind = .identifier) :
    t.unlined = .identifier t.lexeme ∧ ∃ c cs, t.lexeme.toList = c :: cs ∧ isLetter c = true ∧
      (∀ d ∈ cs, isWordChar d = true) ∧ ∀ kind, (t.lexeme, kind) ∉ TokenKind.keywords := by
  obtain ⟨kind, lexeme, literal, line⟩ := t
  obtain rfl : kind = .identifier := hkind
  rcases h with h | h | h
  · cases h
  · generalize hchars : lexeme.toList = chars at h
    have hnone : ∀ p ∈ Scan.fixed, p.2 ≠ .identifier := by decide
    generalize hkind : TokenKind.identifier = kind at h
    simp only at hchars h hkind
    cases h with
    | operator hmem => exact absurd hkind.symm (hnone _ (List.mem_append_left _ hmem))
    | keyword hmem => exact absurd hkind.symm (hnone _ (List.mem_append_right _ hmem))
    | @identifier c cs hc hcs hkeyword =>
      refine ⟨rfl, c, cs, rfl, Scan.isLetter_iff.2 hc, Scan.forall_isWordChar.2 hcs,
        fun kind hmem => hkeyword kind ?_⟩
      rwa [← hchars, String.ofList_toList]
    | _ => cases hkind
  · cases h.1

end Token.IsSpelled

/-! ## Literals -/

mutual

/-- The literals in a tree, from left to right. -/
def Node.literals : Node → List Literal
  | .assign _ value => value.literals
  | .binary left _ right => left.literals ++ right.literals
  | .call callee _ arguments => callee.literals ++ Node.literalsAll arguments
  | .property object _ => object.literals
  | .group inner => inner.literals
  | .literal value => [value]
  | .logical left _ right => left.literals ++ right.literals
  | .setProperty object _ value => object.literals ++ value.literals
  | .superMethod _ _ => []
  | .receiver _ => []
  | .unary _ right => right.literals
  | .ident _ => []
  | .block statements => Node.literalsAll statements
  | .classDecl _ superclass methods => Node.literalsOption superclass ++ Node.literalsAll methods
  | .expression value => value.literals
  | .function _ _ body => Node.literalsAll body
  | .conditional condition thenBranch elseBranch =>
    condition.literals ++ thenBranch.literals ++ Node.literalsOption elseBranch
  | .print value => value.literals
  | .returning _ value => Node.literalsOption value
  | .varDecl _ initializer => Node.literalsOption initializer
  | .loop condition body => condition.literals ++ body.literals
  | .misfit _ => []

def Node.literalsAll : List Node → List Literal
  | [] => []
  | n :: rest => n.literals ++ Node.literalsAll rest

def Node.literalsOption : Option Node → List Literal
  | none => []
  | some n => n.literals

end

theorem Node.literalsAll_append (ns ns' : List Node) :
    Node.literalsAll (ns ++ ns') = Node.literalsAll ns ++ Node.literalsAll ns' := by
  induction ns with
  | nil => rfl
  | cons n ns ih => simp [Node.literalsAll, ih]

theorem Node.literals_subset {n : Node} {ns : List Node} (h : n ∈ ns) :
    n.literals ⊆ Node.literalsAll ns := by
  induction ns with
  | nil => cases h
  | cons m ns ih =>
    rcases List.mem_cons.1 h with rfl | h
    · exact List.subset_append_left _ _
    · exact List.subset_append_of_subset_right _ (ih h)

/-- A loop without a condition has a `true` in its place. -/
theorem literals_forTree (initializer condition increment : Option Node) (body : Node) :
    (forTree initializer condition increment body).literals ⊆
      .bool true :: (Node.literalsOption initializer ++ Node.literalsOption condition ++
        Node.literalsOption increment ++ body.literals) := by
  cases initializer <;> cases condition <;> cases increment <;>
    simp [forTree, Node.literals, Node.literalsAll, Node.literalsOption] <;> grind

def Phrase.literals : Phrase → List Literal
  | .expression n | .disjunction n | .conjunction n | .equality n | .comparison n | .term n
  | .factor n | .unary n | .access n | .primary n | .binding n | .function n | .statement n _
  | .declaration n => n.literals
  | .arguments ns | .methods ns | .declarations ns => Node.literalsAll ns
  | .optional n | .initializer n | .superclass n => Node.literalsOption n
  | .parameters _ => []

/-- The literal is `nil`, a truth value, or that of one of the tokens. -/
def Literal.ComesFrom (ts : List Token) (l : Literal) : Prop :=
  (l = .nil ∨ ∃ b, l = .bool b) ∨ ∃ t ∈ ts, t.kind ∈ [.number, .string] ∧ t.literal = l

theorem Literal.ComesFrom.mono {ts us : List Token} {l : Literal} (h : l.ComesFrom ts)
    (hsub : ∀ t ∈ ts, t ∈ us) : l.ComesFrom us :=
  h.imp id fun ⟨t, ht, hliteral⟩ => ⟨t, hsub t ht, hliteral⟩

/-- The literals in the tree of a phrase come from its tokens. -/
theorem Derives.mem_literals {nearest : Bool} {g : Phrase} {ts : List Token}
    (h : Derives nearest g ts) : ∀ l ∈ g.literals, l.ComesFrom ts := by
  induction h with
  | forLoop _ _ _ _ _ _ _ _ ihInitializer ihCondition ihIncrement ihBody =>
    intro l hl
    rcases List.mem_cons.1 (literals_forTree _ _ _ _ hl) with rfl | hl
    · exact .inl (.inr ⟨true, rfl⟩)
    · simp only [List.mem_append] at hl
      rcases hl with ((hl | hl) | hl) | hl
      · exact (ihInitializer l hl).mono fun t ht => by simp [ht]
      · exact (ihCondition l hl).mono fun t ht => by simp [ht]
      · exact (ihIncrement l hl).mono fun t ht => by simp [ht]
      · exact (ihBody l hl).mono fun t ht => by simp [ht]
  | _ =>
    simp only [Phrase.literals, Node.literals, Node.literalsAll, Node.literalsOption,
      Node.literalsAll_append, List.append_nil] at *
    grind [Literal.ComesFrom]

/-! ### Literals of a source -/

theorem Number.nearestDecimal_le (digits : Nat) (e : Int) :
    nearestDecimal digits e ≤ infinityBits := by
  simp only [nearestDecimal, nearestMagnitude]
  split
  · exact Nat.zero_le _
  · exact Nat.min_le_right _ _

/-- A number without a sign is its magnitude. -/
theorem Number.ofMagnitude_spec {m : Nat} (h : m ≤ infinityBits) :
    (ofMagnitude false m).isNegative = false ∧ (ofMagnitude false m).magnitude = m := by
  have hlt : m < signBit := h.trans_lt (by norm_num [infinityBits, leadingBit, signBit])
  have hbits : (ofMagnitude false m).bits.toNat = m := by
    simp only [ofMagnitude, Bool.false_eq_true, if_false]
    exact UInt64.toNat_ofNat_of_lt' (hlt.trans (by norm_num [signBit, UInt64.size]))
  rw [isNegative, magnitude, hbits, Nat.mod_eq_of_lt hlt]
  exact ⟨decide_eq_false hlt.not_ge, rfl⟩

/-- The literal is as a source can have it. -/
def Literal.IsSpelled : Literal → Prop
  | .number x => x.isNegative = false ∧ x.magnitude ≤ Number.infinityBits
  | .string text => '"' ∉ text.toList
  | _ => True

theorem Literal.isSpelled_ofDigits (whole fraction : List Char) :
    (Literal.number (.ofDigits whole fraction)).IsSpelled := by
  have hle := Number.nearestDecimal_le (Number.digitsValue (whole ++ fraction)) (-fraction.length)
  obtain ⟨hsign, hmagnitude⟩ := Number.ofMagnitude_spec hle
  exact ⟨hsign, hmagnitude.trans_le hle⟩

theorem Token.IsSpelled.literal {t : Token} (h : t.IsSpelled)
    (hkind : t.kind ∈ [.number, .string]) : t.literal.IsSpelled := by
  rcases h with h | h | ⟨-, text, htext, hquote⟩
  · simp [h] at hkind
  · generalize t.lexeme.toList = chars, t.literal = literal, t.kind = kind at h ⊢
    cases h with
    | whole => exact Literal.isSpelled_ofDigits _ _
    | fraction => exact Literal.isSpelled_ofDigits _ _
    | _ => trivial
  · rw [htext]
    exact hquote

/-- The literals of what is derived from spelled tokens are spelled. -/
theorem Derives.literals_isSpelled {nearest : Bool} {g : Phrase} {ts : List Token}
    (h : Derives nearest g ts) (hts : ∀ t ∈ ts, t.IsSpelled) : ∀ l ∈ g.literals, l.IsSpelled := by
  intro l hl
  rcases h.mem_literals l hl with (rfl | ⟨b, rfl⟩) | ⟨t, ht, hkind, rfl⟩
  · trivial
  · trivial
  · exact (hts t ht).literal hkind

end Lox
