import Mathlib.Tactic
import Lox.Proofs.Coherence
import Lox.Proofs.Lexical
import Lox.Proofs.Printing
import Lox.Proofs.Spelled

/-!
# Trees told by their texts

The symbolic expression of a parsed tree can be read off its text (`Node.legible_sexpr`), and from
the expression the tree can be made again, but for its lines (`Node.node_sexpr`): the word a list
opens with tells the node, and the number of operands tells the nodes of one operator apart. So
parsed trees with the same text are the same but for their lines (`Node.unlined_eq_of_printed`).
Numbers have to be finite for this, for the text of an infinite one is that of a name.
-/

namespace Lox

/-! ## Trees of expressions -/

namespace Head

def find? (text : String) : Option Head := all.find? (·.text = text)

theorem find?_text (head : Head) : find? head.text = some head := by
  cases head <;> decide +kernel

end Head

/-- The tree of a word that stands alone. -/
def SExpr.atom (number : String → Number) (text : String) : Node :=
  match TokenKind.keywords.lookup text with
  | some .nilWord => .literal .nil
  | some .trueWord => .literal (.bool true)
  | some .falseWord => .literal (.bool false)
  | some _ => .receiver ⟨.fixed text, none⟩
  | none =>
    if text.toList.head?.any Number.isDigit then .literal (.number (number text))
    else .ident ⟨.identifier text, none⟩

/-- The tree of an operator and its operands. -/
def SExpr.operation (operator : String) : List Node → Node
  | [right] => .unary (.fixed operator) right
  | [left, right] =>
    if operator ∈ ["and", "or"] then .logical left (.fixed operator) right
    else .binary left (.fixed operator) right
  | _ => default

def SExpr.name : SExpr → Token
  | .word text => .identifier text
  | _ => .missing

/-- The tree of a list that opens with the head. After it are these items, with these trees. -/
def SExpr.tree : Head → List SExpr → List Node → Node
  | .assignment, name :: _, [_, value] => .assign ⟨name.name, none⟩ value
  | .assignment, name :: _, [_, object, value] => .setProperty object name.name value
  | .property, name :: _, [_, object] => .property object name.name
  | .call, _, callee :: arguments => .call callee (.fixed ")") arguments
  | .group, _, [inner] => .group inner
  | .superMethod, method :: _, _ => .superMethod ⟨.fixed "super", none⟩ method.name
  | .block, _, statements => .block statements
  | .classDecl, name :: .word _ :: _, _ :: _ :: parent :: methods =>
    .classDecl name.name (some parent) methods
  | .classDecl, name :: _, _ :: methods => .classDecl name.name none methods
  | .expression, _, [value] => .expression value
  | .function, name :: .list params :: _, _ :: _ :: body =>
    .function name.name (params.map SExpr.name) body
  | .conditional, _, [condition, thenBranch] => .conditional condition thenBranch none
  | .alternative, _, [condition, thenBranch, elseBranch] =>
    .conditional condition thenBranch (some elseBranch)
  | .print, _, [value] => .print value
  | .returning, _, value => .returning (.fixed "return") value.head?
  | .varDecl, name :: _, _ :: initializer => .varDecl name.name initializer.head?
  | .loop, _, [condition, body] => .loop condition body
  | _, _, _ => default

mutual

/-- The tree of an expression. -/
def SExpr.node (number : String → Number) : SExpr → Node
  | .word text => SExpr.atom number text
  | .quoted text => .literal (.string text)
  | .list (.word text :: items) =>
    match Head.find? text with
    | some head => SExpr.tree head items (SExpr.nodes number items)
    | none => SExpr.operation text (SExpr.nodes number items)
  | .list _ => default

def SExpr.nodes (number : String → Number) : List SExpr → List Node
  | [] => []
  | x :: rest => x.node number :: SExpr.nodes number rest

end

theorem SExpr.node_headed (number : String → Number) (head : Head) (items : List SExpr) :
    (headed head items).node number = tree head items (nodes number items) := by
  rw [headed, node, Head.find?_text]

/-! ## Names and operators -/

theorem Scan.not_mem_delimiters {c : Char} (h : isWordChar c = true) : c ∉ SExpr.delimiters := by
  have hdelimiters : SExpr.delimiters.all (fun d => !isWordChar d) = true := by decide
  intro hmem
  have hc := List.all_eq_true.1 hdelimiters c hmem
  rw [h] at hc
  cases hc

theorem Head.legible (head : Head) : (SExpr.word head.text).Legible :=
  SExpr.legible_word_iff.2 (by cases head <;> decide)

theorem SExpr.legible_headed {head : Head} {items : List SExpr} :
    (headed head items).Legible ↔ LegibleAll items :=
  ⟨And.right, And.intro head.legible⟩

/-- The operators with operands. -/
def Operator.kinds : List TokenKind := binaryKinds ++ logicalKinds ++ unaryKinds

theorem Token.Is.legible {t : Token} (h : t.Is Token.IsSpelled .identifier) :
    (SExpr.word t.lexeme).Legible := by
  obtain ⟨-, c, cs, hchars, hc, hcs, -⟩ := h.1.identifier h.2
  rw [SExpr.Legible, hchars]
  refine ⟨List.cons_ne_nil _ _, List.forall_mem_cons.2 ⟨?_, fun d hd => ?_⟩⟩
  · exact Scan.not_mem_delimiters (by simp [Scan.isWordChar, hc])
  · exact Scan.not_mem_delimiters (hcs d hd)

/-- Operators have texts of their own, and those between truth values have the texts of words. -/
theorem Token.IsSpelled.operator {t : Token} (h : t.IsSpelled) {kinds : List TokenKind}
    (hkind : t.kind ∈ kinds) (hkinds : kinds ⊆ Operator.kinds) :
    t.unlined = .fixed t.lexeme ∧ (SExpr.word t.lexeme).Legible ∧ Head.find? t.lexeme = none ∧
      (t.lexeme ∈ ["and", "or"] ↔ t.kind ∈ Operator.logicalKinds) := by
  have hfixed : ∀ kind ∈ Operator.kinds, kind ∈ Scan.fixed.map (·.2) := by decide
  have hwords : ∀ p ∈ Scan.fixed, p.2 ∈ Operator.kinds →
      (p.1.toList ≠ [] ∧ p.1.toList.all (fun c => decide (c ∉ SExpr.delimiters)) = true) ∧
        Head.find? p.1 = none ∧ (p.1 ∈ ["and", "or"] ↔ p.2 ∈ Operator.logicalKinds) := by
    decide +kernel
  have hoperator := hkinds hkind
  obtain ⟨hmem, -⟩ := h.fixed_mem (hfixed _ hoperator)
  obtain ⟨hlegible, hhead, hlogical⟩ := hwords _ hmem hoperator
  exact ⟨h.unlined_eq_fixed (hfixed _ hoperator), SExpr.legible_word_iff.2 hlegible, hhead,
    hlogical⟩

/-! ## Reading trees -/

namespace Number

/-- A finite number without a sign. -/
def IsPlain (x : Number) : Prop := x.isNegative = false ∧ x.magnitude < infinityBits

theorem style_literal_isPlain : Style.literal.IsPlain := .inr rfl

theorem injOn_text : Set.InjOn (text .literal) {x | x.IsPlain} :=
  fun _ hx _ hy h => eq_of_text_eq style_literal_isPlain hx.1 hx.2 hy.1 hy.2 h

/-- The number with the text, if there is one. -/
noncomputable def ofText : String → Number :=
  haveI : Nonempty Number := ⟨zero⟩
  Function.invFunOn (text .literal) {x | x.IsPlain}

theorem IsPlain.ofText_text {x : Number} (h : x.IsPlain) : ofText (x.text .literal) = x :=
  haveI : Nonempty Number := ⟨zero⟩
  injOn_text.leftInvOn_invFunOn h

/-- The text of a number begins with a digit and has none of the delimiters. -/
theorem IsPlain.toList_text {x : Number} (h : x.IsPlain) :
    ∃ c cs, (x.text .literal).toList = c :: cs ∧ isDigit c = true ∧
      ∀ d ∈ (x.text .literal).toList, d ∉ SExpr.delimiters := by
  obtain ⟨v, hnumeral, -⟩ := exists_numeral style_literal_isPlain h.2
  obtain ⟨c, cs, hchars, hc⟩ := hnumeral.head
  rw [Number.toList_text h.1]
  have hdelimiters : SExpr.delimiters.all
      (fun d => !isDigit d && decide (d ∉ ['.', 'e', '+', '-'])) = true := by decide
  refine ⟨c, cs, hchars, hc, fun d hd hdelimiter => ?_⟩
  have hnone := List.all_eq_true.1 hdelimiters d hdelimiter
  rcases hnumeral.mem d hd with hd | hd <;> simp [hd] at hnone

end Number

/-- The literal can be read off its text. -/
def Literal.IsPlain : Literal → Prop
  | .number x => x.IsPlain
  | .string text => '"' ∉ text.toList
  | _ => True

theorem Literal.IsPlain.legible {l : Literal} (h : l.IsPlain) : l.sexpr.Legible := by
  cases l with
  | number x =>
    obtain ⟨c, cs, hchars, -, hdelimiters⟩ := Number.IsPlain.toList_text h
    exact ⟨by simp [Literal.printed, hchars], hdelimiters⟩
  | string text => exact h
  | nil => exact SExpr.legible_word_iff.2 (by decide)
  | bool b => exact SExpr.legible_word_iff.2 (by cases b <;> decide)

theorem SExpr.atom_number (number : String → Number) {text : String} {c : Char} {cs : List Char}
    (htext : text.toList = c :: cs) (hc : Number.isDigit c = true) :
    atom number text = .literal (.number (number text)) := by
  have hword : TokenKind.keywords.lookup text = none := by
    rw [List.lookup_eq_none_iff]
    intro p hp
    obtain ⟨d, ds, hd, hletter, -⟩ := Scan.keyword_isWord p hp
    refine bne_iff_ne.2 ?_
    rintro rfl
    rw [htext] at hd
    obtain ⟨rfl, -⟩ := List.cons.inj hd
    rw [Scan.not_isLetter_of_isDigit hc] at hletter
    cases hletter
  simp [atom, hword, htext, hc]

theorem Literal.IsPlain.node_sexpr {l : Literal} (h : l.IsPlain) :
    l.sexpr.node .ofText = .literal l := by
  cases l with
  | number x =>
    obtain ⟨c, cs, hchars, hdigit, -⟩ := Number.IsPlain.toList_text h
    have hatom := SExpr.atom_number .ofText hchars hdigit
    rwa [Number.IsPlain.ofText_text h] at hatom
  | string text => rfl
  | nil => rfl
  | bool b => cases b <;> rfl

theorem Token.Is.atom {t : Token} (h : t.Is Token.IsSpelled .identifier)
    (number : String → Number) : SExpr.atom number t.lexeme = .ident ⟨t.unlined, none⟩ := by
  obtain ⟨hunlined, c, cs, hchars, hc, -, hkeyword⟩ := h.1.identifier h.2
  have hword : TokenKind.keywords.lookup t.lexeme = none := by
    rw [List.lookup_eq_none_iff]
    rintro ⟨text, kind⟩ hp
    refine bne_iff_ne.2 ?_
    rintro rfl
    exact hkeyword kind hp
  have hdigit : Number.isDigit c = false := by
    by_contra hdigit
    rw [Bool.not_eq_false] at hdigit
    rw [Scan.not_isLetter_of_isDigit hdigit] at hc
    cases hc
  simp [SExpr.atom, hword, hchars, hdigit, hunlined]

theorem SExpr.legible_params {params : List Token}
    (h : ∀ param ∈ params, param.Is Token.IsSpelled .identifier) :
    LegibleAll (params.map (.word ·.lexeme)) := by
  induction params with
  | nil => trivial
  | cons param params ih =>
    obtain ⟨hparam, hparams⟩ := List.forall_mem_cons.1 h
    exact ⟨hparam.legible, ih hparams⟩

mutual

/-- The expression of a parsed tree can be read off its text. -/
theorem Node.legible_sexpr : ∀ {role : Role} (n : Node), n.Fits Token.IsSpelled role →
    (∀ l ∈ n.literals, l.IsPlain) → n.sexpr.Legible
  | _, .assign target value, h, hl => by
    obtain ⟨-, ⟨htarget, -⟩, hvalue⟩ := h
    exact SExpr.legible_headed.2 ⟨htarget.legible, value.legible_sexpr hvalue hl, trivial⟩
  | _, .binary left operator right, h, hl => by
    obtain ⟨-, ⟨hoperator, hkind⟩, hleft, hright⟩ := h
    obtain ⟨hlleft, hlright⟩ := List.forall_mem_append.1 hl
    exact ⟨(hoperator.operator hkind (by decide)).2.1, left.legible_sexpr hleft hlleft,
      right.legible_sexpr hright hlright, trivial⟩
  | _, .call callee _ arguments, h, hl => by
    obtain ⟨-, -, hcallee, harguments⟩ := h
    obtain ⟨hlcallee, hlarguments⟩ := List.forall_mem_append.1 hl
    exact SExpr.legible_headed.2
      ⟨callee.legible_sexpr hcallee hlcallee,
        Node.legible_sexprAll arguments harguments hlarguments⟩
  | _, .property object name, h, hl => by
    obtain ⟨-, hname, hobject⟩ := h
    exact SExpr.legible_headed.2 ⟨hname.legible, object.legible_sexpr hobject hl, trivial⟩
  | _, .group inner, h, hl => SExpr.legible_headed.2 ⟨inner.legible_sexpr h.2 hl, trivial⟩
  | _, .literal value, _, hl => (hl value (List.mem_singleton.2 rfl)).legible
  | _, .logical left operator right, h, hl => by
    obtain ⟨-, ⟨hoperator, hkind⟩, hleft, hright⟩ := h
    obtain ⟨hlleft, hlright⟩ := List.forall_mem_append.1 hl
    exact ⟨(hoperator.operator hkind (by decide)).2.1, left.legible_sexpr hleft hlleft,
      right.legible_sexpr hright hlright, trivial⟩
  | _, .setProperty object name value, h, hl => by
    obtain ⟨-, hname, hobject, hvalue⟩ := h
    obtain ⟨hlobject, hlvalue⟩ := List.forall_mem_append.1 hl
    exact SExpr.legible_headed.2 ⟨hname.legible, object.legible_sexpr hobject hlobject,
      value.legible_sexpr hvalue hlvalue, trivial⟩
  | _, .superMethod _ method, h, _ => by
    obtain ⟨-, -, hmethod⟩ := h
    exact SExpr.legible_headed.2 ⟨hmethod.legible, trivial⟩
  | _, .receiver _, _, _ => SExpr.legible_word_iff.2 (by decide)
  | _, .unary operator right, h, hl => by
    obtain ⟨-, ⟨hoperator, hkind⟩, hright⟩ := h
    exact ⟨(hoperator.operator hkind (by decide)).2.1, right.legible_sexpr hright hl, trivial⟩
  | _, .ident name, h, _ => h.2.1.legible
  | _, .block statements, h, hl =>
    SExpr.legible_headed.2 (Node.legible_sexprAll statements h.2 hl)
  | _, .classDecl name none methods, h, hl => by
    obtain ⟨-, hname, -, hmethods⟩ := h
    exact SExpr.legible_headed.2 ⟨hname.legible, Node.legible_sexprAll methods hmethods hl⟩
  | _, .classDecl name (some parent) methods, h, hl => by
    obtain ⟨-, hname, hparent, hmethods⟩ := h
    obtain ⟨reference, rfl, hreference, -⟩ := Resolver.eq_ident_of_fitsSuperclass hparent
    exact SExpr.legible_headed.2 ⟨hname.legible, SExpr.legible_word_iff.2 (by decide),
      hreference.legible, Node.legible_sexprAll methods hmethods hl⟩
  | _, .expression value, h, hl => SExpr.legible_headed.2 ⟨value.legible_sexpr h.2 hl, trivial⟩
  | _, .function name params body, h, hl => by
    obtain ⟨-, hname, hparams, hbody⟩ := h
    exact SExpr.legible_headed.2 ⟨hname.legible, SExpr.legible_params hparams,
      Node.legible_sexprAll body hbody hl⟩
  | _, .conditional condition thenBranch none, h, hl => by
    obtain ⟨-, hcondition, hthen, -⟩ := h
    obtain ⟨hl, -⟩ := List.forall_mem_append.1 hl
    obtain ⟨hlcondition, hlthen⟩ := List.forall_mem_append.1 hl
    exact SExpr.legible_headed.2 ⟨condition.legible_sexpr hcondition hlcondition,
      thenBranch.legible_sexpr hthen hlthen, trivial⟩
  | _, .conditional condition thenBranch (some elseBranch), h, hl => by
    obtain ⟨-, hcondition, hthen, helse⟩ := h
    obtain ⟨hl, hlelse⟩ := List.forall_mem_append.1 hl
    obtain ⟨hlcondition, hlthen⟩ := List.forall_mem_append.1 hl
    exact SExpr.legible_headed.2 ⟨condition.legible_sexpr hcondition hlcondition,
      thenBranch.legible_sexpr hthen hlthen, elseBranch.legible_sexpr helse hlelse, trivial⟩
  | _, .print value, h, hl => SExpr.legible_headed.2 ⟨value.legible_sexpr h.2 hl, trivial⟩
  | _, .returning _ value, h, hl =>
    SExpr.legible_headed.2 (Node.legible_sexprOption value h.2.2 hl)
  | _, .varDecl name initializer, h, hl => by
    obtain ⟨-, hname, hinitializer⟩ := h
    exact SExpr.legible_headed.2
      ⟨hname.legible, Node.legible_sexprOption initializer hinitializer hl⟩
  | _, .loop condition body, h, hl => by
    obtain ⟨-, hcondition, hbody⟩ := h
    obtain ⟨hlcondition, hlbody⟩ := List.forall_mem_append.1 hl
    exact SExpr.legible_headed.2 ⟨condition.legible_sexpr hcondition hlcondition,
      body.legible_sexpr hbody hlbody, trivial⟩

theorem Node.legible_sexprAll : ∀ {role : Role} (ns : List Node),
    Node.FitAll Token.IsSpelled role ns → (∀ l ∈ Node.literalsAll ns, l.IsPlain) →
    SExpr.LegibleAll (Node.sexprAll ns)
  | _, [], _, _ => trivial
  | _, n :: rest, h, hl => by
    obtain ⟨hln, hlrest⟩ := List.forall_mem_append.1 hl
    exact ⟨n.legible_sexpr h.1 hln, Node.legible_sexprAll rest h.2 hlrest⟩

theorem Node.legible_sexprOption : ∀ {role : Role} (n : Option Node),
    Node.FitsOption Token.IsSpelled role n → (∀ l ∈ Node.literalsOption n, l.IsPlain) →
    SExpr.LegibleAll (Node.sexprOption n)
  | _, none, _, _ => trivial
  | _, some n, h, hl => ⟨n.legible_sexpr h hl, trivial⟩

end

theorem Token.Is.name_sexpr {t : Token} (h : t.Is Token.IsSpelled .identifier) :
    (SExpr.word t.lexeme).name = t.unlined :=
  (h.1.identifier h.2).1.symm

theorem Token.Is.unlined_eq {t : Token} {kind : TokenKind} (h : t.Is Token.IsSpelled kind)
    {text : String} (hmem : (text, kind) ∈ Scan.fixed) : t.unlined = .fixed text := by
  obtain ⟨ht, rfl⟩ := h
  rw [ht.unlined_eq_fixed (List.mem_map_of_mem hmem), ht.lexeme_eq hmem]

theorem Reference.IsFresh.unlined_eq {r : Reference} {kind : TokenKind}
    (h : r.IsFresh Token.IsSpelled kind) : r.unlined = ⟨r.name.unlined, none⟩ :=
  congrArg (Reference.mk _) h.2

theorem Reference.IsFresh.node_ident {r : Reference} {number : String → Number}
    (h : r.IsFresh Token.IsSpelled .identifier) :
    (Node.ident r).sexpr.node number = (Node.ident r).unlined := by
  rw [Node.unlined, h.unlined_eq]
  exact h.1.atom number

theorem SExpr.node_operation {text : String} (h : Head.find? text = none)
    (number : String → Number) (items : List SExpr) :
    (SExpr.list (.word text :: items)).node number = operation text (nodes number items) := by
  rw [node, h]

/-- The items after the name of a class are its methods, unless there is a word among them. -/
theorem SExpr.tree_methods {ok : Token → Prop} {methods : List Node}
    (h : Node.FitAll ok .method methods) (name : SExpr) (first : Node) (trees : List Node) :
    tree .classDecl (name :: Node.sexprAll methods) (first :: trees) =
      .classDecl name.name none trees := by
  cases methods with
  | nil => rfl
  | cons method methods =>
    have hmethod := h.1
    cases method with
    | function name params body => rfl
    | _ => simp [Node.Fits, Role.IsStatement] at hmethod

mutual

/-- A parsed tree can be made from its expression, but for its lines. -/
theorem Node.node_sexpr : ∀ {role : Role} (n : Node), n.Fits Token.IsSpelled role →
    (∀ l ∈ n.literals, l.IsPlain) → n.sexpr.node .ofText = n.unlined
  | _, .assign target value, h, hl => by
    obtain ⟨-, htarget, hvalue⟩ := h
    rw [sexpr, SExpr.node_headed, unlined, htarget.unlined_eq]
    simp only [SExpr.nodes, SExpr.tree, htarget.1.name_sexpr, value.node_sexpr hvalue hl]
  | _, .binary left operator right, h, hl => by
    obtain ⟨-, ⟨hoperator, hkind⟩, hleft, hright⟩ := h
    obtain ⟨hlleft, hlright⟩ := List.forall_mem_append.1 hl
    have hbinary : ∀ kind ∈ Operator.binaryKinds, kind ∉ Operator.logicalKinds := by decide
    obtain ⟨hunlined, -, hhead, hlogical⟩ := hoperator.operator hkind (by decide)
    rw [sexpr, SExpr.node_operation hhead, unlined, hunlined]
    simp only [SExpr.nodes, SExpr.operation, left.node_sexpr hleft hlleft,
      right.node_sexpr hright hlright, hlogical, hbinary _ hkind, if_false]
  | _, .call callee paren arguments, h, hl => by
    obtain ⟨-, hparen, hcallee, harguments⟩ := h
    obtain ⟨hlcallee, hlarguments⟩ := List.forall_mem_append.1 hl
    have hunlined : paren.unlined = .fixed ")" := hparen.unlined_eq (by decide)
    rw [sexpr, SExpr.node_headed, unlined, hunlined]
    simp only [SExpr.nodes, SExpr.tree, callee.node_sexpr hcallee hlcallee,
      Node.nodes_sexprAll arguments harguments hlarguments]
  | _, .property object name, h, hl => by
    obtain ⟨-, hname, hobject⟩ := h
    rw [sexpr, SExpr.node_headed, unlined]
    simp only [SExpr.nodes, SExpr.tree, hname.name_sexpr, object.node_sexpr hobject hl]
  | _, .group inner, h, hl => by
    rw [sexpr, SExpr.node_headed, unlined]
    simp only [SExpr.nodes, SExpr.tree, inner.node_sexpr h.2 hl]
  | _, .literal value, _, hl => (hl value (List.mem_singleton.2 rfl)).node_sexpr
  | _, .logical left operator right, h, hl => by
    obtain ⟨-, ⟨hoperator, hkind⟩, hleft, hright⟩ := h
    obtain ⟨hlleft, hlright⟩ := List.forall_mem_append.1 hl
    obtain ⟨hunlined, -, hhead, hlogical⟩ := hoperator.operator hkind (by decide)
    rw [sexpr, SExpr.node_operation hhead, unlined, hunlined]
    simp only [SExpr.nodes, SExpr.operation, left.node_sexpr hleft hlleft,
      right.node_sexpr hright hlright, hlogical, hkind, if_true]
  | _, .setProperty object name value, h, hl => by
    obtain ⟨-, hname, hobject, hvalue⟩ := h
    obtain ⟨hlobject, hlvalue⟩ := List.forall_mem_append.1 hl
    rw [sexpr, SExpr.node_headed, unlined]
    simp only [SExpr.nodes, SExpr.tree, hname.name_sexpr, object.node_sexpr hobject hlobject,
      value.node_sexpr hvalue hlvalue]
  | _, .superMethod keyword method, h, _ => by
    obtain ⟨-, hkeyword, hmethod⟩ := h
    have hunlined : keyword.name.unlined = .fixed "super" := hkeyword.1.unlined_eq (by decide)
    rw [sexpr, SExpr.node_headed, unlined, hkeyword.unlined_eq, hunlined, ← hmethod.name_sexpr]
    rfl
  | _, .receiver keyword, h, _ => by
    obtain ⟨-, hkeyword⟩ := h
    have hunlined : keyword.name.unlined = .fixed "this" := hkeyword.1.unlined_eq (by decide)
    rw [unlined, hkeyword.unlined_eq, hunlined]
    rfl
  | _, .unary operator right, h, hl => by
    obtain ⟨-, ⟨hoperator, hkind⟩, hright⟩ := h
    obtain ⟨hunlined, -, hhead, -⟩ := hoperator.operator hkind (by decide)
    rw [sexpr, SExpr.node_operation hhead, unlined, hunlined]
    simp only [SExpr.nodes, SExpr.operation, right.node_sexpr hright hl]
  | _, .ident name, h, _ => h.2.node_ident
  | _, .block statements, h, hl => by
    rw [sexpr, SExpr.node_headed, unlined, Node.nodes_sexprAll statements h.2 hl]
    rfl
  | _, .classDecl name none methods, h, hl => by
    obtain ⟨-, hname, -, hmethods⟩ := h
    rw [sexpr, SExpr.node_headed, unlined, SExpr.nodes, SExpr.tree_methods hmethods,
      hname.name_sexpr, Node.nodes_sexprAll methods hmethods hl]
    rfl
  | _, .classDecl name (some parent) methods, h, hl => by
    obtain ⟨-, hname, hparent, hmethods⟩ := h
    obtain ⟨reference, rfl, hreference⟩ := Resolver.eq_ident_of_fitsSuperclass hparent
    rw [sexpr, SExpr.node_headed, unlined]
    simp only [SExpr.nodes, SExpr.tree, hname.name_sexpr, hreference.node_ident, Node.unlinedOption,
      Node.nodes_sexprAll methods hmethods hl]
  | _, .expression value, h, hl => by
    rw [sexpr, SExpr.node_headed, unlined]
    simp only [SExpr.nodes, SExpr.tree, value.node_sexpr h.2 hl]
  | _, .function name params body, h, hl => by
    obtain ⟨-, hname, hparams, hbody⟩ := h
    have hnames : (params.map (SExpr.word ·.lexeme)).map SExpr.name = params.map Token.unlined := by
      rw [List.map_map]
      exact List.map_congr_left fun param hparam => (hparams param hparam).name_sexpr
    rw [sexpr, SExpr.node_headed, unlined]
    simp only [SExpr.nodes, SExpr.tree, hname.name_sexpr, hnames, Node.nodes_sexprAll body hbody hl]
  | _, .conditional condition thenBranch none, h, hl => by
    obtain ⟨-, hcondition, hthen, -⟩ := h
    obtain ⟨hl, -⟩ := List.forall_mem_append.1 hl
    obtain ⟨hlcondition, hlthen⟩ := List.forall_mem_append.1 hl
    rw [sexpr, SExpr.node_headed, unlined]
    simp only [SExpr.nodes, SExpr.tree, condition.node_sexpr hcondition hlcondition,
      thenBranch.node_sexpr hthen hlthen, Node.unlinedOption]
  | _, .conditional condition thenBranch (some elseBranch), h, hl => by
    obtain ⟨-, hcondition, hthen, helse⟩ := h
    obtain ⟨hl, hlelse⟩ := List.forall_mem_append.1 hl
    obtain ⟨hlcondition, hlthen⟩ := List.forall_mem_append.1 hl
    rw [sexpr, SExpr.node_headed, unlined]
    simp only [SExpr.nodes, SExpr.tree, condition.node_sexpr hcondition hlcondition,
      thenBranch.node_sexpr hthen hlthen, elseBranch.node_sexpr helse hlelse, Node.unlinedOption]
  | _, .print value, h, hl => by
    rw [sexpr, SExpr.node_headed, unlined]
    simp only [SExpr.nodes, SExpr.tree, value.node_sexpr h.2 hl]
  | _, .returning keyword value, h, hl => by
    obtain ⟨-, hkeyword, hvalue⟩ := h
    have hunlined : keyword.unlined = .fixed "return" := hkeyword.unlined_eq (by decide)
    rw [sexpr, SExpr.node_headed, unlined, hunlined, ← Node.head?_nodes_sexprOption value hvalue hl]
    rfl
  | _, .varDecl name initializer, h, hl => by
    obtain ⟨-, hname, hinitializer⟩ := h
    rw [sexpr, SExpr.node_headed, unlined, ← hname.name_sexpr,
      ← Node.head?_nodes_sexprOption initializer hinitializer hl]
    rfl
  | _, .loop condition body, h, hl => by
    obtain ⟨-, hcondition, hbody⟩ := h
    obtain ⟨hlcondition, hlbody⟩ := List.forall_mem_append.1 hl
    rw [sexpr, SExpr.node_headed, unlined]
    simp only [SExpr.nodes, SExpr.tree, condition.node_sexpr hcondition hlcondition,
      body.node_sexpr hbody hlbody]

theorem Node.nodes_sexprAll : ∀ {role : Role} (ns : List Node),
    Node.FitAll Token.IsSpelled role ns → (∀ l ∈ Node.literalsAll ns, l.IsPlain) →
    SExpr.nodes .ofText (Node.sexprAll ns) = Node.unlinedAll ns
  | _, [], _, _ => rfl
  | _, n :: rest, h, hl => by
    obtain ⟨hln, hlrest⟩ := List.forall_mem_append.1 hl
    rw [sexprAll, SExpr.nodes, unlinedAll, n.node_sexpr h.1 hln,
      Node.nodes_sexprAll rest h.2 hlrest]

theorem Node.head?_nodes_sexprOption : ∀ {role : Role} (n : Option Node),
    Node.FitsOption Token.IsSpelled role n → (∀ l ∈ Node.literalsOption n, l.IsPlain) →
    (SExpr.nodes .ofText (Node.sexprOption n)).head? = Node.unlinedOption n
  | _, none, _, _ => rfl
  | _, some n, h, hl => congrArg some (n.node_sexpr h hl)

end

/-! ## Parsed sources -/

/-- Trees with the same text are the same, but for their lines. -/
theorem Node.unlined_eq_of_printed {role role' : Role} {n n' : Node}
    (hn : n.Fits Token.IsSpelled role) (hl : ∀ l ∈ n.literals, l.IsPlain)
    (hn' : n'.Fits Token.IsSpelled role') (hl' : ∀ l ∈ n'.literals, l.IsPlain)
    (h : n.printed = n'.printed) : n.unlined = n'.unlined := by
  rw [n.printed_eq hn, n'.printed_eq hn'] at h
  have hchars : n.sexpr.chars = n'.sexpr.chars := by simpa using congrArg String.toList h
  have hsexpr : n.sexpr = n'.sexpr :=
    SExpr.eq_of_chars_eq (n.legible_sexpr hn hl) (n'.legible_sexpr hn' hl') hchars
  rw [← n.node_sexpr hn hl, hsexpr, n'.node_sexpr hn' hl']

theorem Literal.IsSpelled.isPlain {l : Literal} (h : l.IsSpelled)
    (hfinite : ∀ x, l = .number x → x.isInfinite = false) : l.IsPlain := by
  cases l with
  | number x =>
    have hne : x.magnitude ≠ Number.infinityBits := by
      simpa [Number.isInfinite] using hfinite x rfl
    exact ⟨h.1, lt_of_le_of_ne h.2 hne⟩
  | _ => exact h

namespace Session

/-- Where nothing is found wrong, the statements are those of the program. -/
theorem gives_of_parse {s : Session} {source : String} {ns : List Node}
    (hclean : s.parseDiagnostics source = []) (hparsed : (s.parse source).2 = .ok ns) :
    ∃ rest, (Parser.program s.limits.grammar).Gives (scan source).tokens ns rest := by
  obtain ⟨-, ⟨-, crash, hcrash⟩ | ⟨ns', hns, hok⟩⟩ := s.parse_diagnoses source
  · rw [hcrash] at hparsed
    cases hparsed
  · obtain rfl : ns' = ns := Except.ok.inj (hok.symm.trans hparsed)
    obtain ⟨-, hcomplaints⟩ := List.append_eq_nil_iff.1 hclean
    have hdeep : (Parser.program s.limits.grammar (scan source).tokens).result ≠ .tooDeep := by
      intro hdeep
      rw [statements?, hdeep] at hns
      cases hns
    obtain ⟨found, rest, hgives⟩ := Parser.gives_of_complaints (ended_tokens source)
      (List.map_eq_nil_iff.1 hcomplaints) hdeep
    rw [statements?, hgives] at hns
    obtain rfl : found = ns' := Option.some.inj hns
    exact ⟨rest, hgives⟩

/-- The trees of a source in which nothing is found wrong are made of its tokens. -/
theorem plain_of_parse {s : Session} {source : String} {ns : List Node}
    (hclean : s.parseDiagnostics source = []) (hparsed : (s.parse source).2 = .ok ns) {n : Node}
    (hn : n ∈ ns) (hfinite : ∀ x, .number x ∈ n.literals → x.isInfinite = false) :
    n.Fits Token.IsSpelled .declaration ∧ ∀ l ∈ n.literals, l.IsPlain := by
  have hspelled : ∀ t ∈ (scan source).tokens, t.IsSpelled := fun _ => Scan.isSpelled_of_mem
  obtain ⟨rest, hgives⟩ := gives_of_parse hclean hparsed
  have hfits := Parser.fits_program s.limits.grammar (scan source).tokens hspelled
  rw [hgives] at hfits
  obtain ⟨ts, last, us, htokens, -, hderives, -⟩ :=
    Parser.program_derived true (ended_tokens source) hgives
  have hts : ∀ t ∈ ts, t.IsSpelled := by
    intro t ht
    exact hspelled t (htokens ▸ List.mem_append_left _ ht)
  refine ⟨fits_of_fitAll hfits.2 hn, fun l hl => ?_⟩
  refine (hderives.literals_isSpelled hts l (Node.literals_subset hn hl)).isPlain ?_
  rintro x rfl
  exact hfinite x hl

/-- Every statement of a source in which nothing is found wrong has a text. Two of them, be they of
one source or of two, in which all numbers are finite, have the same text only if they are the same
but for the lines of their tokens. -/
theorem printed_unambiguous (s s' : Session) {source source' : String} {ns ns' : List Node}
    (hclean : s.parseDiagnostics source = []) (hparsed : (s.parse source).2 = .ok ns)
    (hclean' : s'.parseDiagnostics source' = []) (hparsed' : (s'.parse source').2 = .ok ns')
    {n n' : Node} (hn : n ∈ ns) (hn' : n' ∈ ns')
    (hfinite : ∀ x, .number x ∈ n.literals → x.isInfinite = false)
    (hfinite' : ∀ x, .number x ∈ n'.literals → x.isInfinite = false) :
    n.printed? = .ok n.printed ∧ n'.printed? = .ok n'.printed ∧
      (n.printed = n'.printed → n.unlined = n'.unlined) := by
  obtain ⟨hfits, hplain⟩ := plain_of_parse hclean hparsed hn hfinite
  obtain ⟨hfits', hplain'⟩ := plain_of_parse hclean' hparsed' hn' hfinite'
  exact ⟨Node.printed?_eq hfits, Node.printed?_eq hfits',
    Node.unlined_eq_of_printed hfits hplain hfits' hplain'⟩

/-- A class on one line and on several, with a string that looks like the end of a list. -/
theorem printed_unambiguous_respaced :
    let source := "class A < B \x7b f(x) \x7b for (;;) this.p = \"a) (b\" + -1.5 or x; \x7d \x7d"
    let source' := "class A<B \x7b\n f(x) \x7b // p\n for(;;) this.p=\"a) (b\"+-1.50\nor x;\x7d\x7d"
    let text := "(class A < B (fun f (x) (while true (; (= p this (or (+ \"a) (b\" (- 1.5)) x))))))"
    ∃ n n', (parse {} source).2 = .ok [n] ∧ (parse {} source').2 = .ok [n'] ∧
      n.tokens.map (·.line) = [1, 1, 1, 1, 1, 1, 1, 1, 1, 1] ∧
      n'.tokens.map (·.line) = [1, 1, 2, 2, 3, 3, 4, 3, 3, 4] ∧
      n.printed? = .ok text ∧ n'.printed? = .ok text ∧ n.unlined = n'.unlined := by
  intro source source' text
  let literals : List Literal := [.bool true, .string "a) (b", .number (.ofDigits ['1'] ['5'])]
  have hfinite : ∀ x, .number x ∈ literals → x.isInfinite = false := by
    intro x hx
    obtain rfl : x = .ofDigits ['1'] ['5'] := by simpa [literals] using hx
    decide +kernel
  let facts (n : Node) := (n.tokens.map (·.line), n.printed, n.literals)
  have hparsed : ∀ source lines, ((parse {} source).2.toOption.map (·.map facts)) =
      some [(lines, text, literals)] → ∃ n, (parse {} source).2 = .ok [n] ∧
        n.tokens.map (·.line) = lines ∧ n.printed = text ∧ n.literals = literals := by
    intro source lines hfacts
    cases hns : (parse {} source).2 with
    | error crash =>
      rw [hns] at hfacts
      cases hfacts
    | ok ns =>
      rw [hns] at hfacts
      obtain ⟨n, rfl, hn⟩ := List.map_eq_singleton_iff.1 (Option.some.inj hfacts)
      obtain ⟨hlines, htext, hliterals⟩ : _ ∧ _ ∧ _ := by simpa [facts] using hn
      exact ⟨n, rfl, hlines, htext, hliterals⟩
  obtain ⟨n, hn, hlines, htext, hliterals⟩ :=
    hparsed source [1, 1, 1, 1, 1, 1, 1, 1, 1, 1] (by decide +kernel)
  obtain ⟨n', hn', hlines', htext', hliterals'⟩ :=
    hparsed source' [1, 1, 2, 2, 3, 3, 4, 3, 3, 4] (by decide +kernel)
  obtain ⟨hprinted, hprinted', hsame⟩ := printed_unambiguous {} {}
    (List.length_eq_zero_iff.1 (by decide +kernel)) hn
    (List.length_eq_zero_iff.1 (by decide +kernel)) hn'
    (List.mem_singleton.2 rfl) (List.mem_singleton.2 rfl) (hliterals ▸ hfinite)
    (hliterals' ▸ hfinite)
  rw [htext] at hprinted
  rw [htext'] at hprinted'
  exact ⟨n, n', hn, hn', hlines, hlines', hprinted, hprinted', hsame (htext.trans htext'.symm)⟩

end Session

end Lox
