import Mathlib.Tactic
import Lox.Proofs.Following
import Lox.Proofs.SExpr
import Lox.Tree.Printed

/-!
# The text of a tree

A tree is printed as a symbolic expression: a list that opens with a head or an operator, a word, or
a text in quotes. What parsing makes can be printed (`Node.printed?_eq`), and its text is that of
the expression (`Node.printed_eq`).
-/

namespace Lox

/-! ## Expressions of trees -/

/-- What a list opens with, if it is no operator. -/
inductive Head where
  | assignment
  | property
  | call
  | group
  | superMethod
  | block
  | classDecl
  | expression
  | function
  | conditional
  | alternative
  | print
  | returning
  | varDecl
  | loop
deriving DecidableEq

namespace Head

def all : List Head :=
  [assignment, property, call, group, superMethod, block, classDecl, expression, function,
   conditional, alternative, print, returning, varDecl, loop]

def text : Head → String
  | assignment => "="
  | property => "."
  | call => "call"
  | group => "group"
  | superMethod => "super"
  | block => "block"
  | classDecl => "class"
  | expression => ";"
  | function => "fun"
  | conditional => "if"
  | alternative => "if-else"
  | print => "print"
  | returning => "return"
  | varDecl => "var"
  | loop => "while"

end Head

/-- A list that opens with the head. -/
def SExpr.headed (head : Head) (items : List SExpr) : SExpr := .list (.word head.text :: items)

def Literal.sexpr : Literal → SExpr
  | .string text => .quoted text
  | value => .word value.printed

mutual

def Node.sexpr : Node → SExpr
  | .assign target value => .headed .assignment [.word target.name.lexeme, value.sexpr]
  | .binary left operator right => .list [.word operator.lexeme, left.sexpr, right.sexpr]
  | .call callee _ arguments => .headed .call (callee.sexpr :: Node.sexprAll arguments)
  | .property object name => .headed .property [.word name.lexeme, object.sexpr]
  | .group inner => .headed .group [inner.sexpr]
  | .literal value => value.sexpr
  | .logical left operator right => .list [.word operator.lexeme, left.sexpr, right.sexpr]
  | .setProperty object name value =>
    .headed .assignment [.word name.lexeme, object.sexpr, value.sexpr]
  | .superMethod _ method => .headed .superMethod [.word method.lexeme]
  | .receiver _ => .word "this"
  | .unary operator right => .list [.word operator.lexeme, right.sexpr]
  | .ident name => .word name.name.lexeme
  | .block statements => .headed .block (Node.sexprAll statements)
  | .classDecl name none methods =>
    .headed .classDecl (.word name.lexeme :: Node.sexprAll methods)
  | .classDecl name (some parent) methods =>
    .headed .classDecl (.word name.lexeme :: .word "<" :: parent.sexpr :: Node.sexprAll methods)
  | .expression value => .headed .expression [value.sexpr]
  | .function name params body =>
    .headed .function
      (.word name.lexeme :: .list (params.map (.word ·.lexeme)) :: Node.sexprAll body)
  | .conditional condition thenBranch none =>
    .headed .conditional [condition.sexpr, thenBranch.sexpr]
  | .conditional condition thenBranch (some elseBranch) =>
    .headed .alternative [condition.sexpr, thenBranch.sexpr, elseBranch.sexpr]
  | .print value => .headed .print [value.sexpr]
  | .returning _ value => .headed .returning (Node.sexprOption value)
  | .varDecl name initializer =>
    .headed .varDecl (.word name.lexeme :: Node.sexprOption initializer)
  | .loop condition body => .headed .loop [condition.sexpr, body.sexpr]
  | .misfit _ => .list []

def Node.sexprAll : List Node → List SExpr
  | [] => []
  | n :: rest => n.sexpr :: Node.sexprAll rest

def Node.sexprOption : Option Node → List SExpr
  | none => []
  | some n => [n.sexpr]

end

/-! ## The text of a tree -/

/-- The text of an expression. -/
def SExpr.text (x : SExpr) : String := String.ofList x.chars

@[simp]
theorem SExpr.toList_text (x : SExpr) : x.text.toList = x.chars := String.toList_ofList

@[simp]
theorem SExpr.text_word (text : String) : (SExpr.word text).text = text := String.ofList_toList

theorem toList_intercalate_space (first : String) (rest : List SExpr) :
    (" ".intercalate (first :: rest.map SExpr.text)).toList = first.toList ++ SExpr.more rest := by
  induction rest generalizing first with
  | nil => simp [SExpr.more]
  | cons x rest ih =>
    rw [List.map_cons, String.intercalate_cons_cons, String.toList_append, String.toList_append, ih]
    simp [SExpr.more]

theorem parenthesis_text (head : String) (items : List SExpr) :
    parenthesis head (items.map SExpr.text) = (SExpr.list (.word head :: items)).text := by
  refine String.toList_injective ?_
  rw [parenthesis, String.toList_append, String.toList_append, toList_intercalate_space]
  simp [SExpr.chars]

/-- A head of two words is a head and a first part. -/
theorem parenthesis_pair {head first second : String}
    (h : head.toList = first.toList ++ ' ' :: second.toList) (parts : List String) :
    parenthesis head parts = parenthesis first (second :: parts) := by
  refine String.toList_injective ?_
  cases parts <;> simp [parenthesis, String.intercalate_cons_cons, h]

theorem SExpr.text_headed (head : Head) (items : List SExpr) :
    (headed head items).text = parenthesis head.text (items.map SExpr.text) :=
  (parenthesis_text head.text items).symm

theorem Literal.printed_eq (l : Literal) : l.printed = l.sexpr.text := by
  cases l with
  | string text =>
    refine String.toList_injective ?_
    simp [Literal.printed, Literal.sexpr, SExpr.chars]
  | _ => exact (SExpr.text_word _).symm

theorem SExpr.toList_params (params : List Token) :
    (SExpr.list (params.map (.word ·.lexeme))).chars =
      '(' :: ((" ".intercalate (params.map (·.lexeme))).toList ++ [')']) := by
  cases params with
  | nil => simp [chars]
  | cons param params =>
    have hmap : params.map (·.lexeme) =
        (params.map fun t => SExpr.word t.lexeme).map SExpr.text := by simp
    rw [List.map_cons, List.map_cons, hmap, toList_intercalate_space]
    simp [chars]

section Fitting

variable {ok : Token → Prop}

theorem Node.Fits.not_isUnlisted {role : Role} {n : Node} (h : n.Fits ok role) :
    n.isUnlisted = false := by
  cases n with
  | misfit m => exact h.elim
  | _ => rfl

mutual

/-- What parsing makes has the text of its expression. -/
theorem Node.printed_eq : ∀ {role : Role} (n : Node), n.Fits ok role → n.printed = n.sexpr.text
  | _, .assign target value, h => by
    obtain ⟨-, -, hvalue⟩ := h
    rw [printed, sexpr, SExpr.text_headed, value.printed_eq hvalue]
    exact parenthesis_pair (by simp [Head.text]) _
  | _, .binary left operator right, h => by
    obtain ⟨-, -, hleft, hright⟩ := h
    rw [printed, sexpr, left.printed_eq hleft, right.printed_eq hright]
    exact parenthesis_text _ [left.sexpr, right.sexpr]
  | _, .call callee _ arguments, h => by
    obtain ⟨-, -, hcallee, harguments⟩ := h
    rw [printed, sexpr, SExpr.text_headed, callee.printed_eq hcallee,
      Node.printedAll_eq arguments harguments]
    rfl
  | _, .property object name, h => by
    obtain ⟨-, -, hobject⟩ := h
    rw [printed, sexpr, SExpr.text_headed, object.printed_eq hobject]
    exact parenthesis_pair (by simp [Head.text]) _
  | _, .group inner, h => by
    rw [printed, sexpr, SExpr.text_headed, inner.printed_eq h.2]
    rfl
  | _, .literal value, _ => value.printed_eq
  | _, .logical left operator right, h => by
    obtain ⟨-, -, hleft, hright⟩ := h
    rw [printed, sexpr, left.printed_eq hleft, right.printed_eq hright]
    exact parenthesis_text _ [left.sexpr, right.sexpr]
  | _, .setProperty object name value, h => by
    obtain ⟨-, -, hobject, hvalue⟩ := h
    rw [printed, sexpr, SExpr.text_headed, object.printed_eq hobject, value.printed_eq hvalue]
    exact parenthesis_pair (by simp [Head.text]) _
  | _, .superMethod _ method, _ => by
    rw [printed, sexpr, SExpr.text_headed, List.map_singleton, SExpr.text_word]
    rfl
  | _, .receiver _, _ => (SExpr.text_word _).symm
  | _, .unary operator right, h => by
    obtain ⟨-, -, hright⟩ := h
    rw [printed, sexpr, right.printed_eq hright]
    exact parenthesis_text _ [right.sexpr]
  | _, .ident name, _ => (SExpr.text_word _).symm
  | _, .block statements, h => by
    rw [printed, sexpr, SExpr.text_headed, Node.printedAll_eq statements h.2]
    rfl
  | _, .classDecl name none methods, h => by
    obtain ⟨-, -, -, hmethods⟩ := h
    rw [printed, sexpr, SExpr.text_headed, List.map_cons, SExpr.text_word,
      Node.printedAll_eq methods hmethods]
    rfl
  | _, .classDecl name (some parent) methods, h => by
    obtain ⟨-, -, hparent, hmethods⟩ := h
    obtain ⟨reference, rfl, -⟩ := Resolver.eq_ident_of_fitsSuperclass hparent
    rw [printed, sexpr, SExpr.text_headed, Node.printedAll_eq methods hmethods]
    simp [printed, sexpr, Head.text]
  | _, .expression value, h => by
    rw [printed, sexpr, SExpr.text_headed, value.printed_eq h.2]
    rfl
  | _, .function name params body, h => by
    obtain ⟨-, -, -, hbody⟩ := h
    rw [printed, sexpr, SExpr.text_headed, Node.printedAll_eq body hbody, List.map_cons,
      List.map_cons, SExpr.text_word]
    -- The parameters are the last word of the head.
    calc _ = parenthesis ("fun " ++ name.lexeme)
          ((SExpr.list (params.map (.word ·.lexeme))).text :: (sexprAll body).map SExpr.text) :=
        parenthesis_pair (by simp [SExpr.toList_params]) _
      _ = _ := parenthesis_pair (by simp [Head.text]) _
  | _, .conditional condition thenBranch none, h => by
    obtain ⟨-, hcondition, hthen, -⟩ := h
    rw [printed, sexpr, SExpr.text_headed, condition.printed_eq hcondition,
      thenBranch.printed_eq hthen]
    rfl
  | _, .conditional condition thenBranch (some elseBranch), h => by
    obtain ⟨-, hcondition, hthen, helse⟩ := h
    rw [printed, sexpr, SExpr.text_headed, condition.printed_eq hcondition,
      thenBranch.printed_eq hthen, elseBranch.printed_eq helse]
    rfl
  | _, .print value, h => by
    rw [printed, sexpr, SExpr.text_headed, value.printed_eq h.2]
    rfl
  | _, .returning _ value, h => by
    obtain ⟨-, -, hvalue⟩ := h
    rw [printed, sexpr, SExpr.text_headed, Node.printedOption_eq value hvalue]
    rfl
  | _, .varDecl name initializer, h => by
    obtain ⟨-, -, hinitializer⟩ := h
    rw [printed, sexpr, SExpr.text_headed, Node.printedOption_eq initializer hinitializer]
    exact parenthesis_pair (by simp [Head.text]) _
  | _, .loop condition body, h => by
    obtain ⟨-, hcondition, hbody⟩ := h
    rw [printed, sexpr, SExpr.text_headed, condition.printed_eq hcondition, body.printed_eq hbody]
    rfl

theorem Node.printedAll_eq : ∀ {role : Role} (ns : List Node), Node.FitAll ok role ns →
    Node.printedAll ns = (Node.sexprAll ns).map SExpr.text
  | _, [], _ => rfl
  | _, n :: rest, h => by
    rw [printedAll, h.1.not_isUnlisted, sexprAll, n.printed_eq h.1, Node.printedAll_eq rest h.2]
    rfl

theorem Node.printedOption_eq : ∀ {role : Role} (n : Option Node), Node.FitsOption ok role n →
    Node.printedOption n = (Node.sexprOption n).map SExpr.text
  | _, none, _ => rfl
  | _, some n, h => congrArg ([·]) (n.printed_eq h)

end

theorem Token.fault?_eq_none {t : Token} {kinds : List TokenKind} (h : t.kind ∈ kinds)
    (hkinds : .missing ∉ kinds) : t.fault? = none := by
  have hkind : t.kind ≠ .missing := fun hmissing => hkinds (hmissing ▸ h)
  simp [fault?, isMissing, hkind]

theorem Token.Is.fault? {t : Token} {kind : TokenKind} (h : t.Is ok kind)
    (hkind : kind ≠ .missing) : t.fault? = none :=
  Token.fault?_eq_none (List.mem_singleton.2 h.2) (by simpa using hkind.symm)

theorem Node.listFault?_eq_none {role : Role} {fault : String → Fault} {ns : List Node}
    (h : Node.FitAll ok role ns) : Node.listFault? fault ns = none := by
  unfold listFault?
  split
  · exact h.1.elim
  · rfl

mutual

/-- What parsing makes can be printed. -/
theorem Node.printFault?_eq_none : ∀ {role : Role} (n : Node), n.Fits ok role →
    n.printFault? = none
  | _, .assign target value, h => by
    obtain ⟨-, htarget, hvalue⟩ := h
    simp [printFault?, htarget.1.fault?, value.printFault?_eq_none hvalue]
  | _, .binary left operator right, h => by
    obtain ⟨-, hoperator, hleft, hright⟩ := h
    simp [printFault?, Token.fault?_eq_none hoperator.2 (by decide),
      left.printFault?_eq_none hleft, right.printFault?_eq_none hright]
  | _, .call callee _ arguments, h => by
    obtain ⟨-, -, hcallee, harguments⟩ := h
    simp [printFault?, callee.printFault?_eq_none hcallee, Node.listFault?_eq_none harguments,
      Node.printFaultAll?_eq_none arguments harguments]
  | _, .property object name, h => by
    obtain ⟨-, hname, hobject⟩ := h
    simp [printFault?, hname.fault?, object.printFault?_eq_none hobject]
  | _, .group inner, h => inner.printFault?_eq_none h.2
  | _, .literal _, _ => rfl
  | _, .logical left operator right, h => by
    obtain ⟨-, hoperator, hleft, hright⟩ := h
    simp [printFault?, Token.fault?_eq_none hoperator.2 (by decide),
      left.printFault?_eq_none hleft, right.printFault?_eq_none hright]
  | _, .setProperty object name value, h => by
    obtain ⟨-, hname, hobject, hvalue⟩ := h
    simp [printFault?, hname.fault?, object.printFault?_eq_none hobject,
      value.printFault?_eq_none hvalue]
  | _, .superMethod _ method, h => h.2.2.fault? nofun
  | _, .receiver _, _ => rfl
  | _, .unary operator right, h => by
    obtain ⟨-, hoperator, hright⟩ := h
    simp [printFault?, Token.fault?_eq_none hoperator.2 (by decide),
      right.printFault?_eq_none hright]
  | _, .ident name, h => h.2.1.fault? nofun
  | _, .block statements, h => by
    simp [printFault?, Node.listFault?_eq_none h.2, Node.printFaultAll?_eq_none statements h.2]
  | _, .classDecl name superclass methods, h => by
    obtain ⟨-, hname, hsuperclass, hmethods⟩ := h
    have hparent : Node.printFaultOption? superclass = none := by
      cases superclass with
      | none => rfl
      | some parent =>
        obtain ⟨reference, rfl, hreference⟩ := Resolver.eq_ident_of_fitsSuperclass hsuperclass
        exact hreference.1.fault? nofun
    simp [printFault?, hname.fault?, hparent, Node.listFault?_eq_none hmethods,
      Node.printFaultAll?_eq_none methods hmethods]
  | _, .expression value, h => value.printFault?_eq_none h.2
  | _, .function name params body, h => by
    obtain ⟨-, hname, hparams, hbody⟩ := h
    have hnone : params.findSome? Token.fault? = none :=
      List.findSome?_eq_none_iff.2 fun param hparam => (hparams param hparam).fault? nofun
    simp [printFault?, hname.fault?, hnone, Node.listFault?_eq_none hbody,
      Node.printFaultAll?_eq_none body hbody]
  | _, .conditional condition thenBranch elseBranch, h => by
    obtain ⟨-, hcondition, hthen, helse⟩ := h
    simp [printFault?, condition.printFault?_eq_none hcondition,
      thenBranch.printFault?_eq_none hthen, Node.printFaultOption?_eq_none elseBranch helse]
  | _, .print value, h => value.printFault?_eq_none h.2
  | _, .returning _ value, h => Node.printFaultOption?_eq_none value h.2.2
  | _, .varDecl name initializer, h => by
    obtain ⟨-, hname, hinitializer⟩ := h
    simp [printFault?, hname.fault?, Node.printFaultOption?_eq_none initializer hinitializer]
  | _, .loop condition body, h => by
    obtain ⟨-, hcondition, hbody⟩ := h
    simp [printFault?, condition.printFault?_eq_none hcondition, body.printFault?_eq_none hbody]

theorem Node.printFaultAll?_eq_none : ∀ {role : Role} (ns : List Node), Node.FitAll ok role ns →
    Node.printFaultAll? ns = none
  | _, [], _ => rfl
  | _, n :: rest, h => by
    simp [printFaultAll?, n.printFault?_eq_none h.1, Node.printFaultAll?_eq_none rest h.2]

theorem Node.printFaultOption?_eq_none : ∀ {role : Role} (n : Option Node),
    Node.FitsOption ok role n → Node.printFaultOption? n = none
  | _, none, _ => rfl
  | _, some n, h => n.printFault?_eq_none h

end

theorem Node.printed?_eq {role : Role} {n : Node} (h : n.Fits ok role) :
    n.printed? = .ok n.printed := by
  rw [printed?, n.printFault?_eq_none h]

end Fitting

end Lox
