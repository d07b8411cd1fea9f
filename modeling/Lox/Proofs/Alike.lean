import Mathlib.Tactic
import Lox.Proofs.Scoped

/-!
# Trees that are alike

A `Change` says in what two trees may differ: tokens in all but their kind and text, and one local
variable in its name. Each open scope is marked or not. In a marked scope the old name is the new
one in the other tree, in its declaration and in the references that have the distance of the
scope. Names of functions and classes, properties, and references to the globals do not change.

The trees may differ in any number of scopes.
-/

namespace Lox

structure Change where
  old : String
  new : String
  /-- Tokens that may stand for one another. -/
  Alike : Token → Token → Prop
  kind_eq : ∀ {t t'}, Alike t t' → t'.kind = t.kind
  lexeme_eq : ∀ {t t'}, Alike t t' → t'.lexeme = t.lexeme
  old_ne_this : old ≠ "this"
  old_ne_super : old ≠ "super"
  new_ne_this : new ≠ "this"
  new_ne_super : new ≠ "super"

namespace Change

variable (c : Change)

/-- The name in a scope of the other tree. -/
def rename (marked : Bool) (name : String) : String :=
  if marked = true ∧ name = c.old then c.new else name

/-- A name of the scope and its name in the other tree; the new name is not among those of a marked
scope. -/
structure Named (marked : Bool) (t t' : Token) : Prop where
  alike : c.Alike t { t' with lexeme := t.lexeme }
  lexeme : t'.lexeme = c.rename marked t.lexeme
  fresh : marked = true → t.lexeme ≠ c.new

/-- A name of the scope that is not changed. -/
structure Kept (marked : Bool) (t t' : Token) : Prop where
  alike : c.Alike t t'
  other : marked = true → t.lexeme ≠ c.old
  fresh : marked = true → t.lexeme ≠ c.new

/-- Whether the scope that a reference goes to is marked. -/
def mark (marks : List Bool) : Option Nat → Bool
  | none => false
  | some hops => marks.getD hops false

/-- References to one binding. -/
structure Refers (marks : List Bool) (r r' : Reference) : Prop where
  hops : r'.hops = r.hops
  named : c.Named (mark marks r.hops) r.name r'.name

end Change

mutual

/-- The trees are alike where the scopes have the marks, the innermost first. -/
def Node.Like (c : Change) : List Bool → Node → Node → Prop
  | L, .assign target value, n' => ∃ target' value', n' = .assign target' value' ∧
      c.Refers L target target' ∧ value.Like c L value'
  | L, .binary left operator right, n' => ∃ left' operator' right',
      n' = .binary left' operator' right' ∧ c.Alike operator operator' ∧ left.Like c L left' ∧
      right.Like c L right'
  | L, .call callee paren arguments, n' => ∃ callee' paren' arguments',
      n' = .call callee' paren' arguments' ∧ c.Alike paren paren' ∧ callee.Like c L callee' ∧
      Node.LikeAll c L arguments arguments'
  | L, .property object name, n' => ∃ object' name', n' = .property object' name' ∧
      c.Alike name name' ∧ object.Like c L object'
  | L, .group inner, n' => ∃ inner', n' = .group inner' ∧ inner.Like c L inner'
  | _, .literal value, n' => n' = .literal value
  | L, .logical left operator right, n' => ∃ left' operator' right',
      n' = .logical left' operator' right' ∧ c.Alike operator operator' ∧ left.Like c L left' ∧
      right.Like c L right'
  | L, .setProperty object name value, n' => ∃ object' name' value',
      n' = .setProperty object' name' value' ∧ c.Alike name name' ∧ object.Like c L object' ∧
      value.Like c L value'
  | L, .superMethod keyword method, n' => ∃ keyword' method',
      n' = .superMethod keyword' method' ∧ c.Refers L keyword keyword' ∧ c.Alike method method'
  | L, .receiver keyword, n' => ∃ keyword', n' = .receiver keyword' ∧ c.Refers L keyword keyword'
  | L, .unary operator right, n' => ∃ operator' right', n' = .unary operator' right' ∧
      c.Alike operator operator' ∧ right.Like c L right'
  | L, .ident name, n' => ∃ name', n' = .ident name' ∧ c.Refers L name name'
  | L, .block statements, n' => ∃ marked statements', n' = .block statements' ∧
      Node.LikeAll c (marked :: L) statements statements'
  | L, .classDecl name none methods, n' => ∃ name' methods', n' = .classDecl name' none methods' ∧
      c.Kept (L.headD false) name name' ∧ Node.LikeMethods c (false :: L) methods methods'
  | L, .classDecl name (some parent) methods, n' => ∃ name' r r' methods', parent = .ident r ∧
      n' = .classDecl name' (some (.ident r')) methods' ∧ c.Kept (L.headD false) name name' ∧
      c.Refers L r r' ∧ Node.LikeMethods c (false :: false :: L) methods methods'
  | L, .expression value, n' => ∃ value', n' = .expression value' ∧ value.Like c L value'
  | L, .function name params body, n' => ∃ marked name' params' body',
      n' = .function name' params' body' ∧ c.Kept (L.headD false) name name' ∧
      params.Forall₂ (c.Named marked) params' ∧ Node.LikeAll c (marked :: L) body body'
  | L, .conditional condition thenBranch elseBranch, n' => ∃ condition' thenBranch' elseBranch',
      n' = .conditional condition' thenBranch' elseBranch' ∧ condition.Like c L condition' ∧
      thenBranch.Like c L thenBranch' ∧ Node.LikeOption c L elseBranch elseBranch'
  | L, .print value, n' => ∃ value', n' = .print value' ∧ value.Like c L value'
  | L, .returning keyword value, n' => ∃ keyword' value', n' = .returning keyword' value' ∧
      c.Alike keyword keyword' ∧ Node.LikeOption c L value value'
  | L, .varDecl name initializer, n' => ∃ name' initializer', n' = .varDecl name' initializer' ∧
      c.Named (L.headD false) name name' ∧ Node.LikeOption c L initializer initializer'
  | L, .loop condition body, n' => ∃ condition' body', n' = .loop condition' body' ∧
      condition.Like c L condition' ∧ body.Like c L body'
  | _, .misfit _, _ => False
termination_by structural _ n => n

def Node.LikeAll (c : Change) : List Bool → List Node → List Node → Prop
  | _, [], ns' => ns' = []
  | L, n :: rest, ns' => ∃ n' rest', ns' = n' :: rest' ∧ n.Like c L n' ∧ Node.LikeAll c L rest rest'

def Node.LikeMethods (c : Change) : List Bool → List Node → List Node → Prop
  | _, [], ns' => ns' = []
  | L, .function name params body :: rest, ns' => ∃ marked name' params' body' rest',
      ns' = .function name' params' body' :: rest' ∧ c.Alike name name' ∧
      params.Forall₂ (c.Named marked) params' ∧ Node.LikeAll c (marked :: L) body body' ∧
      Node.LikeMethods c L rest rest'
  | _, _ :: _, _ => False

def Node.LikeOption (c : Change) : List Bool → Option Node → Option Node → Prop
  | _, none, n' => n' = none
  | L, some n, n' => ∃ value', n' = some value' ∧ n.Like c L value'

end

namespace Change

variable {c : Change} {t t' : Token} {marked : Bool}

theorem rename_false (name : String) : c.rename false name = name := by simp [rename]

theorem rename_of_ne {name : String} (h : name ≠ c.old) : c.rename marked name = name := by
  simp [rename, h]

/-- Names that are not the new one stay apart. -/
theorem rename_inj {name other : String} (h : marked = true → name ≠ c.new)
    (h' : marked = true → other ≠ c.new) :
    c.rename marked name = c.rename marked other ↔ name = other := by
  cases marked with
  | false => simp [rename]
  | true =>
    have hname := h rfl
    have hother := h' rfl
    unfold rename
    split <;> split <;> grind

theorem isMissing_eq (h : c.Alike t t') : t'.isMissing = t.isMissing := by
  simp [Token.isMissing, c.kind_eq h]

theorem Named.isMissing_eq (h : c.Named marked t t') : t'.isMissing = t.isMissing := by
  have hkind := c.kind_eq h.alike
  simp only at hkind
  simp [Token.isMissing, hkind]

/-- What is not changed is alike. -/
theorem Named.of_alike (h : c.Alike t t') (hother : marked = true → t.lexeme ≠ c.old)
    (hfresh : marked = true → t.lexeme ≠ c.new) : c.Named marked t t' := by
  have hlexeme := c.lexeme_eq h
  have hsame : { t' with lexeme := t.lexeme } = t' := by rw [← hlexeme]
  refine ⟨by rwa [hsame], ?_, hfresh⟩
  rw [hlexeme, rename, if_neg]
  rintro ⟨hmarked, hold⟩
  exact hother hmarked hold

theorem Kept.named (h : c.Kept marked t t') : c.Named marked t t' :=
  .of_alike h.alike h.other h.fresh

theorem named_of_alike (h : c.Alike t t') : c.Named false t t' := .of_alike h nofun nofun

/-- Without a mark a name is as it was. -/
theorem Named.alike_of_false (h : c.Named false t t') : c.Alike t t' := by
  have hlexeme : t'.lexeme = t.lexeme := h.lexeme.trans (rename_false _)
  have hsame : { t' with lexeme := t.lexeme } = t' := by rw [← hlexeme]
  rw [← hsame]
  exact h.alike

theorem mark_eq_false {L : List Bool} (h : ∀ b ∈ L, b = false) (hops : Option Nat) :
    mark L hops = false := by
  rcases hops with _ | hops
  · rfl
  · simp only [mark, List.getD_eq_getElem?_getD]
    rcases hget : L[hops]? with _ | b
    · rfl
    · exact h b (List.mem_of_getElem? hget)

theorem headD_eq_false {L : List Bool} (h : ∀ b ∈ L, b = false) : L.headD false = false := by
  cases L with
  | nil => rfl
  | cons b L => exact h b List.mem_cons_self

end Change

/-! ## Tokens -/

mutual

/-- The tokens of a tree. -/
def Node.tokens : Node → List Token
  | .assign target value => target.name :: value.tokens
  | .binary left operator right => operator :: left.tokens ++ right.tokens
  | .call callee paren arguments => paren :: callee.tokens ++ Node.tokensAll arguments
  | .property object name => name :: object.tokens
  | .group inner => inner.tokens
  | .literal _ => []
  | .logical left operator right => operator :: left.tokens ++ right.tokens
  | .setProperty object name value => name :: object.tokens ++ value.tokens
  | .superMethod keyword method => [keyword.name, method]
  | .receiver keyword => [keyword.name]
  | .unary operator right => operator :: right.tokens
  | .ident name => [name.name]
  | .block statements => Node.tokensAll statements
  | .classDecl name superclass methods =>
    name :: Node.tokensOption superclass ++ Node.tokensAll methods
  | .expression value => value.tokens
  | .function name params body => name :: params ++ Node.tokensAll body
  | .conditional condition thenBranch elseBranch =>
    condition.tokens ++ thenBranch.tokens ++ Node.tokensOption elseBranch
  | .print value => value.tokens
  | .returning keyword value => keyword :: Node.tokensOption value
  | .varDecl name initializer => name :: Node.tokensOption initializer
  | .loop condition body => condition.tokens ++ body.tokens
  | .misfit _ => []

def Node.tokensAll : List Node → List Token
  | [] => []
  | n :: rest => n.tokens ++ Node.tokensAll rest

def Node.tokensOption : Option Node → List Token
  | none => []
  | some n => n.tokens

end

end Lox
