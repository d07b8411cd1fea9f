import Lox.Report
import Lox.Tree

/-!
# Reading from a list of tokens

A `Parser` takes tokens and replies with the complaints it has and its result: a value and the
tokens left, a failure at the first of the tokens left, or one of two ways to stop for good, that
the tokens ran out without an end-of-source token or that the grammar is nested deeper than
allowed. Complaints of a sequence are put together in order, so what a parser complains of never
depends on what was read before it.
-/

namespace Lox

namespace Parser

inductive Result (α : Type) where
  | ok (value : α) (rest : List Token)
  | failed (rest : List Token)
  | noToken
  | tooDeep

structure Reply (α : Type) where
  complaints : List Complaint
  result : Result α

/-- The reply with earlier complaints in front. -/
def Reply.after {α : Type} (earlier : List Complaint) (reply : Reply α) : Reply α :=
  ⟨earlier ++ reply.complaints, reply.result⟩

end Parser

def Parser (α : Type) : Type := List Token → Parser.Reply α

namespace Parser

variable {α β σ : Type}

def pure (a : α) : Parser α := fun tokens => ⟨[], .ok a tokens⟩

def bind (p : Parser α) (f : α → Parser β) : Parser β := fun tokens =>
  match p tokens with
  | ⟨complaints, .ok a rest⟩ => (f a rest).after complaints
  | ⟨complaints, .failed rest⟩ => ⟨complaints, .failed rest⟩
  | ⟨complaints, .noToken⟩ => ⟨complaints, .noToken⟩
  | ⟨complaints, .tooDeep⟩ => ⟨complaints, .tooDeep⟩

instance : Monad Parser where
  pure := Parser.pure
  bind := Parser.bind

@[simp]
theorem Reply.after_nil (reply : Reply α) : reply.after [] = reply := rfl

@[simp]
theorem Reply.after_after (first second : List Complaint) (reply : Reply α) :
    (reply.after second).after first = reply.after (first ++ second) := by
  simp [Reply.after]

theorem bind_pure_map (p : Parser α) : (id <$> p) = p := by
  funext tokens
  show Parser.bind p (fun a => Parser.pure (id a)) tokens = p tokens
  unfold Parser.bind
  rcases p tokens with ⟨complaints, _ | _ | _ | _⟩ <;> simp [Reply.after, Parser.pure]

theorem bind_bind {γ : Type} (p : Parser α) (f : α → Parser β) (g : β → Parser γ) :
    (p >>= f >>= g) = (p >>= fun a => f a >>= g) := by
  funext tokens
  simp only [Bind.bind, Parser.bind]
  rcases p tokens with ⟨complaints, ⟨a, rest⟩ | _ | _ | _⟩ <;> simp only []
  rcases h : f a rest with ⟨more, ⟨b, rest⟩ | _ | _ | _⟩ <;>
    simp only [Reply.after, List.append_assoc]

instance : LawfulMonad Parser :=
  LawfulMonad.mk' Parser bind_pure_map (fun _ _ => rfl) bind_bind

def tooDeep : Parser α := fun _ => ⟨[], .tooDeep⟩

def complain (token : Token) (problem : Problem) : Parser Unit := fun tokens =>
  ⟨[⟨token, problem⟩], .ok () tokens⟩

/-- The next token, which stays. -/
def peek : Parser Token
  | [] => ⟨[], .noToken⟩
  | token :: rest => ⟨[], .ok token (token :: rest)⟩

/-- Complains of the next token and fails there. -/
def fail (problem : Problem) : Parser α
  | [] => ⟨[], .noToken⟩
  | token :: rest => ⟨[⟨token, problem⟩], .failed (token :: rest)⟩

/-- Whether the next token is of the kind. -/
def check (kind : TokenKind) : Parser Bool := do
  return (← peek).kind = kind

/-- Takes the next token if it is of one of the kinds. -/
def accept? (kinds : List TokenKind) : Parser (Option Token)
  | [] => ⟨[], .noToken⟩
  | token :: rest =>
    if token.kind ∈ kinds then ⟨[], .ok (some token) rest⟩ else ⟨[], .ok none (token :: rest)⟩

/-- Takes the next token, which must be of the kind. -/
def expect (kind : TokenKind) (problem : Problem) : Parser Token := do
  match ← accept? [kind] with
  | some token => return token
  | none => fail problem

/-! ## Repetition -/

/-- At most `turns` turns of `step`, which says whether to go on or what the outcome is. -/
def loopWithin (step : σ → Parser (σ ⊕ β)) : (turns : Nat) → σ → Parser β
  | 0, _ => fun _ => ⟨[], .noToken⟩
  | turns + 1, s => do
    match ← step s with
    | .inl s => loopWithin step turns s
    | .inr b => return b

/-- Repeats a step that takes a token whenever it goes on. The turns cannot run out before the
tokens. -/
def loop (step : σ → Parser (σ ⊕ β)) (s : σ) : Parser β := fun tokens =>
  loopWithin step (tokens.length + 1) s tokens

/-! ## Recovery -/

/-- Whether a statement or declaration starts with a keyword of this kind. -/
def startsStatement (kind : TokenKind) : Bool :=
  kind ∈ [.classWord, .funWord, .varWord, .forWord, .ifWord, .whileWord, .printWord, .returnWord]

/-- The tokens from the first boundary on: the end of the source, a token after a semicolon, or one
that starts a statement. -/
def skip (previous : Token) : List Token → Option (List Token)
  | [] => none
  | token :: rest =>
    if token.kind = .eof ∨ previous.kind = .semicolon ∨ startsStatement token.kind then
      some (token :: rest)
    else skip token rest

/-- Where reading resumes after a failure at the first of the tokens. -/
def synchronize : List Token → Option (List Token)
  | [] => none
  | token :: rest => if token.kind = .eof then some (token :: rest) else skip token rest

/-- Gives up on a failed part and resumes at the next boundary. -/
def recover (p : Parser α) : Parser (Option α) := fun tokens =>
  match p tokens with
  | ⟨complaints, .ok a rest⟩ => ⟨complaints, .ok (some a) rest⟩
  | ⟨complaints, .failed rest⟩ =>
    match synchronize rest with
    | some rest => ⟨complaints, .ok none rest⟩
    | none => ⟨complaints, .noToken⟩
  | ⟨complaints, .noToken⟩ => ⟨complaints, .noToken⟩
  | ⟨complaints, .tooDeep⟩ => ⟨complaints, .tooDeep⟩

end Parser

end Lox
