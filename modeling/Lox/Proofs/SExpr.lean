import Mathlib.Tactic
import Lox.Proofs.Numerals

/-!
# Symbolic expressions

A symbolic expression is a word, a text in quotes, or a list of such expressions in parentheses with
single spaces between them. It is legible if there are no spaces, quotes or parentheses in its words
and no quotes in its texts. It can then be read off its characters in one way only, even where more
comes after it: a word ends at the first space or parenthesis, a text at the first quote, and a list
at the parenthesis after its last item (`SExpr.chars_inj`).
-/

namespace Lox

/-- A symbolic expression. -/
inductive SExpr where
  | word (text : String)
  | quoted (text : String)
  | list (items : List SExpr)

namespace SExpr

mutual

/-- The characters of an expression. -/
def chars : SExpr → List Char
  | .word text => text.toList
  | .quoted text => '"' :: (text.toList ++ ['"'])
  | .list [] => ['(', ')']
  | .list (x :: rest) => '(' :: (chars x ++ (more rest ++ [')']))

/-- The characters of further items, each after a space. -/
def more : List SExpr → List Char
  | [] => []
  | x :: rest => ' ' :: (chars x ++ more rest)

end

/-- The characters that no word has. -/
def delimiters : List Char := [' ', '(', ')', '"']

mutual

/-- The expression can be read off its characters. -/
def Legible : SExpr → Prop
  | .word text => text.toList ≠ [] ∧ ∀ c ∈ text.toList, c ∉ delimiters
  | .quoted text => '"' ∉ text.toList
  | .list items => LegibleAll items

def LegibleAll : List SExpr → Prop
  | [] => True
  | x :: rest => x.Legible ∧ LegibleAll rest

end

theorem legible_word_iff {text : String} : (word text).Legible ↔
    text.toList ≠ [] ∧ text.toList.all (fun c => decide (c ∉ delimiters)) = true := by
  simp [Legible]

/-- An expression can end before such characters. -/
def Ends (rest : List Char) : Prop := ∀ c, rest.head? = some c → c = ' ' ∨ c = ')'

/-! ## Reading expressions -/

variable {x y : SExpr} {xs ys : List SExpr} {text text' : String} {rest rest' : List Char}

theorem ends_more (xs : List SExpr) (rest : List Char) : Ends (more xs ++ ')' :: rest) := by
  intro c hc
  cases xs with
  | nil => exact .inr (Option.some.inj hc).symm
  | cons x xs => exact .inl (Option.some.inj hc).symm

/-- No word begins with a delimiter. -/
theorem Legible.ne_cons (h : (word text).Legible) {c : Char} (hc : c ∈ delimiters)
    (rest tail : List Char) : text.toList ++ rest ≠ c :: tail := by
  obtain ⟨d, ds, hds⟩ := List.exists_cons_of_ne_nil h.1
  rw [hds]
  intro hcons
  obtain rfl : d = c := (List.cons.inj hcons).1
  exact h.2 d (by rw [hds]; exact List.mem_cons_self) hc

theorem word_inj (hx : (word text).Legible) (hy : (word text').Legible) (hrest : Ends rest)
    (hrest' : Ends rest') (h : text.toList ++ rest = text'.toList ++ rest') :
    text = text' ∧ rest = rest' := by
  have hends : ∀ {rest : List Char}, Ends rest →
      ∀ c, rest.head? = some c → decide (c ∉ delimiters) = false := by
    intro rest hrest c hc
    rcases hrest c hc with rfl | rfl <;> rfl
  obtain ⟨htexts, hrests⟩ := append_inj_of_boundary
    (fun c hc => decide_eq_true (hx.2 c hc)) (fun c hc => decide_eq_true (hy.2 c hc))
    (hends hrest) (hends hrest') h
  exact ⟨String.toList_injective htexts, hrests⟩

theorem quoted_inj (hx : (quoted text).Legible) (hy : (quoted text').Legible)
    (h : text.toList ++ '"' :: rest = text'.toList ++ '"' :: rest') :
    text = text' ∧ rest = rest' := by
  have hends : ∀ rest : List Char, ∀ c, ('"' :: rest).head? = some c →
      decide (c ≠ '"') = false := by
    rintro rest c ⟨⟩
    rfl
  have hquote : ∀ {text : String}, '"' ∉ text.toList →
      ∀ c ∈ text.toList, decide (c ≠ '"') = true := by
    intro text htext c hc
    exact decide_eq_true fun hquote => htext (hquote ▸ hc)
  obtain ⟨htexts, hrests⟩ :=
    append_inj_of_boundary (hquote hx) (hquote hy) (hends rest) (hends rest') h
  exact ⟨String.toList_injective htexts, (List.cons.inj hrests).2⟩

theorem exists_chars_list (items : List SExpr) : ∃ tail, (list items).chars = '(' :: tail := by
  cases items with
  | nil => exact ⟨_, rfl⟩
  | cons x rest => exact ⟨_, rfl⟩

/-- No expression begins with the parenthesis that closes a list. -/
theorem Legible.ne_close (hx : x.Legible) (rest tail : List Char) :
    x.chars ++ rest ≠ ')' :: tail := by
  cases x with
  | word text => exact hx.ne_cons (by decide) rest tail
  | quoted text => exact fun h => absurd (List.cons.inj h).1 (by decide)
  | list items =>
    obtain ⟨inner, hinner⟩ := exists_chars_list items
    rw [hinner]
    exact fun h => absurd (List.cons.inj h).1 (by decide)

mutual

/-- An expression and what comes after it are settled by the characters. -/
theorem chars_inj : ∀ {x y : SExpr}, x.Legible → y.Legible → ∀ {rest rest' : List Char},
    Ends rest → Ends rest' → x.chars ++ rest = y.chars ++ rest' → x = y ∧ rest = rest'
  | .word _, .word _, hx, hy, _, _, hrest, hrest', h => by
    obtain ⟨rfl, hrests⟩ := word_inj hx hy hrest hrest' h
    exact ⟨rfl, hrests⟩
  | .quoted _, .quoted _, hx, hy, _, _, _, _, h => by
    simp only [chars, List.cons_append, List.append_assoc, List.cons.injEq, true_and] at h
    obtain ⟨rfl, hrests⟩ := quoted_inj hx hy h
    exact ⟨rfl, hrests⟩
  | .list [], .list [], _, _, _, _, _, _, h => ⟨rfl, List.append_cancel_left h⟩
  | .list (x :: xs), .list (y :: ys), hx, hy, rest, rest', _, _, h => by
    simp only [chars, List.cons_append, List.append_assoc, List.nil_append, List.cons.injEq,
      true_and] at h
    obtain ⟨rfl, hmore⟩ := chars_inj hx.1 hy.1 (ends_more xs rest) (ends_more ys rest') h
    obtain ⟨rfl, hrests⟩ := more_inj hx.2 hy.2 hmore
    exact ⟨rfl, hrests⟩
  -- expressions of different sorts begin differently, and an empty list closes at once
  | .list [], .list (y :: ys), _, hy, rest, rest', _, _, h => by
    simp only [chars, List.cons_append, List.append_assoc, List.cons.injEq, true_and] at h
    exact absurd h.symm (hy.1.ne_close _ _)
  | .list (x :: xs), .list [], hx, _, rest, rest', _, _, h => by
    simp only [chars, List.cons_append, List.append_assoc, List.cons.injEq, true_and] at h
    exact absurd h (hx.1.ne_close _ _)
  | .word _, .quoted _, hx, _, rest, _, _, _, h => absurd h (hx.ne_cons (by decide) rest _)
  | .quoted _, .word _, _, hy, _, rest', _, _, h => absurd h.symm (hy.ne_cons (by decide) rest' _)
  | .word _, .list items, hx, _, rest, _, _, _, h => by
    obtain ⟨tail, htail⟩ := exists_chars_list items
    rw [htail] at h
    exact absurd h (hx.ne_cons (by decide) rest _)
  | .list items, .word _, _, hy, _, rest', _, _, h => by
    obtain ⟨tail, htail⟩ := exists_chars_list items
    rw [htail] at h
    exact absurd h.symm (hy.ne_cons (by decide) rest' _)
  | .quoted _, .list items, _, _, _, _, _, _, h => by
    obtain ⟨tail, htail⟩ := exists_chars_list items
    rw [htail] at h
    exact absurd (List.cons.inj h).1 (by decide)
  | .list items, .quoted _, _, _, _, _, _, _, h => by
    obtain ⟨tail, htail⟩ := exists_chars_list items
    rw [htail] at h
    exact absurd (List.cons.inj h).1 (by decide)

theorem more_inj : ∀ {xs ys : List SExpr}, LegibleAll xs → LegibleAll ys →
    ∀ {rest rest' : List Char}, more xs ++ ')' :: rest = more ys ++ ')' :: rest' →
      xs = ys ∧ rest = rest'
  | [], [], _, _, _, _, h => ⟨rfl, (List.cons.inj h).2⟩
  | [], y :: ys, _, _, _, _, h => absurd (List.cons.inj h).1 (by decide)
  | x :: xs, [], _, _, _, _, h => absurd (List.cons.inj h).1 (by decide)
  | x :: xs, y :: ys, hx, hy, rest, rest', h => by
    simp only [more, List.cons_append, List.append_assoc, List.cons.injEq, true_and] at h
    obtain ⟨rfl, hmore⟩ := chars_inj hx.1 hy.1 (ends_more xs rest) (ends_more ys rest') h
    obtain ⟨rfl, hrests⟩ := more_inj hx.2 hy.2 hmore
    exact ⟨rfl, hrests⟩

end

/-- A legible expression is the only one with its characters. -/
theorem eq_of_chars_eq (hx : x.Legible) (hy : y.Legible) (h : x.chars = y.chars) : x = y := by
  have hnothing : Ends [] := nofun
  exact (chars_inj hx hy hnothing hnothing (by rw [h])).1

end SExpr

end Lox
