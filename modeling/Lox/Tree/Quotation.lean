/-!
# Quotations

In a tree made by hand a literal may have a piece of a tree in the place of its value. Such a
quotation has a text, and is equal to quotations of the same identity only.
-/

namespace Lox

/-- What a quotation is equal to: itself alone, known by the way to it down the trees, or all that
has its form. -/
inductive Quotation.Identity where
  | place (path : List Nat)
  | form (form : String)
deriving DecidableEq

structure Quotation where
  text : String
  identity : Quotation.Identity
deriving DecidableEq

end Lox
