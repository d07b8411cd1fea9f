import Lox.Token

/-!
# Runtime errors

A `RuntimeError` is an error of the running Lox program, at a token. It ends the program and is
reported.
-/

namespace Lox

inductive RuntimeError.Cause where
  | undefinedVariable (name : String)
  | uninitializedVariable (name : String)
  | undefinedProperty (name : String)
  | superclassNotClass
  | operandNotNumber
  | operandsNotNumbers
  | operandsNotAddable
  | notCallable
  | wrongArity (expected given : Nat)
  | noProperties
  | noFields
deriving DecidableEq

structure RuntimeError where
  token : Token
  cause : RuntimeError.Cause
deriving DecidableEq

def RuntimeError.message (e : RuntimeError) : String :=
  match e.cause with
  | .undefinedVariable name => s!"Undefined variable '{name}'."
  | .uninitializedVariable name => s!"Cannot use uninitialized variable '{name}'."
  | .undefinedProperty name => s!"Undefined property '{name}'."
  | .superclassNotClass => "Superclass must be a class."
  | .operandNotNumber => "Operand must be a number."
  | .operandsNotNumbers => "Operands must be numbers."
  | .operandsNotAddable => "Operands must be two numbers or two strings."
  | .notCallable => "Can only call functions and classes."
  | .wrongArity expected given => s!"Expected {expected} arguments but got {given}."
  | .noProperties => "Only instances have properties."
  | .noFields => "Only instances have fields."

end Lox
