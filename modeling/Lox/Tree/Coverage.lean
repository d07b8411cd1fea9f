import Lox.Tree.Kind

/-!
# Which nodes a pass covers

A pass over trees serves the expressions, the statements or both, and has a hook for each kind of
node it handles. A node of a family it serves that has no hook is not handled; a node of another
family it does not know at all. A pass that covers its families is missing nothing.
-/

namespace Lox

/-- The name of the hook for nodes of the kind. -/
def NodeKind.hook (kind : NodeKind) : String :=
  "visit_" ++ kind.name.toLower ++ "_" ++ kind.family.name.toLower

structure Pass where
  name : String
  families : List Family
  hooks : List String

/-- What a pass does with a node. -/
inductive Pass.Response where
  | handled
  | unhandled (message : String)
  | unknown
deriving DecidableEq

namespace Pass

/-- The hooks a pass lacks for the families it serves. -/
def missing (p : Pass) : List String :=
  let lacking := NodeKind.all.filter fun kind =>
    p.families.contains kind.family && !p.hooks.contains kind.hook
  lacking.map NodeKind.hook

def accept (p : Pass) (kind : NodeKind) : Response :=
  if p.hooks.contains kind.hook then .handled
  else if p.families.contains kind.family then
    .unhandled (p.name ++ " does not handle " ++ kind.fullName)
  else .unknown

/-- A pass with a hook for every kind of node, as the machine, resolution and printing are. -/
def total (name : String) : Pass := ⟨name, [.expr, .stmt], NodeKind.all.map NodeKind.hook⟩

/-- What a node of no kind, or a callable of no kind, answers. -/
def unspecified : Response := .unhandled ""

theorem missing_total (name : String) : (total name).missing = [] := by
  simp only [missing, total, List.map_eq_nil_iff, List.filter_eq_nil_iff]
  intro kind member
  simp only [Bool.and_eq_true, Bool.not_eq_true', not_and, Bool.not_eq_false]
  exact fun _ => List.contains_iff_mem.2 (List.mem_map_of_mem member)

end Pass

end Lox
