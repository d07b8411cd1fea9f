import Lox.Session
import Lox.Tree.Bindings
import Lox.Tree.Handmade

/-!
# Trees made by hand in a session

A workbench is a session with trees made by hand that it prints, describes, resolves, runs and
evaluates, any number of times and in any order. What resolution finds depends on the trees alone,
so their references have it from the start. They go by it only once resolution was asked for, and
then everywhere, in functions made before as well.
-/

namespace Lox

structure Workbench where
  session : Session
  outlines : List Outline
  /-- The nodes of the outlines, resolved as far as that goes. -/
  nodes : List Node
  complaints : List Complaint
  /-- What brought resolution to a halt. -/
  fault : Option Fault
  /-- Whether resolution was asked for. -/
  isResolved : Bool := false

/-- A reference that resolution found: its kind of node, the text of the node, its line, and the
distance. -/
structure Workbench.Row where
  kind : NodeKind
  text : String
  line : Int
  hops : Nat
deriving DecidableEq

namespace Workbench

def ofOutlines (s : Session) (outlines : List Outline) : Workbench :=
  let reply := Resolver.nodes (Outline.toNodes [] 0 outlines) {}
  { session := s
    outlines
    nodes := reply.value
    complaints := reply.complaints
    fault := reply.surroundings.fault }

def printed (w : Workbench) : Except Fault (List String) := w.nodes.mapM Node.printed?

def described (w : Workbench) : List String := w.outlines.map Outline.described

/-- What resolution finds. -/
def rows (w : Workbench) : Except Fault (List Row) :=
  match w.fault with
  | some fault => .error fault
  | none => (Node.bindingsAll w.nodes).mapM fun b => do
    return ⟨b.kind, ← b.node.printed?, b.token.line, b.hops⟩

/-- From now on references go by what resolution finds. Its complaints are reported. -/
def resolve (w : Workbench) : Workbench :=
  { w with session := w.session.complain w.complaints, isResolved := true }

/-- Runs the nodes as a program is run. -/
def interpret (w : Workbench) : Workbench × Option Crash :=
  let (session, crash) := w.session.interpret w.isResolved w.nodes
  ({ w with session }, crash)

/-- The values of the nodes, or the signal of the first that has none. -/
def evaluate (w : Workbench) : Workbench × Except Signal (List Value) :=
  let s := w.session
  match w.nodes.mapM (Eval.eval (s.mode w.isResolved) s.limits.depth) s.machine with
  | .ok values machine => ({ w with session := { s with machine } }, .ok values)
  | .error signal machine => ({ w with session := { s with machine } }, .error signal)

end Workbench

end Lox
