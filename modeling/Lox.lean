import Lox.CommandLine
import Lox.Directory
import Lox.Machine.Objects
import Lox.Main
import Lox.Proofs.Accepted
import Lox.Proofs.Additions
import Lox.Proofs.Advancing
import Lox.Proofs.Alike
import Lox.Proofs.CallFrame
import Lox.Proofs.Chains
import Lox.Proofs.Coherence
import Lox.Proofs.Concatenated
import Lox.Proofs.Confined
import Lox.Proofs.Covering
import Lox.Proofs.Derived
import Lox.Proofs.Dispatch
import Lox.Proofs.Endings
import Lox.Proofs.Equality
import Lox.Proofs.Execution
import Lox.Proofs.Following
import Lox.Proofs.ForLoops
import Lox.Proofs.Grammar
import Lox.Proofs.History
import Lox.Proofs.InPieces
import Lox.Proofs.Inheritance
import Lox.Proofs.Initializers
import Lox.Proofs.Joined
import Lox.Proofs.Keeping
import Lox.Proofs.Lexical
import Lox.Proofs.Lexicon
import Lox.Proofs.Mapped
import Lox.Proofs.Moments
import Lox.Proofs.Nearest
import Lox.Proofs.Numerals
import Lox.Proofs.Pairs
import Lox.Proofs.Persistence
import Lox.Proofs.Phases
import Lox.Proofs.Placement
import Lox.Proofs.Positions
import Lox.Proofs.Printing
import Lox.Proofs.ReadBack
import Lox.Proofs.Reading
import Lox.Proofs.Ready
import Lox.Proofs.Receivers
import Lox.Proofs.Recovery
import Lox.Proofs.RejectedLines
import Lox.Proofs.Relabeled
import Lox.Proofs.Remarks
import Lox.Proofs.Renamed
import Lox.Proofs.Renaming
import Lox.Proofs.Resolving
import Lox.Proofs.Respaced
import Lox.Proofs.Respelled
import Lox.Proofs.Restored
import Lox.Proofs.Retracing
import Lox.Proofs.Rounding
import Lox.Proofs.SExpr
import Lox.Proofs.Scanning
import Lox.Proofs.Scoped
import Lox.Proofs.Shape
import Lox.Proofs.Shapes
import Lox.Proofs.SideBySide
import Lox.Proofs.Signs
import Lox.Proofs.Simulation
import Lox.Proofs.Spelled
import Lox.Proofs.Tame
import Lox.Proofs.Twins
import Lox.Proofs.Unambiguous
import Lox.Proofs.Unlined
import Lox.Proofs.UnlinedRun
import Lox.Proofs.Unused
import Lox.Proofs.Visits
import Lox.Proofs.WellFormed
import Lox.Session.Step
import Lox.Session.Workbench
import Lox.Store.Lemmas
import Lox.Tree.Coverage
