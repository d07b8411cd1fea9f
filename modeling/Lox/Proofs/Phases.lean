import Mathlib.Data.List.TakeWhile
import Mathlib.Tactic
import Lox.Proofs.Advancing
import Lox.Proofs.Resolving
import Lox.Session

/-!
# The phases of a run

A source is scanned, parsed and resolved before it is run, and each phase reports what it finds
wrong. All of these reports are static, so that a source that comes to be run left the session as
it was, and its statements are scoped (`run_cases`).
-/

namespace Lox

namespace Reporter

/-- Static reports raise one flag, and the others the other. -/
theorem flags_addAll (r : Reporter) (reports : List Report) :
    (r.addAll reports).hadError = (r.hadError || reports.any Report.isStatic) ∧
      (r.addAll reports).hadRuntimeError =
        (r.hadRuntimeError || reports.any fun report => !report.isStatic) := by
  induction reports generalizing r with
  | nil => simp [addAll]
  | cons report rest ih =>
    obtain ⟨hstatic, hruntime⟩ := ih (r.add report)
    rw [addAll] at hstatic hruntime ⊢
    rw [List.foldl_cons, hstatic, hruntime]
    simp [add, Bool.or_assoc]

theorem addAll_append (r : Reporter) (first second : List Report) :
    r.addAll (first ++ second) = (r.addAll first).addAll second := List.foldl_append

end Reporter

/-- The list has static reports only. -/
def Report.AllStatic (reports : List Report) : Prop := ∀ r ∈ reports, r.isStatic = true

namespace Report

theorem allStatic_complaints (complaints : List Complaint) :
    AllStatic (complaints.map .ofComplaint) := by
  intro r hr
  obtain ⟨c, -, rfl⟩ := List.mem_map.1 hr
  rfl

theorem AllStatic.append {first second : List Report} (h : AllStatic first)
    (h' : AllStatic second) : AllStatic (first ++ second) := by
  intro r hr
  rcases List.mem_append.1 hr with hr | hr
  · exact h r hr
  · exact h' r hr

end Report

namespace Session

variable {s : Session} {source : String}

theorem report_append (s : Session) (first second : List Report) :
    (s.report first).report second = s.report (first ++ second) := by
  simp [report, Reporter.addAll_append]

/-- Static reports that raise no flag are none at all. -/
theorem eq_nil_of_hadError {reports : List Report} (h : Report.AllStatic reports)
    (hflag : (s.report reports).hadError = false) : reports = [] := by
  rw [hadError, report, (Reporter.flags_addAll _ _).1, Bool.or_eq_false_iff] at hflag
  cases reports with
  | nil => rfl
  | cons r rest =>
    have hfirst := h r List.mem_cons_self
    simp [hfirst] at hflag

/-! ## Parsing -/

theorem ended_tokens (source : String) : Parser.Ended (scan source).tokens := by
  obtain ⟨body, last, htokens, -⟩ := scan_tokens_eq source
  exact ⟨⟨.eof, "", .nil, last⟩, by simp [htokens], rfl⟩

theorem allLexed_tokens (source : String) : Resolver.AllLexed (· ∈ (scan source).tokens) := by
  obtain ⟨body, last, htokens, hbody⟩ := scan_tokens_eq source
  intro t ht hkind
  rw [htokens] at ht
  rcases List.mem_append.1 ht with ht | ht
  · exact hbody t ht
  · obtain rfl := List.mem_singleton.1 ht
    exact absurd rfl hkind

/-- What is reported of the scanned source. -/
def scanReports (source : String) : List Report :=
  (scan source).faults.map fun (line, fault) => .ofFault line fault

theorem allStatic_scanReports (source : String) : Report.AllStatic (scanReports source) := by
  intro r hr
  obtain ⟨⟨line, fault⟩, -, rfl⟩ := List.mem_map.1 hr
  rfl

/-- Parsing makes static reports, and gives the statements of the source or is nested too deep. -/
theorem parse_spec (s : Session) (source : String) :
    ∃ reports, Report.AllStatic reports ∧ (s.parse source).1 = s.report reports ∧
      ((s.parse source).2 = .error .overflow ∨ ∃ statements, (s.parse source).2 = .ok statements ∧
        (reports = [] → (scan source).faults = [] ∧ ∃ rest,
          Parser.program s.limits.grammar (scan source).tokens = ⟨[], .ok statements rest⟩)) := by
  have hgoes := Parser.program_goes s.limits.grammar (ended_tokens source)
  have hparse : s.parse source = (s.report (scanReports source)).parseTokens
      (scan source).tokens := rfl
  unfold Parser.Goes at hgoes
  unfold parseTokens at hparse
  simp only [report] at hparse
  rcases hreply : Parser.program s.limits.grammar (scan source).tokens with ⟨complaints, result⟩
  rw [hreply] at hgoes hparse
  refine ⟨scanReports source ++ complaints.map .ofComplaint,
    (allStatic_scanReports source).append (Report.allStatic_complaints _), ?_⟩
  have hnil : scanReports source ++ complaints.map .ofComplaint = [] →
      (scan source).faults = [] ∧ complaints = [] := by simp [scanReports]
  rw [← report_append, hparse]
  rcases result with ⟨statements, rest⟩ | rest | _ | _
  · refine ⟨rfl, .inr ⟨statements, rfl, fun hnone => ⟨(hnil hnone).1, rest, ?_⟩⟩⟩
    rw [(hnil hnone).2]
  · exact ⟨rfl, .inr ⟨[], rfl, fun hnone => absurd (hnil hnone).2 hgoes.2⟩⟩
  · exact hgoes.elim
  · exact ⟨rfl, .inl rfl⟩

/-! ## Resolving -/

theorem shallow_eq {statements : List Node} (h : (s.shallow statements).2 = false) :
    (s.shallow statements).1 = statements := by
  simp only [shallow, List.span_eq_takeWhile_dropWhile] at h ⊢
  have hnone : statements.dropWhile (fun n => decide (n.nesting ≤ s.limits.nesting)) = [] := by
    simpa using h
  calc _ = _ ++ statements.dropWhile (fun n => decide (n.nesting ≤ s.limits.nesting)) := by
        rw [hnone, List.append_nil]
    _ = statements := List.takeWhile_append_dropWhile

theorem nesting_le_of_shallow {statements : List Node} (h : (s.shallow statements).2 = false) :
    ∀ n ∈ statements, n.nesting ≤ s.limits.nesting := by
  intro n hn
  rw [← shallow_eq h] at hn
  simp only [shallow, List.span_eq_takeWhile_dropWhile] at hn
  simpa using List.mem_takeWhile_imp hn

/-- Resolving makes static reports, and gives the resolved trees unless one is too deep. -/
theorem resolve_spec (s : Session) (statements : List Node) :
    ∃ reports, Report.AllStatic reports ∧ (s.resolve statements).1 = s.report reports ∧
      ((s.resolve statements).2 = .error .overflow ∨
        (s.resolve statements).2 = .ok (Lox.resolve statements).1 ∧
          (∀ n ∈ statements, n.nesting ≤ s.limits.nesting) ∧
          (reports = [] → (Lox.resolve statements).2 = [])) := by
  have hresolve : s.resolve statements =
      (s.complain (Lox.resolve (s.shallow statements).1).2,
        if (s.shallow statements).2 then .error .overflow
        else .ok (Lox.resolve (s.shallow statements).1).1) := rfl
  refine ⟨(Lox.resolve (s.shallow statements).1).2.map .ofComplaint,
    Report.allStatic_complaints _, by rw [hresolve]; rfl, ?_⟩
  rw [hresolve]
  rcases hdeep : (s.shallow statements).2 with _ | _
  · rw [shallow_eq hdeep]
    exact .inr ⟨rfl, nesting_le_of_shallow hdeep, fun hnone => List.map_eq_nil_iff.1 hnone⟩
  · exact .inl rfl

end Session

/-- The source is scanned, parsed and resolved within the limits, and there is nothing to complain
of. -/
structure Limits.Admits (limits : Limits) (source : String) (statements : List Node) : Prop where
  scanned : (scan source).faults = []
  parsed : ∃ rest,
    Parser.program limits.grammar (scan source).tokens = ⟨[], .ok statements rest⟩
  shallow : ∀ n ∈ statements, n.nesting ≤ limits.nesting
  resolved : (resolve statements).2 = []

namespace Limits

variable {source : String} {statements : List Node}

theorem Admits.fits {limits : Limits} (h : limits.Admits source statements) :
    Node.FitAll (· ∈ (scan source).tokens) .declaration statements := by
  obtain ⟨rest, hparsed⟩ := h.parsed
  have hfits := Parser.fits_program limits.grammar (scan source).tokens fun _ ht => ht
  rw [hparsed] at hfits
  exact hfits.2

theorem Admits.scoped {limits : Limits} (h : limits.Admits source statements) :
    Node.ScopedAll {} (Lox.resolve statements).1 :=
  scopedAll_resolve (Session.allLexed_tokens source) h.fits h.resolved

end Limits

namespace Session

variable {s : Session} {source : String}

/-! ## Running -/

/-- The statements that a run of the source executes, if it comes to that. -/
def executed? (s : Session) (source : String) : Option (List Node) :=
  match s.parse source with
  | (_, .error _) => none
  | (parsed, .ok statements) =>
    if parsed.hadError then none
    else match parsed.resolve statements with
      | (_, .error _) => none
      | (resolved, .ok nodes) => if resolved.hadError then none else some nodes

/-- A run that executes nothing made static reports only, and ends for them or at a limit. -/
structure Refuses (s : Session) (source : String) (reports : List Report) : Prop where
  executed : s.executed? source = none
  static : Report.AllStatic reports
  session : (s.run source).1 = s.report reports
  crash : (s.run source).2 = some .overflow ∨
    (s.run source).2 = none ∧ (s.report reports).hadError = true

/-- A run executes nothing, or the source is admitted and its statements are executed in the session
as it was. -/
theorem admits_cases (s : Session) (source : String) :
    (∃ reports, s.Refuses source reports) ∨
      ∃ statements, s.limits.Admits source statements ∧
        s.executed? source = some (Lox.resolve statements).1 ∧
        s.run source = s.interpret true (Lox.resolve statements).1 := by
  obtain ⟨reports, hstatic, hsession, hparsed⟩ := parse_spec s source
  rcases hparse : s.parse source with ⟨parsed, result⟩
  rw [hparse] at hsession hparsed
  obtain rfl : parsed = s.report reports := hsession
  rcases hparsed with hdeep | ⟨statements, hok, hreads⟩
  · obtain rfl : result = _ := hdeep
    refine .inl ⟨reports, ?_, hstatic, ?_, .inl ?_⟩ <;> simp only [executed?, run, hparse]
  · obtain rfl : result = _ := hok
    rcases hflag : (s.report reports).hadError with _ | _
    · obtain rfl := eq_nil_of_hadError hstatic hflag
      have hsame : s.report [] = s := rfl
      rw [hsame] at hparse hflag
      obtain ⟨more, hmore, hsession', hresolved⟩ := resolve_spec s statements
      rcases hresolve : s.resolve statements with ⟨resolved, result⟩
      rw [hresolve] at hsession' hresolved
      obtain rfl : resolved = s.report more := hsession'
      rcases hresolved with hdeep | ⟨hok', hshallow, hclean⟩
      · obtain rfl : result = _ := hdeep
        refine .inl ⟨more, ?_, hmore, ?_, .inl ?_⟩ <;>
          simp [executed?, run, hparse, hflag, hresolve]
      · obtain rfl : result = _ := hok'
        rcases hflag' : (s.report more).hadError with _ | _
        · obtain rfl := eq_nil_of_hadError hmore hflag'
          rw [hsame] at hresolve
          refine .inr ⟨statements, ⟨(hreads rfl).1, (hreads rfl).2, hshallow, hclean rfl⟩, ?_, ?_⟩
          all_goals simp [executed?, run, hparse, hflag, hresolve]
        · refine .inl ⟨more, ?_, hmore, ?_, .inr ⟨?_, hflag'⟩⟩ <;>
            simp [executed?, run, hparse, hflag, hresolve, hflag']
    · refine .inl ⟨reports, ?_, hstatic, ?_, .inr ⟨?_, hflag⟩⟩ <;>
        simp [executed?, run, hparse, hflag]

/-- A run executes nothing, or it executes scoped statements in the session as it was. -/
theorem run_cases (s : Session) (source : String) :
    (∃ reports, s.Refuses source reports) ∨
      ∃ nodes, s.executed? source = some nodes ∧ Node.ScopedAll {} nodes ∧
        s.run source = s.interpret true nodes :=
  (admits_cases s source).imp_right fun ⟨_, hadmits, hexecuted, hrun⟩ =>
    ⟨_, hexecuted, hadmits.scoped, hrun⟩

end Session

namespace Limits

variable {source : String} {statements : List Node}

theorem Admits.parse {s : Session} (h : s.limits.Admits source statements) :
    s.parse source = (s, .ok statements) := by
  obtain ⟨rest, hparsed⟩ := h.parsed
  simp only [Session.parse, Session.scanSource, Session.parseTokens, h.scanned]
  simp only [Session.report, List.map_nil, hparsed]
  rfl

/-- What is admitted is run, if nothing was complained of before. -/
theorem Admits.run {s : Session} (h : s.limits.Admits source statements)
    (herror : s.hadError = false) :
    s.run source = s.interpret true (Lox.resolve statements).1 := by
  have hshallow : s.shallow statements = (statements, false) := by
    have hall : ∀ n ∈ statements, decide (n.nesting ≤ s.limits.nesting) = true := fun n hn =>
      decide_eq_true (h.shallow n hn)
    simp only [Session.shallow, List.span_eq_takeWhile_dropWhile, List.takeWhile_eq_self_iff.2 hall,
      List.dropWhile_eq_nil_iff.2 hall]
    rfl
  have hresolve : s.resolve statements = (s, .ok (Lox.resolve statements).1) := by
    simp only [Session.resolve, hshallow, h.resolved]
    rfl
  simp only [Session.run, h.parse, herror, hresolve, Bool.false_eq_true, if_false]

/-- What is admitted is not run after a complaint. -/
theorem Admits.run_of_hadError {s : Session} (h : s.limits.Admits source statements)
    (herror : s.hadError = true) : s.run source = (s, none) := by
  simp only [Session.run, h.parse, herror, if_true]

/-- A source of which something is executed is admitted. -/
theorem admits_of_executed (s : Session) (source : String)
    (h : (s.executed? source).isSome = true) :
    ∃ statements, s.limits.Admits source statements := by
  rcases s.admits_cases source with ⟨reports, hrefuses⟩ | ⟨statements, hadmits, -⟩
  · rw [hrefuses.executed] at h
    cases h
  · exact ⟨statements, hadmits⟩

end Limits

end Lox
