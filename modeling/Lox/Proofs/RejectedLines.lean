import Mathlib.Tactic
import Lox.Proofs.Phases
import Lox.Session.Prompt

/-!
# Rejected lines leave no trace

What a line does at the prompt is its `LineEffect`: what it prints, what it reports, and the
machine it leaves. It depends on the machine before the line and on nothing that was reported
earlier (`lineEffect_congr`), for the reporter is reset before each line and what was written is
never read. A line with a static report leaves the machine as it was (`promptLine_of_rejected`).

Hence lines that are rejected can be deleted from the input of the prompt, and each line that is
left has the effect that it had among them (`prompt_deleting_rejected`).
-/

namespace Lox

namespace Reporter

/-- The reporter as it is when something was written before all that it wrote. -/
def after (earlier : Array Report) (r : Reporter) : Reporter :=
  { r with written := earlier ++ r.written }

theorem addAll_after (earlier : Array Report) (r : Reporter) (reports : List Report) :
    (r.after earlier).addAll reports = (r.addAll reports).after earlier := by
  induction reports generalizing r with
  | nil => rfl
  | cons report rest ih =>
    have hadd : (r.after earlier).add report = (r.add report).after earlier := by
      simp [add, after]
    have hrest := ih (r.add report)
    rw [← hadd] at hrest
    exact hrest

theorem toList_addAll (r : Reporter) (reports : List Report) :
    (r.addAll reports).reports.toList = r.reports.toList ++ reports ∧
      (r.addAll reports).written.toList = r.written.toList ++ reports := by
  induction reports generalizing r with
  | nil => simp [addAll]
  | cons report rest ih =>
    have hrest := ih (r.add report)
    simpa [addAll, add] using hrest

end Reporter

namespace Session

/-- The session as it is when something was written before all that it wrote. -/
def after (earlier : Array Report) (s : Session) : Session :=
  { s with reporter := s.reporter.after earlier }

variable (earlier : Array Report) (s : Session)

theorem report_after (reports : List Report) :
    (s.after earlier).report reports = (s.report reports).after earlier := by
  simp [report, after, Reporter.addAll_after]

theorem parse_after (source : String) :
    (s.after earlier).parse source = ((s.parse source).1.after earlier, (s.parse source).2) := by
  have hparse : ∀ t : Session, t.parse source =
      (t.report (scanReports source)).parseTokens (scan source).tokens := fun _ => rfl
  rw [hparse, hparse, report_after]
  generalize s.report (scanReports source) = t
  have hlimits : (t.after earlier).limits = t.limits := rfl
  unfold parseTokens complain
  rw [hlimits]
  simp only [report_after]
  split <;> rfl

theorem resolve_after (statements : List Node) :
    (s.after earlier).resolve statements =
      ((s.resolve statements).1.after earlier, (s.resolve statements).2) := by
  have hresolve : ∀ t : Session, t.resolve statements =
      (t.complain (Lox.resolve (t.shallow statements).1).2,
        if (t.shallow statements).2 then .error .overflow
        else .ok (Lox.resolve (t.shallow statements).1).1) := fun _ => rfl
  have hshallow : (s.after earlier).shallow statements = s.shallow statements := rfl
  rw [hresolve, hresolve, hshallow, complain, complain, report_after]

theorem interpret_after (byDistance : Bool) (nodes : List Node) :
    (s.after earlier).interpret byDistance nodes =
      ((s.interpret byDistance nodes).1.after earlier, (s.interpret byDistance nodes).2) := by
  have hmode : (s.after earlier).mode byDistance = s.mode byDistance := rfl
  have hlimits : (s.after earlier).limits = s.limits := rfl
  have hmachine : (s.after earlier).machine = s.machine := rfl
  have hput : ∀ machine, ({ s.after earlier with machine } : Session) =
      ({ s with machine } : Session).after earlier := fun _ => rfl
  unfold interpret
  rw [hmode, hlimits, hmachine]
  rcases Eval.inOrder (Eval.eval (s.mode byDistance) s.limits.depth) nodes s.machine with
    ⟨a, m⟩ | ⟨signal, m⟩
  · rfl
  · cases signal <;> simp only [conclude, hput, report_after]

/-- What was written earlier is carried along, and nothing else depends on it. -/
theorem run_after (source : String) :
    (s.after earlier).run source = ((s.run source).1.after earlier, (s.run source).2) := by
  have hflag : ∀ t : Session, (t.after earlier).hadError = t.hadError := fun _ => rfl
  unfold run
  rw [parse_after]
  rcases s.parse source with ⟨parsed, crash | statements⟩
  · rfl
  · simp only [hflag, resolve_after]
    split
    · rfl
    · rcases parsed.resolve statements with ⟨resolved, crash | nodes⟩
      · rfl
      · simp only [hflag, interpret_after]
        split <;> rfl

/-- A run adds reports. If it executes nothing they are static and the machine is as it was, and
otherwise none of them is static. -/
theorem run_eq_report (source : String) :
    ∃ reports machine, (s.run source).1 = { s with machine }.report reports ∧
      (machine = s.machine ∧ Report.AllStatic reports ∨ ∀ r ∈ reports, r.isStatic = false) := by
  rcases run_cases s source with ⟨reports, hrefuses⟩ | ⟨nodes, -, -, hrun⟩
  · exact ⟨reports, s.machine, hrefuses.session, .inl ⟨rfl, hrefuses.static⟩⟩
  · rw [hrun, interpret]
    rcases Eval.inOrder (Eval.eval (s.mode true) s.limits.depth) nodes s.machine with
      ⟨a, m⟩ | ⟨signal, m⟩
    · exact ⟨[], m, rfl, .inr (List.forall_mem_nil _)⟩
    · cases signal with
      | error e =>
        refine ⟨[.runtime e.message e.token.line], m, rfl, .inr fun r hr => ?_⟩
        rw [List.mem_singleton.1 hr]
        rfl
      | _ => exact ⟨[], m, rfl, .inr (List.forall_mem_nil _)⟩

end Session

/-- What a line does at the prompt. -/
structure LineEffect where
  output : String
  /-- What is reported of the line, static reports as well as runtime errors. -/
  reports : List Report
  /-- The machine that the line leaves, with all that its program can ever see. -/
  machine : Machine

namespace LineEffect

/-- The scanner, the parser or the resolver reports something. -/
def Rejected (e : LineEffect) : Prop := ∃ r ∈ e.reports, r.isStatic = true

instance (e : LineEffect) : Decidable e.Rejected :=
  inferInstanceAs (Decidable (∃ r ∈ e.reports, r.isStatic = true))

/-- The line ends in a runtime error. -/
def Failed (e : LineEffect) : Prop := ∃ r ∈ e.reports, r.isStatic = false

end LineEffect

namespace Session

def lineEffect (s : Session) (line : String) : LineEffect :=
  let next := (s.promptLine line).1
  ⟨next.outputSince s, next.reporter.reports.toList, next.machine⟩

/-- The effects of lines given one after the other. -/
def lineEffects (s : Session) : List String → List LineEffect
  | [] => []
  | line :: rest => s.lineEffect line :: (s.promptLine line).1.lineEffects rest

/-- The session with the same machine in which nothing was ever reported. -/
def cleared (s : Session) : Session := { s with reporter := {} }

variable {s t : Session} {line : String}

theorem promptLine_eq (s : Session) (line : String) :
    s.promptLine line =
      ((s.cleared.run line).1.after s.reporter.written, (s.cleared.run line).2) := by
  have hreset : s.reset = s.cleared.after s.reporter.written := by
    simp [reset, cleared, after, Reporter.reset, Reporter.after]
  rw [promptLine, hreset, run_after]

/-! ## One line -/

theorem lineEffect_congr (h : s.cleared = t.cleared) (line : String) :
    s.lineEffect line = t.lineEffect line ∧
      (s.promptLine line).1.cleared = (t.promptLine line).1.cleared ∧
      (s.promptLine line).2 = (t.promptLine line).2 := by
  have hmachine : s.machine = t.machine := (Session.mk.inj h).2.1
  simp only [lineEffect, promptLine_eq, h, outputSince, hmachine]
  exact ⟨rfl, rfl, trivial⟩

/-- A line adds its reports to what was written. It is rejected and leaves the machine as it was,
or it is not rejected. -/
theorem promptLine_spec (s : Session) (line : String) :
    (s.promptLine line).1.reporter.written.toList =
        s.reporter.written.toList ++ (s.lineEffect line).reports ∧
      ((s.promptLine line).1.cleared = s.cleared ∧ ¬ (s.lineEffect line).Failed ∨
        ¬ (s.lineEffect line).Rejected) := by
  obtain ⟨reports, machine, hrun, hcases⟩ := run_eq_report s.cleared line
  have hline : (s.promptLine line).1 =
      ({ s.cleared with machine }.report reports).after s.reporter.written := by
    rw [promptLine_eq, hrun]
  obtain ⟨hreports, hwritten⟩ := Reporter.toList_addAll {} reports
  have heffect : (s.lineEffect line).reports = reports := by
    rw [lineEffect, hline]
    exact hreports
  refine ⟨?_, ?_⟩
  · rw [heffect, hline]
    exact (Array.toList_append ..).trans (congrArg _ hwritten)
  · rcases hcases with ⟨rfl, hstatic⟩ | hruntime
    · refine .inl ⟨by rw [hline]; rfl, ?_⟩
      rintro ⟨r, hr, hnot⟩
      rw [heffect] at hr
      exact absurd (hstatic r hr) (by simp [hnot])
    · refine .inr ?_
      rintro ⟨r, hr, hstatic⟩
      rw [heffect] at hr
      exact absurd (hruntime r hr) (by simp [hstatic])

/-- A rejected line has no runtime error, and leaves the machine as it was. -/
theorem promptLine_of_rejected (h : (s.lineEffect line).Rejected) :
    (s.promptLine line).1.cleared = s.cleared ∧ ¬ (s.lineEffect line).Failed :=
  (promptLine_spec s line).2.resolve_right (not_not_intro h)

/-! ## All the lines -/

/-- The transcript of a prompt at which lines with these effects were given. -/
structure Shows (s : Session) (effects : List LineEffect) (t : Transcript) : Prop where
  crash : t.crash = none
  output : t.output =
    String.join (effects.map fun e => promptText ++ e.output) ++ (promptText ++ "\n")
  written : t.session.reporter.written.toList =
    s.reporter.written.toList ++ effects.flatMap (·.reports)
  machine : t.session.machine = (effects.getLast?.map (·.machine)).getD s.machine

theorem prompt_cons_crash (s : Session) (line : String) (rest : List String) :
    (s.prompt (line :: rest)).crash = none ↔
      (s.promptLine line).2 = none ∧ ((s.promptLine line).1.prompt rest).crash = none := by
  rw [prompt]
  rcases s.promptLine line with ⟨next, _ | crash⟩ <;> simp

theorem prompt_cons {line : String} (h : (s.promptLine line).2 = none) (rest : List String) :
    s.prompt (line :: rest) =
      { (s.promptLine line).1.prompt rest with
        output := promptText ++ (s.lineEffect line).output ++
          ((s.promptLine line).1.prompt rest).output } := by
  rw [prompt, lineEffect]
  rcases hline : s.promptLine line with ⟨next, crash⟩
  rw [hline] at h
  cases h
  rfl

/-- A prompt that no crash ends shows the effects of its lines. -/
theorem prompt_shows (lines : List String) (s : Session) (h : (s.prompt lines).crash = none) :
    Shows s (s.lineEffects lines) (s.prompt lines) := by
  induction lines generalizing s with
  | nil =>
    exact ⟨rfl, by simp [prompt, lineEffects, String.join], by simp [prompt, lineEffects], rfl⟩
  | cons line rest ih =>
    obtain ⟨hcrash, hrest⟩ := (prompt_cons_crash s line rest).1 h
    obtain ⟨-, houtput, hwritten, hmachine⟩ := ih _ hrest
    refine ⟨h, ?_, ?_, ?_⟩
    · rw [prompt_cons hcrash, lineEffects, List.map_cons, String.join_cons, houtput]
      simp only [String.append_assoc]
    · rw [prompt_cons hcrash, lineEffects, List.flatMap_cons, ← List.append_assoc,
        ← (promptLine_spec s line).1]
      exact hwritten
    · rw [prompt_cons hcrash, lineEffects, List.getLast?_cons]
      refine hmachine.trans ?_
      rcases ((s.promptLine line).1.lineEffects rest).getLast? <;> rfl

/-- Each line that is kept has the effect that it had before the marked lines were deleted. The two
sessions differ in what was reported. -/
theorem lineEffects_kept (marked : List (String × Bool)) {s t : Session}
    (hsame : s.cleared = t.cleared) (hcrash : (s.prompt (marked.map (·.1))).crash = none)
    (hrejected : ∀ p ∈ marked.zip (s.lineEffects (marked.map (·.1))),
      p.1.2 = true → p.2.Rejected) :
    (t.prompt ((marked.filter (!·.2)).map (·.1))).crash = none ∧
      t.lineEffects ((marked.filter (!·.2)).map (·.1)) =
        ((marked.zip (s.lineEffects (marked.map (·.1)))).filter (!·.1.2)).map (·.2) ∧
      (t.prompt ((marked.filter (!·.2)).map (·.1))).session.machine =
        (s.prompt (marked.map (·.1))).session.machine := by
  induction marked generalizing s t with
  | nil => exact ⟨rfl, rfl, (Session.mk.inj hsame).2.1.symm⟩
  | cons entry marked ih =>
    obtain ⟨line, deleted⟩ := entry
    simp only [List.map_cons] at hcrash
    obtain ⟨hline, hrest⟩ := (prompt_cons_crash s line _).1 hcrash
    obtain ⟨heffect, hnext, hsame'⟩ := lineEffect_congr hsame line
    simp only [List.map_cons, lineEffects, List.zip_cons_cons, List.forall_mem_cons] at hrejected
    have hmachine : (s.prompt (line :: marked.map (·.1))).session =
        ((s.promptLine line).1.prompt (marked.map (·.1))).session := by
      rw [prompt_cons hline]
    cases deleted with
    | false =>
      obtain ⟨hcrash', heffects, hmachine'⟩ := ih hnext hrest hrejected.2
      have hline' : (t.promptLine line).2 = none := hsame'.symm.trans hline
      simp only [List.map_cons, lineEffects, List.zip_cons_cons, Bool.not_false,
        List.filter_cons_of_pos, prompt_cons_crash, hmachine]
      refine ⟨⟨hline', hcrash'⟩, by rw [heffects, heffect], ?_⟩
      rw [prompt_cons hline', ← hmachine']
    | true =>
      -- The session is back where it was, but for what was reported.
      have hback := (promptLine_of_rejected (hrejected.1 rfl)).1
      obtain ⟨hcrash', heffects, hmachine'⟩ := ih (hback.trans hsame) hrest hrejected.2
      simp only [List.map_cons, lineEffects, List.zip_cons_cons, Bool.not_true,
        Bool.false_eq_true, not_false_eq_true, List.filter_cons_of_neg, hmachine]
      exact ⟨hcrash', heffects, hmachine'⟩

theorem not_failed_of_rejected (lines : List String) (s : Session) :
    ∀ e ∈ s.lineEffects lines, e.Rejected → ¬ e.Failed := by
  induction lines generalizing s with
  | nil => exact List.forall_mem_nil _
  | cons line rest ih =>
    exact List.forall_mem_cons.2 ⟨fun h => (promptLine_of_rejected h).2, ih _⟩

/-- Of the lines given at a prompt that no crash ends, some are marked, and each of these is
rejected. Without them the prompt shows the effects that the other lines had among them, output,
reports and machine, and ends with the same machine. No line that ends in a runtime error is
rejected. -/
theorem prompt_deleting_rejected (s : Session) (marked : List (String × Bool))
    (hcrash : (s.prompt (marked.map (·.1))).crash = none)
    (hrejected : ∀ p ∈ marked.zip (s.lineEffects (marked.map (·.1))),
      p.1.2 = true → p.2.Rejected) :
    Shows s (((marked.zip (s.lineEffects (marked.map (·.1)))).filter (!·.1.2)).map (·.2))
        (s.prompt ((marked.filter (!·.2)).map (·.1))) ∧
      (s.prompt ((marked.filter (!·.2)).map (·.1))).session.machine =
        (s.prompt (marked.map (·.1))).session.machine ∧
      Shows s (s.lineEffects (marked.map (·.1))) (s.prompt (marked.map (·.1))) ∧
      ∀ e ∈ s.lineEffects (marked.map (·.1)), e.Rejected → ¬ e.Failed := by
  obtain ⟨hcrash', heffects, hmachine⟩ := lineEffects_kept marked rfl hcrash hrejected
  refine ⟨?_, hmachine, prompt_shows _ s hcrash, not_failed_of_rejected _ s⟩
  rw [← heffects]
  exact prompt_shows _ s hcrash'

/-- The second line is not parsed and the fourth is not resolved. The third fails after an
assignment, which stays. -/
theorem prompt_deleting_two_rejected :
    (({} : Session).prompt ["var a = 1;", "print a", "a = 2; a = -nil;", "return 1;",
        "print a;"]).crash = none ∧
      (({} : Session).prompt ["var a = 1;", "a = 2; a = -nil;", "print a;"]).session.machine =
        (({} : Session).prompt ["var a = 1;", "print a", "a = 2; a = -nil;", "return 1;",
          "print a;"]).session.machine :=
  have hcrash : (({} : Session).prompt ["var a = 1;", "print a", "a = 2; a = -nil;", "return 1;",
      "print a;"]).crash = none := by decide +kernel
  ⟨hcrash, (prompt_deleting_rejected {} [("var a = 1;", false), ("print a", true),
    ("a = 2; a = -nil;", false), ("return 1;", true), ("print a;", false)] hcrash
    (by decide +kernel)).2.1⟩

end Session

end Lox
