import Mathlib.Tactic
import Lox.Proofs.Joined
import Lox.Proofs.Phases
import Lox.Proofs.Respelled
import Lox.Proofs.UnlinedRun

/-!
# Layout does not matter

The lexemes of a source with single spaces between them make a source of their own (`Respaced`),
which has the same tokens but for their lines. Sources that have the same tokens but for their lines
do the same in every session, whatever became of it before, and what is reported of them differs in
lines only (`run_unlined`). So it makes no difference how a source is laid out.
-/

namespace Lox

/-- The other source is the lexemes of the source, with one space between each two. The end of the
source has an empty lexeme, which may count as one of them or not. -/
def Respaced (source source' : String) : Prop :=
  source' = " ".intercalate ((scan source).tokens.map (·.lexeme)) ∨
    source' = " ".intercalate ((scan source).tokens.dropLast.map (·.lexeme))

/-! ## Scanning -/

namespace Scan

/-- The piece from which a token was read. -/
def tokenPiece (t : Token) : Piece := .token t.kind t.lexeme.toList t.literal

/-- Where a blank or nothing comes next, every token is cut off that is cut off anywhere. -/
theorem Cut.before_space {kind : TokenKind} {chars rest after : List Char} {literal : Literal}
    (h : Cut (.token kind chars literal) rest) (hafter : after = [] ∨ ∃ more, after = ' ' :: more) :
    Cut (.token kind chars literal) after := by
  have hstarts : ∀ {text : List Char}, ' ' ∉ text → text <+: chars ++ after → text <+: chars := by
    intro text htext hprefix
    rcases hafter with rfl | ⟨more, rfl⟩
    · rwa [List.append_nil] at hprefix
    · exact prefix_of_not_mem htext hprefix
  cases h with
  | lexeme hlexeme hlongest hslash =>
    refine .lexeme hlexeme (fun kind longer literal hprefix hlonger => ?_) fun hprefix => ?_
    · exact (hstarts (hlonger.blank_not_mem (by decide)) hprefix).length_le
    · exact hslash ((hstarts (by decide) hprefix).trans (List.prefix_append _ _))
  | string hbody => exact .string hbody

/-- Lexemes with spaces between them, and perhaps one after them, are cut at the spaces. -/
theorem tiles_intercalate {after : List Char} (hafter : after = [] ∨ after = [' ']) :
    ∀ (ts : List Token), (∀ t ∈ ts, ∃ rest, Cut (tokenPiece t) rest) →
      Tiles ((" ".intercalate (ts.map (·.lexeme))).toList ++ after)
        ((ts.map tokenPiece).intersperse (.blank ' ') ++ after.map .blank)
  | [], _ => by
    rcases hafter with rfl | rfl
    · exact .nil
    · exact .cons (.blank (by decide)) .nil
  | [t], h => by
    obtain ⟨rest, hcut⟩ := h t (by simp)
    have hend := tiles_intercalate hafter [] (by simp)
    have hword := Tiles.cons (hcut.before_space (hafter.imp id fun h => ⟨[], h⟩)) hend
    simpa [tokenPiece, Piece.chars] using hword
  | t :: u :: ts, h => by
    obtain ⟨rest, hcut⟩ := h t (by simp)
    have htail := tiles_intercalate hafter (u :: ts) fun v hv => h v (by simp [hv])
    have hspace := Tiles.cons (p := .blank ' ') (.blank (by decide)) htail
    have hword := Tiles.cons (hcut.before_space (.inr ⟨_, rfl⟩)) hspace
    simpa [String.intercalate_cons_cons, tokenPiece, Piece.chars] using hword

/-- Only the tokens among the pieces count, and the pieces before them only for their lines. -/
theorem tokens_unlined (line : Nat) (ps : List Piece) :
    (tokens line ps).map Token.unlined = ps.filterMap (·.token? 0) ++ [⟨.eof, "", .nil, 0⟩] := by
  induction ps generalizing line with
  | nil => rfl
  | cons p ps ih => cases p <;> simp [tokens, Piece.token?, Token.unlined, ih]

theorem filterMap_intersperse (ts : List Token) :
    ((ts.map tokenPiece).intersperse (.blank ' ')).filterMap (·.token? 0) =
      ts.map Token.unlined := by
  induction ts with
  | nil => rfl
  | cons t ts ih =>
    have htoken : (tokenPiece t).token? 0 = some t.unlined := by
      simp [tokenPiece, Piece.token?, Token.unlined]
    cases ts with
    | nil => simp [htoken]
    | cons u ts =>
      simp only [List.map_cons, List.intersperse_cons_cons, List.filterMap_cons, htoken] at ih ⊢
      rw [ih]
      rfl

theorem fault?_intersperse : ∀ (ts : List Token),
    ∀ p ∈ (ts.map tokenPiece).intersperse (.blank ' '), p.fault? = none
  | [] => by simp
  | [t] => by simp [tokenPiece, Piece.fault?]
  | t :: u :: ts => by
    simpa [tokenPiece, Piece.fault?] using fault?_intersperse (u :: ts)

theorem cut_of_mem {source : String} {t : Token} (h : t ∈ (scan source).tokens)
    (hkind : t.kind ≠ .eof) : ∃ rest, Cut (tokenPiece t) rest := by
  rcases mem_tokens h with ⟨heof, -⟩ | hmem
  · exact absurd heof hkind
  · exact (tiles_pieces _).cut _ hmem

end Scan

/-- The end of the source leaves no more than a space after the lexemes. -/
theorem Respaced.toList_eq {source source' : String} (h : Respaced source source')
    {body : List Token} {last : Int}
    (htokens : (scan source).tokens = body ++ [⟨.eof, "", .nil, last⟩]) :
    ∃ after, (after = [] ∨ after = [' ']) ∧
      source'.toList = (" ".intercalate (body.map (·.lexeme))).toList ++ after := by
  rcases h with rfl | rfl
  · cases body with
    | nil => exact ⟨[], .inl rfl, by simp [htokens]⟩
    | cons t rest =>
      refine ⟨[' '], .inr rfl, ?_⟩
      rw [htokens, List.map_append, String.intercalate_append_of_ne_nil] <;> simp
  · exact ⟨[], .inl rfl, by simp [htokens]⟩

open Scan in
/-- A source of the same lexemes has the same tokens, but for their lines. -/
theorem scan_respaced {source source' : String} (h : Respaced source source') :
    (scan source').faults = [] ∧
      (scan source').tokens.map Token.unlined = (scan source).tokens.map Token.unlined := by
  obtain ⟨body, last, htokens, hbody⟩ := scan_tokens_eq source
  obtain ⟨after, hafter, htext⟩ := h.toList_eq htokens
  have hcut : ∀ t ∈ body, ∃ rest, Cut (tokenPiece t) rest := fun t ht =>
    cut_of_mem (htokens ▸ List.mem_append_left _ ht) (hbody t ht).kind_ne_eof
  have hpieces := (tiles_intercalate hafter body hcut).eq_pieces
  simp only [scan, htext, ← hpieces]
  constructor
  · refine (faults_eq_nil_iff _ _).2 fun p hp => ?_
    rcases List.mem_append.1 hp with hp | hp
    · exact fault?_intersperse body p hp
    · obtain ⟨c, -, rfl⟩ := List.mem_map.1 hp
      rfl
  · have hblanks : (after.map Piece.blank).filterMap (·.token? 0) = [] := by
      simp [List.filterMap_map, Piece.token?]
    have hsource : (tokens 1 (pieces source.toList)).map Token.unlined =
        body.map Token.unlined ++ [⟨.eof, "", .nil, 0⟩] := by
      have hmap := congrArg (List.map Token.unlined) htokens
      simpa [scan, Token.unlined] using hmap
    rw [tokens_unlined, List.filterMap_append, filterMap_intersperse, hblanks, hsource,
      List.append_nil]

/-! ## Reports and sessions -/

/-- The report with the line that it mentions taken out. -/
def Report.unlined : Report → Report
  | .static _ place message => .static 0 place message
  | .runtime message _ => .runtime message 0

def Reporter.unlined (r : Reporter) : Reporter :=
  { r with reports := r.reports.map Report.unlined, written := r.written.map Report.unlined }

/-- The session with its lines taken out. -/
def Session.unlined (s : Session) : Session :=
  { s with reporter := s.reporter.unlined, machine := s.machine.unlined }

theorem Reporter.addAll_unlined (r : Reporter) (reports : List Report) :
    (r.addAll reports).unlined = r.unlined.addAll (reports.map Report.unlined) := by
  induction reports generalizing r with
  | nil => rfl
  | cons report rest ih =>
    have hadd : (r.add report).unlined = r.unlined.add report.unlined := by
      cases report <;> simp [add, unlined, Report.unlined, Report.isStatic]
    rw [List.map_cons, addAll, List.foldl_cons, ← addAll, ih, hadd]
    rfl

namespace Session

theorem report_unlined (s : Session) (reports : List Report) :
    (s.report reports).unlined = s.unlined.report (reports.map Report.unlined) := by
  simp only [report, unlined, Reporter.addAll_unlined]

theorem complain_unlined (s : Session) (complaints : List Complaint) :
    (s.complain complaints).unlined = s.unlined.complain (complaints.map Complaint.unlined) := by
  rw [complain, report_unlined, complain, List.map_map, List.map_map]
  rfl

theorem relabels_unlined : Parser.Relabels Token.unlined := ⟨fun _ => rfl, fun _ => rfl⟩

theorem parseTokens_unlined (s : Session) (tokens : List Token) :
    s.unlined.parseTokens (tokens.map Token.unlined) =
      ((s.parseTokens tokens).1.unlined,
        (s.parseTokens tokens).2.map (Node.mapAll Token.unlined id)) := by
  have hprogram := Parser.program_relabel relabels_unlined s.limits.grammar tokens
  have hlimits : s.unlined.limits = s.limits := rfl
  have hcomplaints : (fun c : Complaint => (⟨c.token.unlined, c.problem⟩ : Complaint)) =
      Complaint.unlined := rfl
  unfold parseTokens
  simp only [hlimits, hprogram, Parser.Reply.relabel, hcomplaints, ← complain_unlined]
  cases (Parser.program s.limits.grammar tokens).result <;> rfl

theorem shallow_unlined (s : Session) (ns : List Node) :
    s.unlined.shallow (Node.unlinedAll ns) =
      (Node.unlinedAll (s.shallow ns).1, (s.shallow ns).2) := by
  have hlimits : s.unlined.limits = s.limits := rfl
  simp only [shallow, List.span_eq_takeWhile_dropWhile, Node.unlinedAll_eq_map, hlimits,
    List.takeWhile_map, List.dropWhile_map, Function.comp_def, Node.nesting_unlined,
    List.isEmpty_map]

theorem resolve_unlined (s : Session) (ns : List Node) :
    s.unlined.resolve (Node.unlinedAll ns) =
      ((s.resolve ns).1.unlined, (s.resolve ns).2.map Node.unlinedAll) := by
  simp only [resolve, shallow_unlined, Lox.resolve_unlined, ← complain_unlined]
  cases (s.shallow ns).2 <;> rfl

theorem conclude_unlined {α : Type} (s : Session) (result : EStateM.Result Signal Machine α) :
    s.unlined.conclude (Eval.unlinedResult result) =
      ((s.conclude result).1.unlined, (s.conclude result).2) := by
  rcases result with ⟨a, m⟩ | ⟨signal, m⟩
  · rfl
  · cases signal with
    | error e =>
      simp only [Eval.unlinedResult, Signal.unlined, conclude, report_unlined]
      rfl
    | _ => rfl

theorem interpret_unlined (s : Session) (byDistance : Bool) (ns : List Node) :
    s.unlined.interpret byDistance (Node.unlinedAll ns) =
      ((s.interpret byDistance ns).1.unlined, (s.interpret byDistance ns).2) := by
  have hrun := Eval.carries_inOrder (s.mode byDistance) s.limits.depth ns s.machine
  unfold interpret
  rw [← conclude_unlined, ← hrun]
  rfl

theorem prepare_unlined (s : Session) (parsed : Except Crash (List Node)) :
    s.unlined.prepare (parsed.map Node.unlinedAll) =
      ((s.prepare parsed).1.unlined, (s.prepare parsed).2.map Node.unlinedAll) := by
  cases parsed with
  | error crash => rfl
  | ok statements =>
    simp only [Except.map, prepare, resolve_unlined]
    rw [show s.unlined.hadError = s.hadError from rfl]
    split
    · rfl
    · rcases s.resolve statements with ⟨s, crash | resolved⟩
      · rfl
      · simp only [show s.unlined.hadError = s.hadError from rfl]
        split <;> rfl

/-- The resolved statements of a source, whatever was complained of. -/
def resolved (s : Session) (source : String) : Except Crash (List Node) :=
  (s.parse source).2.bind fun statements => (s.resolve statements).2

/-! ## Runs of the same tokens -/

section Same

variable {source source' : String}

/-- Sources without faults that have the same tokens but for their lines are parsed the same, but
for the lines. -/
theorem parse_unlined (s : Session) (hscan : (scan source).faults = [])
    (hscan' : (scan source').faults = [])
    (htokens : (scan source').tokens.map Token.unlined = (scan source).tokens.map Token.unlined) :
    (s.parse source').1.unlined = (s.parse source).1.unlined ∧
      (s.parse source').2.map Node.unlinedAll = (s.parse source).2.map Node.unlinedAll := by
  have hparse : ∀ {text : String}, (scan text).faults = [] →
      s.parse text = s.parseTokens (scan text).tokens := by
    intro text htext
    simp only [parse, scanSource, htext]
    rfl
  have hparsed := parseTokens_unlined s (scan source).tokens
  have hparsed' := parseTokens_unlined s (scan source').tokens
  rw [htokens, hparsed, ← hparse hscan, ← hparse hscan', Prod.mk.injEq] at hparsed'
  refine ⟨hparsed'.1.symm, ?_⟩
  have hnodes := congrArg (Except.map Node.unlinedAll) hparsed'.2
  have hmap : ∀ parsed : Except Crash (List Node),
      (parsed.map (Node.mapAll Token.unlined id)).map Node.unlinedAll =
        parsed.map Node.unlinedAll := by
    intro parsed
    cases parsed <;> simp [Except.map, Node.unlinedAll_map]
  rw [hmap, hmap] at hnodes
  exact hnodes.symm

/-- They leave sessions that are the same but for the lines, and end the same way. -/
theorem run_unlined (s : Session) (hscan : (scan source).faults = [])
    (hscan' : (scan source').faults = [])
    (htokens : (scan source').tokens.map Token.unlined = (scan source).tokens.map Token.unlined) :
    (s.run source').1.unlined = (s.run source).1.unlined ∧
      (s.run source').2 = (s.run source).2 := by
  obtain ⟨hsession, hnodes⟩ := parse_unlined s hscan hscan' htokens
  have hprepare := prepare_unlined (s.parse source).1 (s.parse source).2
  have hprepare' := prepare_unlined (s.parse source').1 (s.parse source').2
  rw [hsession, hnodes, hprepare, Prod.mk.injEq] at hprepare'
  rw [run_eq_prepare, run_eq_prepare]
  generalize (s.parse source).1.prepare (s.parse source).2 = prepared,
    (s.parse source').1.prepare (s.parse source').2 = prepared' at hprepare' ⊢
  obtain ⟨t, crash | ns⟩ := prepared <;> obtain ⟨t', crash' | ns'⟩ := prepared' <;>
    obtain ⟨ht, hns⟩ := hprepare'
  · exact ⟨ht.symm, congrArg some (Except.error.inj hns).symm⟩
  · cases hns
  · cases hns
  · have hrun := interpret_unlined t true ns
    have hrun' := interpret_unlined t' true ns'
    rw [← show t.unlined = t'.unlined from ht, ← Except.ok.inj hns, hrun, Prod.mk.injEq] at hrun'
    exact ⟨hrun'.1.symm, hrun'.2.symm⟩

/-- The references in their statements have the same distances. -/
theorem resolved_unlined (s : Session) (hscan : (scan source).faults = [])
    (hscan' : (scan source').faults = [])
    (htokens : (scan source').tokens.map Token.unlined = (scan source).tokens.map Token.unlined) :
    (s.resolved source').map Node.unlinedAll = (s.resolved source).map Node.unlinedAll := by
  have hbind : ∀ parsed : Except Crash (List Node),
      (parsed.bind fun statements => (s.resolve statements).2).map Node.unlinedAll =
        (parsed.map Node.unlinedAll).bind fun statements => (s.unlined.resolve statements).2 := by
    intro parsed
    cases parsed <;> simp [Except.bind, Except.map, resolve_unlined]
  rw [resolved, resolved, hbind, hbind, (parse_unlined s hscan hscan' htokens).2]

end Same

/-- Two runs that ended the same way, in sessions that show the same, up to the lines in reports. -/
structure EndsSame (r r' : Session × Option Crash) : Prop where
  crash : r'.2 = r.2
  printed : r'.1.machine.printed = r.1.machine.printed
  globals : r'.1.globals = r.1.globals
  rendered : ∀ v, r'.1.machine.store.stringify v = r.1.machine.store.stringify v
  hadError : r'.1.hadError = r.1.hadError
  hadRuntimeError : r'.1.hadRuntimeError = r.1.hadRuntimeError
  reports : r'.1.reporter.reports.map Report.unlined = r.1.reporter.reports.map Report.unlined
  written : r'.1.reporter.written.map Report.unlined = r.1.reporter.written.map Report.unlined

theorem endsSame_of_unlined {r r' : Session × Option Crash} (hsession : r'.1.unlined = r.1.unlined)
    (hcrash : r'.2 = r.2) : EndsSame r r' where
  crash := hcrash
  printed := congrArg (·.machine.printed) hsession
  globals := (congrArg Session.globals hsession :)
  rendered v := by
    rw [← Store.stringify_unlined, ← Store.stringify_unlined r.1.machine.store]
    exact congrArg (·.machine.store.stringify v) hsession
  hadError := (congrArg Session.hadError hsession :)
  hadRuntimeError := (congrArg Session.hadRuntimeError hsession :)
  reports := congrArg (·.reporter.reports) hsession
  written := congrArg (·.reporter.written) hsession

/-- The lexemes of a source, with single spaces between them, have the same tokens as the source,
and in every session they do what the source does: the same is printed, the globals are the same,
the same flags are up, references have the same distances, and the same is reported but for the
lines. -/
theorem run_respaced (s : Session) {source source' : String} (hscan : (scan source).faults = [])
    (h : Respaced source source') :
    (scan source').faults = [] ∧
      (scan source').tokens.map Token.unlined = (scan source).tokens.map Token.unlined ∧
      EndsSame (s.run source) (s.run source') ∧
      (s.resolved source').map Node.unlinedAll = (s.resolved source).map Node.unlinedAll := by
  obtain ⟨hscan', htokens⟩ := scan_respaced h
  obtain ⟨hsession, hcrash⟩ := run_unlined s hscan hscan' htokens
  exact ⟨hscan', htokens, endsSame_of_unlined hsession hcrash,
    resolved_unlined s hscan hscan' htokens⟩

/-- A comment and a string over two lines, after a function declaration, and an error at the end. -/
theorem run_respaced_comment :
    (scan "var a=1.5;// one\nf(\"x\ny\"+a);\n-nil;").faults = [] ∧
      Respaced "var a=1.5;// one\nf(\"x\ny\"+a);\n-nil;"
        "var a = 1.5 ; f ( \"x\ny\" + a ) ; - nil ;" ∧
      EndsSame
        ((Session.run {} "fun f(x) \x7b print x; \x7d").1.run
          "var a=1.5;// one\nf(\"x\ny\"+a);\n-nil;")
        ((Session.run {} "fun f(x) \x7b print x; \x7d").1.run
          "var a = 1.5 ; f ( \"x\ny\" + a ) ; - nil ;") := by
  have hscan : (scan "var a=1.5;// one\nf(\"x\ny\"+a);\n-nil;").faults = [] := by decide +kernel
  have hspaced : Respaced "var a=1.5;// one\nf(\"x\ny\"+a);\n-nil;"
      "var a = 1.5 ; f ( \"x\ny\" + a ) ; - nil ;" := .inr (by decide +kernel)
  exact ⟨hscan, hspaced, (run_respaced _ hscan hspaced).2.2.1⟩

end Session

end Lox
