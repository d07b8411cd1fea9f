import Mathlib.Tactic
import Lox.Proofs.Joined
import Lox.Proofs.SideBySide

/-!
# Running in one piece or in two

To run two sources one after the other, or to run them as one with a line break between, comes to
the same (`run_joined`). If the first one fails nothing of the second is run in either case. If it
does not, the second one starts from the same machine; its tokens are on other lines, which shows in
the line of a runtime error at one of them and nowhere else.
-/

namespace Lox

/-! ## Lines -/

/-- The change of the lines of some tokens, while those of others stay. -/
def Change.ofLines (lines : Nat) (moved kept : Token → Prop) : Change where
  old := ""
  new := ""
  Alike t t' := moved t ∧ t' = t.later lines ∨ kept t ∧ t' = t
  kind_eq := by rintro t _ (⟨-, rfl⟩ | ⟨-, rfl⟩) <;> rfl
  lexeme_eq := by rintro t _ (⟨-, rfl⟩ | ⟨-, rfl⟩) <;> rfl
  old_ne_this := by decide
  old_ne_super := by decide
  new_ne_this := by decide
  new_ne_super := by decide

section OfLines

variable {lines : Nat} {moved kept : Token → Prop}

/-- No name changes. -/
theorem Change.rename_ofLines (marked : Bool) (name : String) :
    (ofLines lines moved kept).rename marked name = name := by
  unfold rename
  split
  · rename_i h
    exact h.2.symm
  · rfl

/-- An error is the same on the other side, on its own line or so many lines further down. -/
theorem Change.ErrorTwin.ofLines {e e' : RuntimeError}
    (h : (ofLines lines moved kept).ErrorTwin e e') :
    e'.message = e.message ∧ (moved e.token ∧ e'.token.line = e.token.line + lines ∨
      kept e.token ∧ e'.token.line = e.token.line) := by
  obtain ⟨marked, hnamed, hcause⟩ := h
  have hcause : e'.cause = e.cause := by
    rcases hcause with h | ⟨name, h, h'⟩
    · exact h
    · rw [h, h', rename_ofLines]
  refine ⟨by simp only [RuntimeError.message, hcause], ?_⟩
  rcases hnamed.alike with ⟨hmoved, heq⟩ | ⟨hkept, heq⟩
  · exact .inl ⟨hmoved, show _ = (e.token.later lines).line by rw [← heq]⟩
  · exact .inr ⟨hkept, by rw [← heq]⟩

theorem Change.FaultTwin.ofLines {f f' : Fault} (h : (ofLines lines moved kept).FaultTwin f f') :
    f' = f := by
  rcases h with rfl | ⟨marked, name, rfl, rfl⟩
  · rfl
  · rw [rename_ofLines]

end OfLines

/-! ## Sources -/

/-- A tree further down is resolved to the same distances. -/
theorem resolve_later {ok : Token → Prop} (hok : Resolver.AllLexed ok) {ns : List Node}
    (hns : Node.FitAll ok .declaration ns) (hclean : (resolve ns).2 = []) (lines : Nat) :
    resolve (Node.mapAll (Token.later lines) id ns) =
      (Node.mapAll (Token.later lines) id (resolve ns).1, []) := by
  let c := Change.ofLines lines ok fun _ => False
  have hlike : Node.LikeAll c [] (resolve ns).1
      (Node.mapAll (Token.later lines) id (resolve ns).1) :=
    Node.ScopedAll.like_map (scopedAll_resolve hok hns hclean) (by simp) fun t ht =>
      .inl ⟨tokens_resolve hns t ht, rfl⟩
  have hretraces := resolve_retraces hok (fun _ _ => .inl rfl) hns hclean hlike
  have hunresolved : Node.unresolvedAll (Node.mapAll (Token.later lines) id (resolve ns).1) =
      Node.mapAll (Token.later lines) id ns := by
    conv_rhs => rw [← resolve_unresolved hns]
    simp only [Node.unresolvedAll, Node.mapAll_mapAll]
    rfl
  rwa [hunresolved] at hretraces

open Scan (lineAfter) in
/-- What is admitted on its own is admitted after another source. -/
theorem Limits.Admits.joined {limits : Limits} {first second : String} {ns ns' : List Node}
    (h : limits.Admits first ns) (h' : limits.Admits second ns') :
    limits.Admits (first ++ "\n" ++ second)
        (ns ++ Node.mapAll (Token.later (lineAfter first.toList)) id ns') ∧
      (resolve (ns ++ Node.mapAll (Token.later (lineAfter first.toList)) id ns')).1 =
        (resolve ns).1 ++ Node.mapAll (Token.later (lineAfter first.toList)) id (resolve ns').1 := by
  let f := Token.later (lineAfter first.toList)
  have hscan := scan_joined h.scanned h'.scanned
  have hlater := resolve_later (Session.allLexed_tokens second) h'.fits h'.resolved
    (lineAfter first.toList)
  have hresolve := resolve_joined (Session.allLexed_tokens first) h.fits h.resolved
    (Node.mapAll f id ns')
  rw [hlater] at hresolve
  obtain ⟨rest, hparsed⟩ := h.parsed
  obtain ⟨rest', hparsed'⟩ := h'.parsed
  obtain ⟨body, line, htokens, hbody⟩ := scan_tokens_eq first
  obtain ⟨body', line', htokens', hbody'⟩ := scan_tokens_eq second
  -- The tokens of the second source begin no `else`, on whatever lines they are.
  have hmoved : (Parser.program limits.grammar).Gives ((scan second).tokens.map f)
      (Node.mapAll f id ns') (rest'.map f) := by
    have hf : Parser.Relabels f := ⟨fun _ => rfl, fun _ => rfl⟩
    rw [Parser.Gives, Parser.program_relabel hf, hparsed']
    rfl
  have hstops : Parser.Stops [.elseWord] ((scan second).tokens.map f) := by
    rw [htokens'] at hparsed' ⊢
    have hderives := (Parser.derives_of_gives true rfl (fun t ht => (hbody' t ht).kind_ne_eof)
      hparsed').1
    rcases hderives.declarations_starts with rfl | ⟨t, us, rfl, ht⟩
    · exact ⟨_, _, rfl, show TokenKind.eof ∉ [TokenKind.elseWord] by decide⟩
    · refine ⟨f t, _, rfl, ?_⟩
      exact (by decide : ∀ kind ∈ Parser.declarationStarts, kind ∉ [TokenKind.elseWord]) _ ht
  have hdropLast : (scan first).tokens.dropLast = body := by rw [htokens, List.dropLast_concat]
  rw [htokens] at hparsed
  refine ⟨⟨by rw [hscan], ⟨rest'.map f, ?_⟩, fun n hn => ?_, by rw [hresolve]⟩, by rw [hresolve]⟩
  · rw [hscan, hdropLast]
    exact Parser.program_joined rfl (fun t ht => (hbody t ht).kind_ne_eof) hparsed hmoved hstops
  · rcases List.mem_append.1 hn with hn | hn
    · exact h.shallow n hn
    · rw [Node.mapAll_eq_map] at hn
      obtain ⟨n', hn', rfl⟩ := List.mem_map.1 hn
      rw [Node.nesting_map]
      exact h'.shallow n' hn'

/-! ## Runs -/

theorem Eval.inOrder_append (run : Node → Eval Value) (ns ns' : List Node) :
    inOrder run (ns ++ ns') = inOrder run ns >>= fun _ => inOrder run ns' := by
  induction ns with
  | nil => simp [inOrder]
  | cons n ns ih => simp [inOrder, ih]

namespace Session

variable {s : Session} {ns ns' : List Node}

/-- Either the statements before come to their end, and those after go on from there, or they do
not. -/
theorem interpret_append (s : Session) (ns ns' : List Node) :
    (∃ m, s.interpret true ns = ({ s with machine := m }, none) ∧
        s.interpret true (ns ++ ns') = { s with machine := m }.interpret true ns') ∨
      ((s.interpret true ns).2 ≠ none ∨ (s.interpret true ns).1.reporter ≠ s.reporter) ∧
        s.interpret true (ns ++ ns') = s.interpret true ns := by
  unfold Session.interpret
  rcases hrun : Eval.inOrder (Eval.eval (s.mode true) s.limits.depth) ns s.machine with
    ⟨a, m⟩ | ⟨signal, m⟩
  · refine .inl ⟨m, rfl, ?_⟩
    rw [Eval.inOrder_append, Eval.bind_ok hrun]
    rfl
  · refine .inr ⟨?_, by rw [Eval.inOrder_append, Eval.bind_error hrun]⟩
    cases signal with
    | error e =>
      refine .inr fun heq => ?_
      have hsize := congrArg (fun r => r.written.size) heq
      simp [conclude, report, Reporter.addAll, Reporter.add] at hsize
    | _ => exact .inl (Option.some_ne_none _)

/-- A source was run from the session on its own lines, and so many lines further down. -/
structure RunsAlike (s : Session) (source : String) (lines : Nat)
    (apart joined : Session × Option Crash) : Prop where
  shown : Shown apart.1 joined.1
  hadError : joined.1.hadError = apart.1.hadError
  hadRuntimeError : joined.1.hadRuntimeError = apart.1.hadRuntimeError
  crash : joined.2 = apart.2
  /-- Both report nothing, or one error at a token, which is further down if it is one of the
  source and not of what was there before. -/
  reports : (apart.1.reporter = s.reporter ∧ joined.1.reporter = s.reporter) ∨
    ∃ (message : String) (t : Token) (line : Int),
      apart.1.reporter = s.reporter.add (.runtime message t.line) ∧
      joined.1.reporter = s.reporter.add (.runtime message line) ∧
      (t ∈ (scan source).tokens ∧ line = t.line + lines ∨
        s.machine.store.HasToken t ∧ line = t.line)

theorem EndsAlike.runsAlike {source : String} {lines : Nat} {apart joined : Session × Option Crash}
    (h : EndsAlike (.ofLines lines (· ∈ (scan source).tokens) s.machine.store.HasToken) s apart
      joined) (hshown : Shown apart.1 joined.1) : RunsAlike s source lines apart joined := by
  cases h with
  | completed => exact ⟨hshown, rfl, rfl, rfl, .inl ⟨rfl, rfl⟩⟩
  | failed herror =>
    obtain ⟨hmessage, hline⟩ := herror.ofLines
    refine ⟨hshown, rfl, rfl, rfl, .inr ⟨_, _, _, rfl, ?_, hline⟩⟩
    rw [← hmessage]
    rfl
  | fault hfault =>
    obtain rfl := hfault.ofLines
    exact ⟨hshown, rfl, rfl, rfl, .inl ⟨rfl, rfl⟩⟩
  | exhausted => exact ⟨hshown, rfl, rfl, rfl, .inl ⟨rfl, rfl⟩⟩

open Scan (lineAfter) in
/-- To run two sources in one piece is to run the second where the first comes to its end, on later
lines, and is to run the first alone if it does not. -/
theorem run_joined (h : s.Reachable) (herror : s.hadError = false) {first second : String}
    (hfirst : s.limits.Admits first ns) (hsecond : s.limits.Admits second ns') :
    ((s.run first).2 = none → (s.run first).1.reporter = s.reporter →
      RunsAlike (s.run first).1 second (lineAfter first.toList) ((s.run first).1.run second)
        (s.run (first ++ "\n" ++ second))) ∧
    ((s.run first).2 ≠ none ∨ (s.run first).1.reporter ≠ s.reporter →
      s.run (first ++ "\n" ++ second) = s.run first) := by
  let f := Token.later (lineAfter first.toList)
  obtain ⟨hjoined, hresolved⟩ := hfirst.joined hsecond
  have hstep : (s.perform (.run first)).1.Reachable := .step (fun _ => by simp) h
  have hreachable : (s.run first).1.Reachable := hstep
  have hrun := hfirst.run herror
  have hwhole := hjoined.run herror
  rw [hresolved] at hwhole
  rcases interpret_append s (Lox.resolve ns).1 (Node.mapAll f id (Lox.resolve ns').1) with
    ⟨m, hcompleted, hrest⟩ | ⟨hfailed, hsame⟩
  · rw [← hrun] at hcompleted
    refine ⟨fun _ _ => ?_, fun hnot => ?_⟩
    · rw [hcompleted] at hreachable ⊢
      let after : Session := { s with machine := m }
      let c := Change.ofLines (lineAfter first.toList) (· ∈ (scan second).tokens) m.store.HasToken
      have hapart : after.run second = after.interpret true (Lox.resolve ns').1 :=
        Limits.Admits.run (s := after) hsecond herror
      have hlike : Node.LikeAll c [] (Lox.resolve ns').1 (Node.mapAll f id (Lox.resolve ns').1) :=
        Node.ScopedAll.like_map hsecond.scoped (by simp) fun t ht =>
          .inl ⟨tokens_resolve hsecond.fits t ht, rfl⟩
      have halike := hreachable.settled.interpret_alike (c := c) hreachable.rooted
        (fun t ht => Or.inr ⟨ht, rfl⟩) hsecond.scoped hlike
      rw [hwhole, hrest, hapart]
      exact halike.1.runsAlike halike.2
    · rw [hcompleted] at hnot
      exact absurd rfl (hnot.resolve_left fun hcrash => hcrash rfl)
  · rw [← hrun] at hfailed hsame
    refine ⟨fun hcrash hreporter => ?_, fun _ => hwhole.trans hsame⟩
    exact absurd hreporter (hfailed.resolve_left fun hnone => hnone hcrash)

/-- The second source fails on its second line, which is the third of the whole. A source that fails
on its own keeps the one after it from being run. -/
theorem run_joined_failing :
    let s := (({} : Session).perform (.run "fun f(a) { return -a; }")).1
    RunsAlike (s.run "var b = nil;").1 "print b;\nf(b);" 1
        ((s.run "var b = nil;").1.run "print b;\nf(b);")
        (s.run "var b = nil;\nprint b;\nf(b);") ∧
      s.run "f(nil);\nvar b = nil;" = s.run "f(nil);" := by
  intro s
  have hreachable : s.Reachable := .step (fun _ => by simp) (.start {})
  have herror : s.hadError = false := by decide +kernel
  obtain ⟨_, hbinds⟩ := Limits.admits_of_executed s "var b = nil;" (by decide +kernel)
  obtain ⟨_, hprints⟩ := Limits.admits_of_executed s "print b;\nf(b);" (by decide +kernel)
  obtain ⟨_, hfails⟩ := Limits.admits_of_executed s "f(nil);" (by decide +kernel)
  exact ⟨(run_joined hreachable herror hbinds hprints).1 (by decide +kernel) (by decide +kernel),
    (run_joined hreachable herror hfails hbinds).2 (by decide +kernel)⟩

end Session

end Lox
