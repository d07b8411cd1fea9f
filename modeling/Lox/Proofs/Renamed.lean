import Mathlib.Tactic
import Lox.Proofs.Renaming
import Lox.Proofs.Respelled
import Lox.Proofs.Retracing
import Lox.Proofs.Shapes
import Lox.Proofs.SideBySide

/-!
# Running with a variable renamed

A program with one of its local variables renamed has the same distances and shows the same when it
is run (`run_renamed`). The names differ in two places only: in the message that a variable was used
before it got a value, and in the fault of an assignment to a variable in its own initializer.

The renamed program has a source: the one it was read from, with the name spelled in the other way
at some places (`Admits.renamed`). For the renamed trees have the shape of the old ones, and the
tokens that change are identifiers and stay so.
-/

namespace Lox

/-! ## Names -/

section OfNames

variable {x y : String} {hx : x ≠ "this" ∧ x ≠ "super"} {hy : y ≠ "this" ∧ y ≠ "super"}

variable (hx hy) in
theorem Change.rename_ofNames (marked : Bool) (name : String) :
    (ofNames x y hx hy).rename marked name = name ∨
      name = x ∧ (ofNames x y hx hy).rename marked name = y := by
  unfold rename
  split
  · rename_i h
    exact .inr ⟨h.2, rfl⟩
  · exact .inl rfl

/-- An error is on the same line, and has the same message but for the name it quotes. -/
theorem Change.ErrorTwin.ofNames {e e' : RuntimeError} (h : (ofNames x y hx hy).ErrorTwin e e') :
    e'.token.line = e.token.line ∧ (e'.message = e.message ∨
      e.message = s!"Cannot use uninitialized variable '{x}'." ∧
        e'.message = s!"Cannot use uninitialized variable '{y}'.") := by
  obtain ⟨marked, hnamed, hcause⟩ := h
  have hline : e.token = { e'.token with lexeme := e.token.lexeme } := hnamed.alike
  refine ⟨by rw [hline], ?_⟩
  unfold RuntimeError.message
  rcases hcause with heq | ⟨name, heq, heq'⟩
  · exact .inl (by rw [heq])
  · rw [heq, heq']
    rcases rename_ofNames hx hy marked name with hname | ⟨rfl, hname⟩ <;> rw [hname]
    · exact .inl rfl
    · exact .inr ⟨rfl, rfl⟩

theorem Change.FaultTwin.ofNames {f f' : Fault} (h : (ofNames x y hx hy).FaultTwin f f') :
    f' = f ∨ f = .unbound x ∧ f' = .unbound y := by
  rcases h with rfl | ⟨marked, name, rfl, rfl⟩
  · exact .inl rfl
  · rcases rename_ofNames hx hy marked name with hname | ⟨rfl, hname⟩ <;> rw [hname]
    · exact .inl rfl
    · exact .inr ⟨rfl, rfl⟩

end OfNames

/-! ## Trees -/

variable {source x y : String} {statements : List Node} {way : Way} {scope : LocalScope}

/-- The token with `x` for the name `y`. -/
def Token.restore (x y : String) (t : Token) : Token :=
  if t.lexeme = y then { t with lexeme := x } else t

theorem Token.restore_rename (x y : String) (marked : Bool) (t : Token) :
    (t.rename x y marked).restore x y = t.restore x y := by
  unfold rename
  split
  · rename_i h
    have hback : ({ t with lexeme := y } : Token).restore x y = { t with lexeme := x } := if_pos rfl
    rw [hback, ← h.2]
    unfold restore
    split <;> rfl
  · rfl

theorem Token.restore_of_ne {t : Token} (h : t.lexeme ≠ y) : t.restore x y = t := if_neg h

/-- What is restored from an identifier was spelled in the other way. -/
theorem Token.respelled_restore {t : Token}
    (h : (t.restore x y).lexeme = x → (t.restore x y).kind = .identifier) :
    Respelled x y (t.restore x y) t := by
  unfold restore at h ⊢
  split
  · rename_i hname
    rw [if_pos hname] at h
    exact .inr ⟨h rfl, rfl, by rw [← hname]⟩
  · exact .inl rfl

theorem Node.shapeAll_rename (x y : String) (way : Way) (ns : List Node) :
    Node.shapeAll (Node.unresolvedAll (Node.renameAll x y [] way ns)) =
      Node.shapeAll (Node.unresolvedAll ns) := by
  -- the tokens and the distances can be taken out in either order
  have hswap : ∀ ms, Node.shapeAll (Node.unresolvedAll ms) =
      Node.unresolvedAll (Node.mapAll (fun _ => .missing) id ms) := by
    intro ms
    simp only [Node.shapeAll, Node.unresolvedAll, Node.mapAll_mapAll]
    rfl
  rw [hswap, hswap, Node.mapAll_rename fun _ _ => rfl]

/-- Trees of the same shape are nested alike. -/
theorem Node.nesting_of_shape {ns ns' : List Node} (h : Node.shapeAll ns' = Node.shapeAll ns)
    {limit : Nat} (hns : ∀ n ∈ ns, n.nesting ≤ limit) : ∀ n ∈ ns', n.nesting ≤ limit := by
  have hnesting : ∀ ms : List Node, (Node.shapeAll ms).map Node.nesting = ms.map Node.nesting := by
    intro ms
    rw [Node.shapeAll, Node.mapAll_eq_map, List.map_map]
    exact List.map_congr_left fun n _ => Node.nesting_map _ _ n
  have hsame : ns'.map Node.nesting = ns.map Node.nesting := by
    rw [← hnesting, h, hnesting]
  intro n hn
  have hmem : n.nesting ∈ ns.map Node.nesting := hsame ▸ List.mem_map_of_mem hn
  obtain ⟨m, hm, heq⟩ := List.mem_map.1 hmem
  exact heq ▸ hns m hm

namespace Limits

open Scan (Lexeme Piece pieces)

variable {limits : Limits}

/-- The renaming of a program is alike to it, once it is resolved. -/
theorem Admits.like_rename (h : limits.Admits source statements)
    (hscope : Node.scopeAtAll way (resolve statements).1 = some scope)
    (hbinds : scope.BindsVariable x) (hx : x ≠ "this" ∧ x ≠ "super")
    (hy : y ≠ "this" ∧ y ≠ "super") (hfresh : ∀ t ∈ (scan source).tokens, t.lexeme ≠ y) :
    Node.LikeAll (Change.ofNames x y hx hy) [] (resolve statements).1
      (Node.renameAll x y [] way (resolve statements).1) := by
  have hscoped := Node.ScopedAll.scopeAt _ h.scoped hscope
  refine Node.ScopedAll.like_rename _ h.scoped (fun t ht => hfresh t (tokens_resolve h.fits t ht))
    (by simp) fun scope' hscope' => ?_
  rw [hscope] at hscope'
  cases hscope'
  exact hscoped.not_defined hbinds

/-- What is bound in a program is an identifier. -/
theorem Admits.identifier (h : limits.Admits source statements)
    (hscope : Node.scopeAtAll way (resolve statements).1 = some scope)
    (hbinds : scope.BindsVariable x) : Lexeme .identifier x.toList .nil := by
  obtain ⟨name, hmem, hname, rfl⟩ := (Node.ScopedAll.scopeAt _ h.scoped hscope).isName hbinds
  have htoken := tokens_resolve h.fits name (Node.tokens_scopeAtAll _ hscope hmem)
  exact (Scan.identifier_iff htoken).1 hname.kind

/-- The tokens of the renamed trees are those of the trees, with the name spelled in the other
way. -/
theorem Admits.respelled (h : limits.Admits source statements)
    (hx : Lexeme .identifier x.toList .nil) (hfresh : ∀ t ∈ (scan source).tokens, t.lexeme ≠ y) :
    List.Forall₂ (Token.Respelled x y) (Node.tokensAll statements) (Node.tokensAll
      (Node.unresolvedAll (Node.renameAll x y [] way (resolve statements).1))) := by
  have htokens : ∀ ms, Node.tokensAll (Node.unresolvedAll ms) = Node.tokensAll ms := by
    intro ms
    rw [Node.unresolvedAll, Node.tokensAll_map, List.map_id]
  have hsame : Node.tokensAll statements = Node.tokensAll (resolve statements).1 := by
    rw [← htokens (resolve statements).1, resolve_unresolved h.fits]
  have hrestored : (Node.tokensAll (Node.renameAll x y [] way (resolve statements).1)).map
      (Token.restore x y) = Node.tokensAll statements := by
    rw [← Node.tokensAll_map (g := id), Node.mapAll_rename (Token.restore_rename x y),
      Node.tokensAll_map, ← hsame, List.map_congr_left (g := id), List.map_id]
    exact fun t ht => Token.restore_of_ne (hfresh t (h.fits.tokens t ht))
  rw [htokens, ← hrestored, List.forall₂_map_left_iff, List.forall₂_same]
  intro t ht
  refine Token.respelled_restore fun hname => ?_
  have hmem : t.restore x y ∈ Node.tokensAll statements :=
    hrestored ▸ List.mem_map_of_mem ht
  rw [Scan.identifier_iff (h.fits.tokens _ hmem), hname]
  exact hx

/-- The renamed program has a source, in which the name is spelled in the other way. -/
theorem Admits.renamed (h : limits.Admits source statements)
    (hx : Lexeme .identifier x.toList .nil) (hy : Lexeme .identifier y.toList .nil)
    (hfresh : ∀ t ∈ (scan source).tokens, t.lexeme ≠ y)
    (hresolved : resolve (Node.unresolvedAll (Node.renameAll x y [] way (resolve statements).1)) =
      (Node.renameAll x y [] way (resolve statements).1, [])) :
    ∃ source', List.Forall₂ (Piece.Respelled x y) (pieces source.toList) (pieces source'.toList) ∧
      limits.Admits source'
        (Node.unresolvedAll (Node.renameAll x y [] way (resolve statements).1)) := by
  obtain ⟨rest, hparsed⟩ := h.parsed
  have hshape := Node.shapeAll_rename x y way (resolve statements).1
  rw [resolve_unresolved h.fits] at hshape
  obtain ⟨ts, rest', hts, hprogram⟩ := Parser.program_retold (Session.ended_tokens source) hparsed
    Token.Respelled.relabels hshape (h.respelled hx hfresh)
  obtain ⟨source', hpieces, hscan⟩ := scan_respelled hx hy h.scanned
    (hts.imp fun _ _ ht => ht.elim .inl id)
  refine ⟨source', hpieces, ?_, ?_, Node.nesting_of_shape hshape h.shallow, ?_⟩
  · rw [hscan]
  · exact ⟨rest', by rw [hscan, hprogram]⟩
  · rw [hresolved]

end Limits

namespace Session

variable {s : Session}

/-- A program was run from the session, and the same with `y` for its variable `x`. -/
structure RunsRenamed (s : Session) (x y : String) (run renamed : Session × Option Crash) :
    Prop where
  shown : Shown run.1 renamed.1
  hadError : renamed.1.hadError = run.1.hadError
  hadRuntimeError : renamed.1.hadRuntimeError = run.1.hadRuntimeError
  crash : renamed.2 = run.2 ∨
    run.2 = some (.fault (.unbound x)) ∧ renamed.2 = some (.fault (.unbound y))
  /-- Both report nothing, or one error each on the same line. -/
  reports : (run.1.reporter = s.reporter ∧ renamed.1.reporter = s.reporter) ∨
    ∃ (message message' : String) (line : Int),
      run.1.reporter = s.reporter.add (.runtime message line) ∧
      renamed.1.reporter = s.reporter.add (.runtime message' line) ∧
      (message' = message ∨ message = s!"Cannot use uninitialized variable '{x}'." ∧
        message' = s!"Cannot use uninitialized variable '{y}'.")

theorem EndsAlike.runsRenamed {hx : x ≠ "this" ∧ x ≠ "super"} {hy : y ≠ "this" ∧ y ≠ "super"}
    {run renamed : Session × Option Crash} (h : EndsAlike (.ofNames x y hx hy) s run renamed)
    (hshown : Shown run.1 renamed.1) : RunsRenamed s x y run renamed := by
  cases h with
  | completed => exact ⟨hshown, rfl, rfl, .inl rfl, .inl ⟨rfl, rfl⟩⟩
  | failed herror =>
    obtain ⟨hline, hmessage⟩ := herror.ofNames
    exact ⟨hshown, rfl, rfl, .inl rfl, .inr ⟨_, _, _, rfl, by rw [← hline]; rfl, hmessage⟩⟩
  | fault hfault =>
    refine ⟨hshown, rfl, rfl, ?_, .inl ⟨rfl, rfl⟩⟩
    rcases hfault.ofNames with rfl | ⟨rfl, rfl⟩
    · exact .inl rfl
    · exact .inr ⟨rfl, rfl⟩
  | exhausted => exact ⟨hshown, rfl, rfl, .inl rfl, .inl ⟨rfl, rfl⟩⟩

/-- A session in which nothing can be run shows the same, whatever is run. -/
theorem RunsRenamed.of_hadError : RunsRenamed s x y (s, none) (s, none) :=
  ⟨⟨rfl, rfl, fun _ _ _ => rfl⟩, rfl, rfl, .inl rfl, .inl ⟨rfl, rfl⟩⟩

theorem admits_of_binds (s : Session) (source : String) (way : Way) (x : String)
    (h : (s.executed? source).any (fun nodes =>
      (Node.scopeAtAll way nodes).any (fun scope => decide (scope.BindsVariable x))) = true) :
    ∃ statements scope, s.limits.Admits source statements ∧
      Node.scopeAtAll way (Lox.resolve statements).1 = some scope ∧ scope.BindsVariable x := by
  obtain ⟨nodes, hnodes, hscope⟩ := (Option.any_eq_true _ _).1 h
  obtain ⟨scope, hscope, hbinds⟩ := (Option.any_eq_true _ _).1 hscope
  rcases s.admits_cases source with ⟨reports, hrefuses⟩ | ⟨statements, hadmits, hexecuted, -⟩
  · rw [hrefuses.executed] at hnodes
    cases hnodes
  · rw [hexecuted] at hnodes
    cases hnodes
    exact ⟨statements, scope, hadmits, hscope, of_decide_eq_true hbinds⟩

open Scan (Lexeme Piece pieces) in
/-- A program with a local variable renamed, to an identifier that is nowhere in it, is read from a
source in which the identifier is spelled for the name at some places. From whatever source it is
read, it is resolved without complaint to the same distances, and runs alike. -/
theorem run_renamed (h : s.Reachable) (hsource : s.limits.Admits source statements)
    (hscope : Node.scopeAtAll way (Lox.resolve statements).1 = some scope)
    (hbinds : scope.BindsVariable x) (hy : Lexeme .identifier y.toList .nil)
    (hfresh : ∀ t ∈ (scan source).tokens, t.lexeme ≠ y) :
    let resolved := (Lox.resolve statements).1
    let renamed := Node.renameAll x y [] way resolved
    Node.mapAll Token.nameless id renamed = Node.mapAll Token.nameless id resolved ∧
    Lox.resolve (Node.unresolvedAll renamed) = (renamed, []) ∧
    (∃ source', List.Forall₂ (Piece.Respelled x y) (pieces source.toList) (pieces source'.toList) ∧
      s.limits.Admits source' (Node.unresolvedAll renamed)) ∧
    ∀ source', s.limits.Admits source' (Node.unresolvedAll renamed) →
      RunsRenamed s x y (s.run source) (s.run source') := by
  intro resolved renamed
  have hx := hsource.identifier hscope hbinds
  have hlike := hsource.like_rename hscope hbinds hx.ne_keyword hy.ne_keyword hfresh
  have hresolved : Lox.resolve (Node.unresolvedAll renamed) = (renamed, []) :=
    resolve_retraces (allLexed_tokens source) (fun t ht => .inr (hfresh t ht)) hsource.fits
      hsource.resolved hlike
  refine ⟨Node.mapAll_rename (Token.nameless_rename x y) [] way resolved, hresolved,
    hsource.renamed hx hy hfresh hresolved, fun source' hsource' => ?_⟩
  rcases herror : s.hadError with _ | _
  · have halike := h.settled.interpret_alike h.rooted (fun _ _ => rfl) hsource.scoped hlike
    rw [hsource.run herror, hsource'.run herror, hresolved]
    exact halike.1.runsRenamed halike.2
  · rw [hsource.run_of_hadError herror, hsource'.run_of_hadError herror]
    exact .of_hadError

open Scan (Piece pieces) in
/-- The parameter is renamed in a closure over it, to the name of a global variable. The global
variable with the old name of the parameter keeps it. -/
theorem run_renamed_parameter :
    let s := (({} : Session).perform (.run "var a = 5; var b = 7;")).1
    let source := "fun f(a) { fun g() { a = a + 1; return a; } print g(); }\nf(1); print a;"
    (s.run source).1.machine.printed = #["2", "5"] ∧
      ∃ source', List.Forall₂ (Piece.Respelled "a" "b") (pieces source.toList)
        (pieces source'.toList) ∧ RunsRenamed s "a" "b" (s.run source) (s.run source') := by
  intro s source
  have hreachable : s.Reachable := .step (fun _ => by simp) (.start {})
  obtain ⟨statements, scope, hsource, hscope, hbinds⟩ :=
    s.admits_of_binds source (some [0]) "a" (by decide +kernel)
  have hb : Scan.Lexeme .identifier "b".toList .nil :=
    Scan.lexeme_word (c := 'b') (by decide) fun _ hd => absurd hd List.not_mem_nil
  obtain ⟨-, -, ⟨source', hpieces, hsource'⟩, hruns⟩ :=
    run_renamed hreachable hsource hscope hbinds hb (by decide +kernel)
  exact ⟨by decide +kernel, source', hpieces, hruns source' hsource'⟩

end Session

end Lox
