import Mathlib.Tactic
import Lox.Proofs.Dispatch
import Lox.Proofs.Lexical

/-!
# Code that belongs to a visit

A visit comes to the parts of what it runs. What it runs may also declare functions and methods,
and these may be called at any later time and from anywhere. All of this is code that belongs to the
visit (`Belongs`).

Wherever such code is run, the way out leads through the environment that the visit began in, and
to there it is as many links as there are scopes in between (`Belongs.within`). So a name of the
visit's scope is always looked up in that one environment, if none of those in between has it
(`Within.refers`). What is declared are indeed closures of that sort (`Ready.makes`).
-/

namespace Lox

open Site (hopsTo? hopsTo?_cons)

theorem Store.Stable.environmentAt {s s' : Store} (h : s.Stable s') {hops env found : Nat}
    (hfound : s.environmentAt hops env = .ok found) : s'.environmentAt hops env = .ok found := by
  induction hops generalizing env with
  | zero => exact hfound
  | succ hops ih =>
    obtain ⟨outer, houter, hrest⟩ := exists_enclosing hfound
    have houter' := (h.enclosing env (lt_of_enclosing houter)).trans houter
    rw [environmentAt_succ houter']
    exact ih hrest

/-! ## Tasks and where they stand -/

namespace Task

def isCall : Task → Bool
  | .call _ _ => true
  | _ => false

/-- The task with the distance of each reference. -/
def locate (site : Site) : Task → Task
  | .node n => .node (n.locate site false)
  | .each ns => .each (Node.locateEach site false ns)
  | .statements ns => .statements (Node.locateAll site ns)
  | .turns condition body count =>
    .turns (condition.locate site false) (body.locate site false) count
  | .call callee arguments => .call callee arguments

variable {site : Site} {task : Task}

theorem isCall_locate : (task.locate site).isCall = task.isCall := by
  cases task <;> rfl

theorem locate_eq_node {n : Node} (h : task.locate site = .node n) :
    ∃ n₀, task = .node n₀ ∧ n₀.locate site false = n := by
  cases task with
  | node n₀ => exact ⟨n₀, rfl, node.inj h⟩
  | _ => cases h

theorem locate_eq_each {ns : List Node} (h : task.locate site = .each ns) :
    ∃ ns₀, task = .each ns₀ ∧ Node.locateEach site false ns₀ = ns := by
  cases task with
  | each ns₀ => exact ⟨ns₀, rfl, each.inj h⟩
  | _ => cases h

theorem locate_eq_statements {ns : List Node} (h : task.locate site = .statements ns) :
    ∃ ns₀, task = .statements ns₀ ∧ Node.locateAll site ns₀ = ns := by
  cases task with
  | statements ns₀ => exact ⟨ns₀, rfl, statements.inj h⟩
  | _ => cases h

theorem locate_eq_turns {condition body : Node} {count : Nat}
    (h : task.locate site = .turns condition body count) :
    ∃ condition₀ body₀, task = .turns condition₀ body₀ count ∧
      condition₀.locate site false = condition ∧ body₀.locate site false = body := by
  cases task with
  | turns condition₀ body₀ count₀ =>
    cases h
    exact ⟨condition₀, body₀, rfl, rfl, rfl⟩
  | _ => cases h

end Task

namespace Node

theorem first?_locate (site : Site) (n : Node) :
    (n.locate site false).first? = n.first?.map (Node.locate site false) := by
  cases n with
  | returning keyword value => cases value <;> rfl
  | classDecl name superclass methods => cases superclass <;> rfl
  | _ => rfl

theorem next?_locate (site : Site) (n : Node) (v : Value) :
    (n.locate site false).next? v = (n.next? v).map (Task.locate site) := by
  cases n with
  | logical left operator right =>
    simp only [Node.locate, Node.next?]
    split <;> rfl
  | setProperty object name value => cases v <;> rfl
  | conditional condition thenBranch elseBranch =>
    simp only [Node.locate, Node.next?]
    split
    · rfl
    · cases elseBranch <;> rfl
  | _ => rfl

/-- What comes after the first part of a node are no statements. -/
theorem next?_ne_statements {n : Node} {v : Value} {task : Task} (h : n.next? v = some task)
    (ns : List Node) : task ≠ .statements ns := by
  rintro rfl
  unfold next? at h
  split at h <;> try cases h
  · split at h <;> cases h
  · split at h
    · cases h
    · obtain ⟨_, -, hsome⟩ := Option.map_eq_some_iff.1 h
      cases hsome

end Node

/-- To declare a name in the innermost of some scopes changes nothing outside of them. -/
theorem Site.exists_after {site outer : Site} {inner : List (List String)} (n : Node)
    (h : site.scopes = inner ++ outer.scopes) (hinner : inner ≠ []) :
    ∃ inner', (site.after n).scopes = inner' ++ outer.scopes ∧ inner'.length = inner.length := by
  unfold Site.after
  split
  · exact ⟨inner, h, rfl⟩
  · obtain ⟨names, rest, rfl⟩ := List.exists_cons_of_ne_nil hinner
    rename_i name _
    refine ⟨(name :: names) :: rest, ?_, rfl⟩
    rw [declare, h]
    rfl

namespace Visit

/-- The function is a closure of one that the visit declares: of a function, in the environment of
the visit, or of a method, in that of its receiver. -/
inductive Declares (v : Visit) (s : Store) (f : Closure) : Prop
  | function {name : Token} {params : List Token} {body : List Node} :
    v.task = .node (.function name params body) → f.declaration = .function name params body →
    f.environment = v.machine.environment → Declares v s f
  | method {name : Token} {parent : Option Node} {methods : List Node} :
    v.task = .node (.classDecl name parent methods) → f.declaration ∈ methods →
    s.environmentAt (parent.elim 1 fun _ => 2) f.environment = .ok v.machine.environment →
    Declares v s f

/-- The task stands in these scopes, which are inside of the outer ones, and as many links out from
where it is run is the environment. -/
structure Within (v : Visit) (outer : Site) (env : Nat) (inner : List (List String)) : Prop where
  task : ∃ (site : Site) (task : Task), site.scopes = inner ++ outer.scopes ∧
    v.task = task.locate site ∧ task.isCall = false ∧ ∀ ns, task = .statements ns → inner ≠ []
  environment : v.machine.store.environmentAt inner.length v.machine.environment = .ok env

end Visit

namespace Eval

/-- The visit runs code that belongs to what another runs: a part of it, or the body of a function
or method that is declared there. -/
inductive Belongs (mode : Mode) (v : Visit) : Visit → Prop
  | refl : Belongs mode v v
  | part {w w' : Visit} : Belongs mode v w → Enters mode w w' → w'.task.isCall = false →
    Belongs mode v w'
  | body {w u u' : Visit} {f : Closure} {id : Nat} {values : List Value} : Belongs mode v w →
    w.Declares u.machine.store f → w.machine.store.Stable u.machine.store → u.Ready →
    u.task = .call (.function id) values → u.machine.store.closure? id = some f →
    Enters mode u u' → Belongs mode v u'

variable {mode : Mode} {v v' : Visit} {outer : Site} {env : Nat} {inner : List (List String)}

/-- Only blocks and calls go to another environment. -/
theorem Enters.environment_eq (hmode : mode.byDistance = true) (h : Enters mode v v')
    (hv : v.Ready) (hblock : ∀ ns, v.task ≠ .node (.block ns)) (hcall : v.task.isCall = false) :
    v'.machine.environment = v.machine.environment := by
  obtain ⟨site, -, hrunning, hfit⟩ := hv
  cases h with
  | next hfirst hpart _ =>
    exact (part_ok hmode (first_scoped hfit.1 hfirst) hrunning hpart).1.environment
  | call hcallee harguments _ =>
    obtain ⟨-, hscoped, heach⟩ := hfit.1
    have hleads := (part_ok hmode hscoped hrunning hcallee).1
    have hvalues := (((executes hmode _).each heach (hrunning.leads hleads)).of_ok harguments).2
    exact (hleads.then hvalues.1).environment
  | block => exact absurd rfl (hblock _)
  | body hcondition _ => exact (part_ok hmode hfit.1 hrunning hcondition).1.environment
  | again hcondition _ hbody =>
    have hleads := (part_ok hmode hfit.1 hrunning hcondition).1
    have hleads' := (part_ok hmode hfit.2 (hrunning.leads hleads) hbody).1
    exact (hleads.then hleads').environment
  | later hn =>
    exact (((executes hmode _).node ⟨hfit.1.1, .inr hfit.2⟩ hrunning).of_ok hn).2.1.environment
  | arguments hn => exact (part_ok hmode hfit.1 hrunning hn).1.environment
  | function => cases hcall
  | construct => cases hcall
  | _ => rfl

/-- What a visit enters, calls apart, is again inside of the same environment. -/
theorem Enters.within (hmode : mode.byDistance = true) (h : Enters mode v v') (hv : v.Ready)
    (hpart : v'.task.isCall = false) (hwithin : v.Within outer env inner) :
    ∃ inner', v'.Within outer env inner' := by
  have hstable := (h.goesOn hmode hv).stable
  have henvironment := h.environment_eq hmode hv
  obtain ⟨⟨site, task, hscopes, htask, hcall, hinner⟩, henv⟩ := hwithin
  have hstays : v'.machine.environment = v.machine.environment →
      v'.machine.store.environmentAt inner.length v'.machine.environment = .ok env := by
    intro hsame
    rw [hsame]
    exact hstable.environmentAt henv
  -- all that stands where the task does, and is run in its environment
  have hbeside : ∀ task' : Task, v'.task = task'.locate site → (∀ ns, task' ≠ .statements ns) →
      v'.machine.environment = v.machine.environment → ∃ inner', v'.Within outer env inner' := by
    intro task' htask' hstatements hsame
    refine ⟨inner, ⟨site, task', hscopes, htask', ?_, fun ns hns => absurd hns (hstatements ns)⟩,
      hstays hsame⟩
    rw [← Task.isCall_locate, ← htask', hpart]
  cases h with
  | first hfirst =>
    obtain ⟨n, rfl, rfl⟩ := Task.locate_eq_node htask.symm
    rw [Node.first?_locate] at hfirst
    obtain ⟨part, -, rfl⟩ := Option.map_eq_some_iff.1 hfirst
    exact hbeside (.node part) rfl (by simp) rfl
  | next hfirst hrun hnext =>
    have hsame := henvironment (fun ns hblock => by rw [Task.node.inj hblock] at hfirst; cases hfirst)
      rfl
    obtain ⟨n, rfl, rfl⟩ := Task.locate_eq_node htask.symm
    rw [Node.next?_locate] at hnext
    obtain ⟨task', hnext', rfl⟩ := Option.map_eq_some_iff.1 hnext
    exact hbeside _ rfl (Node.next?_ne_statements hnext') hsame
  | call => cases hpart
  | @block depth p ns m =>
    obtain ⟨n, rfl, hn⟩ := Task.locate_eq_node htask.symm
    cases n with
    | block statements =>
      cases hn
      refine ⟨[] :: inner, ⟨site.inside [], .statements statements, ?_, rfl, rfl, by simp⟩, ?_⟩
      · rw [Site.inside, hscopes]
        rfl
      · exact (Store.environmentAt_succ (Machine.enclosing_nest _ _) _).trans
          (hstable.environmentAt henv)
    | _ => cases hn
  | @initializer depth p name value m =>
    obtain ⟨n, rfl, hn⟩ := Task.locate_eq_node htask.symm
    cases n with
    | varDecl name value =>
      cases value with
      | none => cases hn
      | some value =>
        cases hn
        refine ⟨inner, ⟨site.initializer name.lexeme, .node value, ?_, rfl, rfl, by simp⟩, henv⟩
        rw [Site.scopes_initializer, hscopes]
    | _ => cases hn
  | loop =>
    obtain ⟨n, rfl, hn⟩ := Task.locate_eq_node htask.symm
    cases n with
    | loop condition body =>
      cases hn
      exact hbeside (.turns condition body _) rfl (by simp) rfl
    | _ => cases hn
  | condition =>
    obtain ⟨condition, body, rfl, rfl, rfl⟩ := Task.locate_eq_turns htask.symm
    exact hbeside (.node condition) rfl (by simp) rfl
  | body hcondition htruthy =>
    have hsame := henvironment (by simp) rfl
    obtain ⟨condition, body, rfl, rfl, rfl⟩ := Task.locate_eq_turns htask.symm
    exact hbeside (.node body) rfl (by simp) hsame
  | again hcondition htruthy hbody =>
    have hsame := henvironment (by simp) rfl
    obtain ⟨condition, body, rfl, rfl, rfl⟩ := Task.locate_eq_turns htask.symm
    exact hbeside (.turns condition body _) rfl (by simp) hsame
  | statement =>
    obtain ⟨ns, rfl, hns⟩ := Task.locate_eq_statements htask.symm
    cases ns with
    | nil => cases hns
    | cons n rest =>
      cases hns
      obtain ⟨inner', hscopes', hlength⟩ := Site.exists_after n hscopes (hinner _ rfl)
      exact ⟨inner', ⟨site.after n, .node n, hscopes', rfl, rfl, by simp⟩, by rwa [hlength]⟩
  | later hn =>
    have hsame := henvironment (by simp) rfl
    obtain ⟨ns, rfl, hns⟩ := Task.locate_eq_statements htask.symm
    cases ns with
    | nil => cases hns
    | cons n rest =>
      cases hns
      have hne := hinner _ rfl
      obtain ⟨inner', hscopes', hlength⟩ := Site.exists_after n hscopes hne
      refine ⟨inner', ⟨site.after n, .statements rest, hscopes', rfl, rfl, fun _ _ => ?_⟩, ?_⟩
      · exact List.ne_nil_of_length_pos (by rw [hlength]; exact List.length_pos_of_ne_nil hne)
      · rw [hlength]
        exact hstays hsame
  | argument =>
    obtain ⟨ns, rfl, hns⟩ := Task.locate_eq_each htask.symm
    cases ns with
    | nil => cases hns
    | cons n rest =>
      cases hns
      exact hbeside (.node n) rfl (by simp) rfl
  | arguments hn =>
    have hsame := henvironment (by simp) rfl
    obtain ⟨ns, rfl, hns⟩ := Task.locate_eq_each htask.symm
    cases ns with
    | nil => cases hns
    | cons n rest =>
      cases hns
      exact hbeside (.each rest) rfl (by simp) hsame
  | function =>
    have hcall' := congrArg Task.isCall htask
    rw [Task.isCall_locate, hcall] at hcall'
    cases hcall'
  | construct => cases hpart

theorem Enters.parameters {f : Closure} {id : Nat} {values : List Value} (h : Enters mode v v')
    (hcall : v.task = .call (.function id) values) (hf : v.machine.store.closure? id = some f) :
    ∃ params, f.declaration.parameters = .ok params := by
  obtain ⟨depth, place, task, m⟩ := v
  obtain rfl : task = _ := hcall
  cases h with
  | function hclosure hparams _ =>
    obtain rfl := Option.some.inj (hclosure.symm.trans hf)
    exact ⟨_, hparams⟩

/-- A function that is called runs its body in an environment inside of its own. -/
theorem Enters.within_of_body {f : Closure} {id : Nat} {values : List Value} {names : List String}
    {site : Site} {body : List Node} (h : Enters mode v v')
    (hcall : v.task = .call (.function id) values) (hf : v.machine.store.closure? id = some f)
    (hscopes : site.scopes = names :: (inner ++ outer.scopes))
    (hbody : f.declaration.body = Node.locateAll site body)
    (henv : v.machine.store.environmentAt inner.length f.environment = .ok env) :
    v'.Within outer env (names :: inner) := by
  obtain ⟨depth, place, task, m⟩ := v
  obtain rfl : task = _ := hcall
  cases h with
  | function hclosure hparams _ =>
    obtain rfl := Option.some.inj (hclosure.symm.trans hf)
    refine ⟨⟨site, .statements body, hscopes, ?_, rfl, by simp⟩, ?_⟩
    · rw [hbody]
      rfl
    · exact (Store.environmentAt_succ (Machine.enclosing_nest _ _) _).trans
        ((Store.stable_newEnvironment _ _).environmentAt henv)

/-- The body of what a visit declares is run inside of the same environment, when it is called. -/
theorem Enters.within_body {w : Visit} {f : Closure} {id : Nat} {values : List Value}
    (hwithin : w.Within outer env inner) (hdeclares : w.Declares v.machine.store f)
    (hstable : w.machine.store.Stable v.machine.store)
    (hcall : v.task = .call (.function id) values) (hf : v.machine.store.closure? id = some f)
    (h : Enters mode v v') : ∃ inner', v'.Within outer env inner' := by
  obtain ⟨⟨site, task, hscopes, htask, -, -⟩, henv⟩ := hwithin
  have henv := hstable.environmentAt henv
  cases hdeclares with
  | @function name params body hdeclared hdeclaration henvironment =>
    rw [hdeclared] at htask
    obtain ⟨n, rfl, hn⟩ := Task.locate_eq_node htask.symm
    cases n with
    | function name₀ params₀ body₀ =>
      cases hn
      have hinside : (site.body (bodyContext false name) params).scopes =
          params.map (·.lexeme) :: (inner ++ outer.scopes) := by
        rw [← hscopes]
        rfl
      exact ⟨_, h.within_of_body hcall hf hinside (by rw [hdeclaration]; rfl)
        (by rwa [henvironment])⟩
    | _ => cases hn
  | @method name parent methods hdeclared hdeclaration henvironment =>
    rw [hdeclared] at htask
    obtain ⟨n, rfl, hn⟩ := Task.locate_eq_node htask.symm
    cases n with
    | classDecl name₀ parent₀ methods₀ =>
      cases hn
      rw [Node.locateEach_eq_map, List.mem_map] at hdeclaration
      obtain ⟨method, -, hmethod⟩ := hdeclaration
      have hreceiver := Store.environmentAt_add henvironment henv
      obtain ⟨around, haround, hlength⟩ : ∃ around,
          (site.methods parent₀).scopes = around ++ outer.scopes ∧ around.length =
            (Node.locateOption site parent₀).elim 1 (fun _ => 2) + inner.length := by
        cases parent₀ with
        | none => exact ⟨["this"] :: inner, congrArg _ hscopes, Nat.add_comm _ _⟩
        | some _ =>
          exact ⟨["this"] :: ["super"] :: inner,
            congrArg (fun rest => ["this"] :: ["super"] :: rest) hscopes, Nat.add_comm _ 2⟩
      obtain ⟨params, hparams⟩ := h.parameters hcall hf
      rw [← hmethod] at hparams
      cases method with
      | function name₁ params₁ body₁ =>
        have hinside : ((site.methods parent₀).body (bodyContext true name₁) params₁).scopes =
            params₁.map (·.lexeme) :: (around ++ outer.scopes) := by
          rw [← haround]
          rfl
        exact ⟨_, h.within_of_body hcall hf hinside (by rw [← hmethod]; rfl) (by rwa [hlength])⟩
      | misfit m => cases m <;> cases hparams
      | _ => cases hparams
    | _ => cases hn

/-- All code that belongs to a visit is run inside of the environment of the visit. -/
theorem Belongs.within (hmode : mode.byDistance = true) (h : Belongs mode v v') (hv : v.Ready)
    (hwithin : v.Within outer env inner) :
    v'.Ready ∧ ∃ inner', v'.Within outer env inner' := by
  induction h with
  | refl => exact ⟨hv, inner, hwithin⟩
  | part _ henters hpart ih =>
    obtain ⟨hready, inner', hwithin'⟩ := ih
    exact ⟨(henters.goesOn hmode hready).ready, henters.within hmode hready hpart hwithin'⟩
  | body _ hdeclares hstable hready hcall hf henters ih =>
    obtain ⟨-, inner', hwithin'⟩ := ih
    exact ⟨(henters.goesOn hmode hready).ready,
      henters.within_body hwithin' hdeclares hstable hcall hf⟩

end Eval

theorem Site.exists_hopsTo?_append {x : String} {names : List String} (hx : x ∈ names)
    (inner rest : List (List String)) :
    ∃ hops ≤ inner.length, hopsTo? x (inner ++ names :: rest) = some hops := by
  induction inner with
  | nil => exact ⟨0, le_rfl, by rw [List.nil_append, hopsTo?_cons, if_pos hx]⟩
  | cons first inner ih =>
    obtain ⟨hops, hle, hhops⟩ := ih
    rw [List.cons_append, hopsTo?_cons, hhops]
    split
    · exact ⟨0, Nat.zero_le _, rfl⟩
    · exact ⟨hops + 1, Nat.succ_le_succ hle, rfl⟩

namespace Visit

/-- The visit reads the variable or assigns to it. -/
def Mentions (v : Visit) (r : Reference) : Prop :=
  v.task = .node (.ident r) ∨ ∃ value, v.task = .node (.assign r value)

/-- Where the name is mentioned, the environment so many links out is meant, unless one on the way
there has the name as well, or will have it when the initializer is done in which the visit is. -/
def Refers (v : Visit) (x : String) (count : Nat) : Prop :=
  ∀ r, v.Mentions r → r.name.lexeme = x → ∃ hops ≤ count, r.hops = some hops ∧
    (hops < count → v.place.initializing = some x ∨ ∃ found,
      v.machine.store.environmentAt hops v.machine.environment = .ok found ∧
        v.machine.store.Has found x)

variable {v : Visit} {r : Reference}

theorem Ready.has_of_mentions {hops : Nat} (hv : v.Ready) (hr : v.Mentions r)
    (hhops : r.hops = some hops) : v.place.initializing = some r.name.lexeme ∨ ∃ found,
      v.machine.store.environmentAt hops v.machine.environment = .ok found ∧
        v.machine.store.Has found r.name.lexeme := by
  obtain ⟨site, hplace, hrunning, hfit⟩ := hv
  have hhas : hopsTo? r.name.lexeme site.scopes = some hops → ∃ found,
      v.machine.store.environmentAt hops v.machine.environment = .ok found ∧
        v.machine.store.Has found r.name.lexeme := by
    intro hbinds
    obtain ⟨names, hnames, hname⟩ := Site.binds_of_hopsTo? hbinds
    obtain ⟨found, hfound, hhas⟩ := hrunning.covers.environmentAt hops hnames
    exact ⟨found, hfound, hhas _ hname⟩
  rcases hr with hr | ⟨value, hr⟩ <;> rw [hr] at hfit
  · exact .inr (hhas (hfit.1.2.2.symm.trans hhops))
  · have hassigns := hfit.1.2.1.symm.trans hhops
    rw [Site.hops] at hassigns
    split at hassigns <;> rename_i hown
    · exact .inl (by rw [← hplace]; exact hown)
    · exact .inr (hhas hassigns)

/-- A name of the outer scope is looked up in the environment, if none further in has it. -/
theorem Within.refers {outer : Site} {env : Nat} {inner rest : List (List String)}
    {names : List String} {x : String} (h : v.Within outer env inner) (hv : v.Ready)
    (hscopes : outer.scopes = names :: rest) (hx : x ∈ names) : v.Refers x inner.length := by
  rintro r hr rfl
  obtain ⟨⟨site, task, hsite, htask, -, -⟩, -⟩ := h
  obtain ⟨hops, hle, hfound⟩ := Site.exists_hopsTo?_append hx inner rest
  have hlocate : ∀ r₀ : Reference, site.locate r₀ = r → r.hops = some hops := by
    rintro r₀ rfl
    show hopsTo? _ _ = _
    rw [hsite, hscopes]
    exact hfound
  have hhops : r.hops = some hops := by
    rcases hr with hr | ⟨value, hr⟩ <;> rw [hr] at htask <;>
      obtain ⟨n, rfl, hn⟩ := Task.locate_eq_node htask.symm
    · cases n with
      | ident r₀ => exact hlocate r₀ (Node.ident.inj hn)
      | _ => cases hn
    · cases n with
      | assign r₀ value₀ => exact hlocate r₀ (Node.assign.inj hn).1
      | _ => cases hn
  exact ⟨hops, hle, hhops, fun _ => hv.has_of_mentions hr hhops⟩

end Visit

/-! ## What declarations make -/

namespace Visit

/-- The function of that name is a closure of what the visit declares. -/
def MakesFunction (v : Visit) (name : Token) (s : Store) : Prop :=
  ∃ id f, (s.environment v.machine.environment).bindings.get? name.lexeme = some (.function id) ∧
    s.closure? id = some f ∧ ∀ s', v.Declares s' f

/-- The methods of the class of that name become closures of what the visit declares when they are
bound. -/
def MakesClass (v : Visit) (name : Token) (s : Store) : Prop :=
  ∃ id c, (s.environment v.machine.environment).bindings.get? name.lexeme = some (.cls id) ∧
    s.class? id = some c ∧ ∀ x k, c.methods.get? x = some k → ∃ g, s.closure? k = some g ∧
      ∀ (s' : Store) (f : Closure), s.Stable s' → f.declaration = g.declaration →
        (s'.environment f.environment).enclosing = some g.environment → v.Declares s' f

/-- The declaration that the visit runs makes closures of what it declares. -/
structure Makes (v : Visit) (mode : Mode) : Prop where
  function : ∀ name params body value m', v.task = .node (.function name params body) →
    Eval.eval mode v.depth (.function name params body) v.machine = .ok value m' →
    v.MakesFunction name m'.store
  methods : ∀ name parent methods value m', v.task = .node (.classDecl name parent methods) →
    Eval.eval mode v.depth (.classDecl name parent methods) v.machine = .ok value m' →
    v.MakesClass name m'.store

end Visit

namespace Eval

variable {m m' : Machine}

theorem exists_of_bind_ok {α β : Type} {c : Eval α} {k : α → Eval β} {b : β}
    (h : (c >>= k) m = .ok b m') : ∃ a m₁, c m = .ok a m₁ ∧ k a m₁ = .ok b m' := by
  rcases hc : c m with ⟨a, m₁⟩ | ⟨signal, m₁⟩
  · rw [bind_ok hc] at h
    exact ⟨a, m₁, rfl, h⟩
  · rw [bind_error hc] at h
    cases h

/-- The methods are closures of the declarations, over the environment. -/
def MethodsOf (declarations : List Node) (inner : Nat) (s : Store) (table : Table Nat) : Prop :=
  ∀ x k, table.get? x = some k →
    ∃ g, s.closure? k = some g ∧ g.declaration ∈ declarations ∧ g.environment = inner

theorem checkToken_ok {name : Token} {u : Unit} (h : checkToken name m = .ok u m') : m = m' := by
  rw [checkToken] at h
  split at h <;> cases h
  rfl

theorem methodName_ok {declaration : Node} {name : String}
    (h : methodName declaration m = .ok name m') : m = m' := by
  unfold methodName at h
  split at h
  · cases h
  · rcases hname : declaration.name? with _ | token <;> rw [hname] at h
    · cases h
    · obtain ⟨_, m₁, hcheck, hrest⟩ := exists_of_bind_ok h
      cases hrest
      exact checkToken_ok hcheck

theorem makeMethods_methodsOf {inner : Nat} {all : List Node} :
    ∀ {declarations : List Node} {table table' : Table Nat} {m m' : Machine},
      declarations ⊆ all → MethodsOf all inner m.store table →
      makeMethods inner declarations table m = .ok table' m' →
      MethodsOf all inner m'.store table' ∧ m'.store.environments = m.store.environments
  | [], table, table', m, m', _, htable, h => by
    cases h
    exact ⟨htable, rfl⟩
  | declaration :: rest, table, table', m, m', hall, htable, h => by
    obtain ⟨hmem, hrest⟩ := List.cons_subset.1 hall
    obtain ⟨name, m₁, hname, hmake⟩ := exists_of_bind_ok h
    obtain rfl := methodName_ok hname
    let f : Closure := ⟨declaration, inner, decide (name = "init")⟩
    have htable₁ : MethodsOf all inner (m.store.newFunction f).2
        (table.insert name m.store.functions.size) := by
      intro x k hk
      rw [Table.get?_insert] at hk
      split at hk
      · cases hk
        exact ⟨f, (Store.closure?_newFunction _ _ _).trans (if_pos rfl), hmem, rfl⟩
      · obtain ⟨g, hg, hover⟩ := htable x k hk
        exact ⟨g, (Store.stable_newFunction _ f).closures k g hg, hover⟩
    exact makeMethods_methodsOf (m := { m with store := (m.store.newFunction f).2 }) hrest htable₁
      hmake

/-- The environment of the methods is the one of the class, or one in it that holds `super`. -/
theorem methodEnvironment_ok {parent : Option Nat} {inner : Nat}
    (h : methodEnvironment parent m = .ok inner m') :
    m'.environment = m.environment ∧ (∀ id, m.store.Grows m'.store id Store.nothing) ∧
      ∀ s : Store, s.environments = m'.store.environments →
        s.environmentAt (parent.elim 0 fun _ => 1) inner = .ok m.environment := by
  cases parent with
  | none =>
    cases h
    exact ⟨rfl, fun _ => .refl _ _, fun _ _ => rfl⟩
  | some parent =>
    cases h
    refine ⟨rfl, fun _ => Store.grows_newEnvironment _ _ _, fun s hs => ?_⟩
    have henclosing : (s.environment m.store.environments.size).enclosing = some m.environment := by
      rw [Store.environment, hs]
      simp
    exact (Store.environmentAt_succ henclosing 0).trans rfl

theorem declareClass_methodsOf {name : Token} {parent : Option Nat} {declarations : List Node}
    {u : Unit} (hlt : m.environment < m.store.environments.size)
    (h : declareClass name parent declarations m = .ok u m') :
    ∃ id c inner, (m'.store.environment m.environment).bindings.get? name.lexeme =
        some (.cls id) ∧ m'.store.class? id = some c ∧
      MethodsOf declarations inner m'.store c.methods ∧
      m'.store.environmentAt (parent.elim 0 fun _ => 1) inner = .ok m.environment := by
  obtain ⟨_, m₁, hdefine, hrest⟩ := exists_of_bind_ok h
  obtain ⟨_, m₀, hcheck, hbound⟩ := exists_of_bind_ok hdefine
  obtain rfl := checkToken_ok hcheck
  cases hbound
  obtain ⟨_, _, hget, hrest⟩ := exists_of_bind_ok hrest
  cases hget
  obtain ⟨inner, m₂, hinner, hrest⟩ := exists_of_bind_ok hrest
  obtain ⟨_, _, henter, hrest⟩ := exists_of_bind_ok hrest
  cases henter
  obtain ⟨table, m₃, hmake, hrest⟩ := exists_of_bind_ok hrest
  obtain ⟨-, hgrows, hout⟩ := methodEnvironment_ok hinner
  obtain ⟨hmethods, hsame⟩ := makeMethods_methodsOf (List.Subset.refl _) (by simp [MethodsOf]) hmake
  let c : Class := ⟨name.lexeme, parent, table⟩
  let s₄ := (m₃.store.newClass c).2
  have hhas : s₄.Has m.environment name.lexeme := by
    have hdefined := (Store.has_define m.store m.environment name.lexeme .nil hlt name.lexeme).2
      (.inr ⟨rfl, rfl⟩)
    have hlater := ((hgrows 0).has m.environment (by simpa using hlt) name.lexeme).2 (.inl hdefined)
    rwa [Store.Has, Store.environment, ← hsame] at hlater
  have hlt₄ : m.environment < s₄.environments.size := by
    show _ < m₃.store.environments.size
    rw [hsame]
    exact lt_of_lt_of_le (by simpa using hlt) (hgrows 0).toStable.size
  have hlast : assignNearest name (.cls m₃.store.classes.size)
      { m₃ with store := s₄, environment := m.environment } = .ok u m' := hrest
  rw [assignNearest_eq (Store.holder_of_has hhas)] at hlast
  cases hlast
  refine ⟨m₃.store.classes.size, c, inner, ?_, ?_, hmethods, ?_⟩
  · rw [Store.environment_define, if_pos ⟨rfl, hlt₄⟩, Table.get?_insert, if_pos rfl]
  · exact (Store.class?_newClass _ _ _).trans (if_pos rfl)
  · rw [Store.environmentAt_define]
    exact hout s₄ hsame

theorem superclass_ok {parent : Node} {value : Value} {id : Nat}
    (h : superclass parent value m = .ok id m') : m = m' := by
  unfold superclass at h
  split at h
  · cases h
    rfl
  · rcases hname : parent.name? with _ | name <;> rw [hname] at h
    · cases h
    · obtain ⟨_, _, -, hthrow⟩ := exists_of_bind_ok h
      cases hthrow

theorem declareClass_makes {v : Visit} {name : Token} {parent : Option Node} {methods : List Node}
    {superclass : Option Nat} {u : Unit} (htask : v.task = .node (.classDecl name parent methods))
    (hparent : superclass.isSome = parent.isSome) (henvironment : m.environment = v.machine.environment)
    (hlt : m.environment < m.store.environments.size)
    (hrun : declareClass name superclass methods m = .ok u m') : v.MakesClass name m'.store := by
  obtain ⟨id, c, inner, hbound, hclass, hmethods, hout⟩ := declareClass_methodsOf hlt hrun
  rw [henvironment] at hbound hout
  refine ⟨id, c, hbound, hclass, fun x k hk => ?_⟩
  obtain ⟨g, hg, hmem, rfl⟩ := hmethods x k hk
  refine ⟨g, hg, fun s f hstable hdeclaration henclosing =>
    .method htask (hdeclaration ▸ hmem) ?_⟩
  have hreceiver := (Store.environmentAt_succ henclosing _).trans (hstable.environmentAt hout)
  rcases superclass with _ | id <;> rcases parent with _ | n
  · exact hreceiver
  · cases hparent
  · cases hparent
  · exact hreceiver

theorem Ready.makes {mode : Mode} (hmode : mode.byDistance = true) {v : Visit} (hv : v.Ready) :
    v.Makes mode := by
  obtain ⟨site, -, hrunning, hfit⟩ := hv
  obtain ⟨depth, place, task, m⟩ := v
  refine ⟨fun name params body value m' htask heval => ?_,
    fun name parent methods value m' htask heval => ?_⟩ <;> obtain rfl : task = _ := htask <;>
    rcases depth with _ | depth
  · cases heval
  · rw [eval_function hfit.1.1.toIsName.present] at heval
    cases heval
    refine ⟨_, _, ?_, (Store.closure?_newFunction _ _ _).trans (if_pos rfl),
      fun s => .function rfl rfl rfl⟩
    rw [Store.environment_define, if_pos ⟨rfl, hrunning.lt⟩, Table.get?_insert, if_pos rfl]
  · cases heval
  · cases parent with
    | none =>
      obtain ⟨_, m₁, hrun, hrest⟩ := exists_of_bind_ok heval
      cases hrest
      exact declareClass_makes rfl rfl rfl hrunning.lt hrun
    | some parent =>
      obtain ⟨v, m₁, hparent, hrest⟩ := exists_of_bind_ok heval
      have hleads := (part_ok hmode (first_scoped hfit.1 rfl) hrunning hparent).1
      obtain ⟨id, m₂, hsuper, hrest⟩ := exists_of_bind_ok hrest
      obtain ⟨_, m₃, hrun, hrest⟩ := exists_of_bind_ok hrest
      cases hrest
      obtain rfl := superclass_ok hsuper
      exact declareClass_makes rfl rfl hleads.environment (hrunning.leads hleads).lt hrun

end Eval

end Lox
