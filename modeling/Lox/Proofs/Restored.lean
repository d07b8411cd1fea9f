import Mathlib.Tactic
import Lox.Proofs.CallFrame
import Lox.Proofs.Phases
import Lox.Session.Step

/-!
# Where a machine is left

A machine goes to other environments all the time, and comes back from each of them however what it
did there ends. Calls and blocks come back because `within` does. A class declaration only goes
there and back again, so that its methods must be made without a fault: where each method of a class
with a superclass has a token for its name, nothing leaves the machine elsewhere
(`environment_restored`), and without such a token something does (`unnamed_method_strands`).
-/

namespace Lox

/-! ## Methods in a tree -/

section Methods

variable (ok : Option Node → Node → Prop)

mutual

/-- All methods in the tree are as described, given the superclass of their class. -/
def Node.MethodsSatisfy : Node → Prop
  | .assign _ value => value.MethodsSatisfy
  | .binary left _ right => left.MethodsSatisfy ∧ right.MethodsSatisfy
  | .call callee _ arguments => callee.MethodsSatisfy ∧ Node.AllMethodsSatisfy arguments
  | .property object _ => object.MethodsSatisfy
  | .group inner => inner.MethodsSatisfy
  | .literal _ => True
  | .logical left _ right => left.MethodsSatisfy ∧ right.MethodsSatisfy
  | .setProperty object _ value => object.MethodsSatisfy ∧ value.MethodsSatisfy
  | .superMethod _ _ => True
  | .receiver _ => True
  | .unary _ right => right.MethodsSatisfy
  | .ident _ => True
  | .block statements => Node.AllMethodsSatisfy statements
  | .classDecl _ superclass methods =>
    (∀ f ∈ methods, ok superclass f) ∧ Node.OptionMethodsSatisfy superclass ∧
      Node.AllMethodsSatisfy methods
  | .expression value => value.MethodsSatisfy
  | .function _ _ body => Node.AllMethodsSatisfy body
  | .conditional condition thenBranch elseBranch =>
    condition.MethodsSatisfy ∧ thenBranch.MethodsSatisfy ∧ Node.OptionMethodsSatisfy elseBranch
  | .print value => value.MethodsSatisfy
  | .returning _ value => Node.OptionMethodsSatisfy value
  | .varDecl _ initializer => Node.OptionMethodsSatisfy initializer
  | .loop condition body => condition.MethodsSatisfy ∧ body.MethodsSatisfy
  | .misfit m => m.MethodsSatisfy

def Misfit.MethodsSatisfy : Misfit → Prop
  | .token _ => True
  | .value _ => True
  | .list items => Node.AllMethodsSatisfy items
  | .unlisted content => content.MethodsSatisfy
  | .function _ params body => params.MethodsSatisfy ∧ Node.AllMethodsSatisfy body
  | .quoted _ => True

def Node.AllMethodsSatisfy : List Node → Prop
  | [] => True
  | n :: rest => n.MethodsSatisfy ∧ Node.AllMethodsSatisfy rest

def Node.OptionMethodsSatisfy : Option Node → Prop
  | none => True
  | some n => n.MethodsSatisfy

end

end Methods

namespace Node

/-- There is a token in the place of the node's name. -/
def IsNamed (n : Node) : Prop := ∃ name, n.name? = some name ∧ name.isMissing = false

/-- Every method of a class with a superclass is named, wherever in the tree the class is. -/
def NamesMethods (n : Node) : Prop :=
  n.MethodsSatisfy fun superclass f => superclass ≠ none → f.IsNamed

/-- So it is in every tree of a list. -/
def AllNameMethods (ns : List Node) : Prop :=
  AllMethodsSatisfy (fun superclass f => superclass ≠ none → f.IsNamed) ns

end Node

/-! ## Trees from a source -/

section Sources

variable {ok : Token → Prop}

theorem Node.Fits.isNamed {n : Node} (h : n.Fits ok .method) : n.IsNamed := by
  cases n with
  | function name params body => exact ⟨name, rfl, by simp [Token.isMissing, h.2.1.2]⟩
  | _ => simp [Node.Fits, Role.IsStatement] at h

theorem Node.FitAll.isNamed {ns : List Node} (h : Node.FitAll ok .method ns) :
    ∀ f ∈ ns, f.IsNamed := by
  induction ns with
  | nil => simp
  | cons n rest ih => exact List.forall_mem_cons.2 ⟨h.1.isNamed, ih h.2⟩

theorem FitsSuperclass.namesMethods {parent : Option Node} (h : FitsSuperclass ok parent)
    {P : Option Node → Node → Prop} : Node.OptionMethodsSatisfy P parent := by
  cases parent with
  | none => trivial
  | some n =>
    cases n with
    | ident name => trivial
    | _ => exact h.elim

mutual

/-- Parsing names every method. -/
theorem Node.Fits.namesMethods : ∀ {n : Node} {role : Role}, n.Fits ok role → n.NamesMethods
  | .assign .., _, h => h.2.2.namesMethods
  | .binary .., _, h => ⟨h.2.2.1.namesMethods, h.2.2.2.namesMethods⟩
  | .call .., _, h => ⟨h.2.2.1.namesMethods, h.2.2.2.allNameMethods⟩
  | .property .., _, h => h.2.2.namesMethods
  | .group .., _, h => h.2.namesMethods
  | .literal .., _, _ => trivial
  | .logical .., _, h => ⟨h.2.2.1.namesMethods, h.2.2.2.namesMethods⟩
  | .setProperty .., _, h => ⟨h.2.2.1.namesMethods, h.2.2.2.namesMethods⟩
  | .superMethod .., _, _ => trivial
  | .receiver .., _, _ => trivial
  | .unary .., _, h => h.2.2.namesMethods
  | .ident .., _, _ => trivial
  | .block .., _, h => h.2.allNameMethods
  | .classDecl .., _, h =>
    ⟨fun f hf _ => h.2.2.2.isNamed f hf, h.2.2.1.namesMethods, h.2.2.2.allNameMethods⟩
  | .expression .., _, h => h.2.namesMethods
  | .function .., _, h => h.2.2.2.allNameMethods
  | .conditional .., _, h =>
    ⟨h.2.1.namesMethods, h.2.2.1.namesMethods, h.2.2.2.optionNamesMethods⟩
  | .print .., _, h => h.2.namesMethods
  | .returning .., _, h => h.2.2.optionNamesMethods
  | .varDecl .., _, h => h.2.2.optionNamesMethods
  | .loop .., _, h => ⟨h.2.1.namesMethods, h.2.2.namesMethods⟩
  | .misfit _, _, h => h.elim

theorem Node.FitAll.allNameMethods : ∀ {ns : List Node} {role : Role}, Node.FitAll ok role ns →
    Node.AllNameMethods ns
  | [], _, _ => trivial
  | _ :: _, _, h => ⟨h.1.namesMethods, h.2.allNameMethods⟩

theorem Node.FitsOption.optionNamesMethods : ∀ {n : Option Node} {role : Role},
    Node.FitsOption ok role n →
    Node.OptionMethodsSatisfy (fun superclass f => superclass ≠ none → f.IsNamed) n
  | none, _, _ => trivial
  | some n, _, h => Node.Fits.namesMethods (n := n) h

end

theorem Node.ScopedMethods.isNamed {site : Site} {ns : List Node}
    (h : Node.ScopedMethods site ns) : ∀ f ∈ ns, f.IsNamed := by
  induction ns with
  | nil => simp
  | cons n rest ih =>
    cases n with
    | function name params body =>
      exact List.forall_mem_cons.2 ⟨⟨name, rfl, h.1.1.present⟩, ih h.2⟩
    | _ => exact h.elim

mutual

/-- So does what is resolved. -/
theorem Node.Scoped.namesMethods : ∀ {n : Node} {site : Site}, n.Scoped site → n.NamesMethods
  | .assign .., _, h => h.2.2.2.namesMethods
  | .binary .., _, h => ⟨h.2.1.2.namesMethods, h.2.2.2.namesMethods⟩
  | .call .., _, h => ⟨h.2.1.2.namesMethods, h.2.2.allNameMethods⟩
  | .property .., _, h => h.2.2.namesMethods
  | .group .., _, h => h.2.namesMethods
  | .literal .., _, _ => trivial
  | .logical .., _, h => ⟨h.2.1.2.namesMethods, h.2.2.2.namesMethods⟩
  | .setProperty .., _, h => ⟨h.2.1.2.namesMethods, h.2.2.2.namesMethods⟩
  | .superMethod .., _, _ => trivial
  | .receiver .., _, _ => trivial
  | .unary .., _, h => h.2.2.namesMethods
  | .ident .., _, _ => trivial
  | .block .., _, h => h.allNameMethods
  | .classDecl _ none _, _, h =>
    ⟨fun f hf _ => h.2.isNamed f hf, trivial, h.2.allNameMethods⟩
  | .classDecl _ (some _) _, _, h =>
    ⟨fun f hf _ => h.2.2.isNamed f hf, h.2.1.2.2.namesMethods, h.2.2.allNameMethods⟩
  | .expression .., _, h => h.2.namesMethods
  | .function .., _, h => h.2.2.allNameMethods
  | .conditional .., _, h =>
    ⟨h.1.2.namesMethods, h.2.1.2.namesMethods, h.2.2.optionNamesMethods⟩
  | .print .., _, h => h.2.namesMethods
  | .returning .., _, h => h.2.2.optionNamesMethods
  | .varDecl .., _, h => h.2.optionNamesMethods
  | .loop .., _, h => ⟨h.1.2.namesMethods, h.2.2.namesMethods⟩
  | .misfit _, _, h => h.elim

theorem Node.ScopedEach.allNameMethods : ∀ {ns : List Node} {site : Site},
    Node.ScopedEach site ns → Node.AllNameMethods ns
  | [], _, _ => trivial
  | _ :: _, _, h => ⟨h.1.2.namesMethods, h.2.allNameMethods⟩

theorem Node.ScopedAll.allNameMethods : ∀ {ns : List Node} {site : Site},
    Node.ScopedAll site ns → Node.AllNameMethods ns
  | [], _, _ => trivial
  | _ :: _, _, h => ⟨h.1.namesMethods, h.2.allNameMethods⟩

theorem Node.ScopedMethods.allNameMethods : ∀ {ns : List Node} {site : Site},
    Node.ScopedMethods site ns → Node.AllNameMethods ns
  | [], _, _ => trivial
  | n :: _, _, h => by
    cases n with
    | function name params body => exact ⟨h.1.2.2.allNameMethods, h.2.allNameMethods⟩
    | _ => exact h.elim

theorem Node.ScopedOption.optionNamesMethods : ∀ {n : Option Node} {site : Site},
    Node.ScopedOption site n →
    Node.OptionMethodsSatisfy (fun superclass f => superclass ≠ none → f.IsNamed) n
  | none, _, _ => trivial
  | some _, _, h => h.2.namesMethods

end

end Sources

/-! ## Computations that come back -/

namespace Eval

variable {α β : Type} {m : Machine}

/-- However the computation ends, the machine is where it was. -/
def Restores (x : Eval α) : Prop := ∀ m, (machineAfter (x m)).environment = m.environment

theorem Oblivious.restores {x : Eval α} (h : Oblivious x) : Restores x := by
  intro m
  have hsame : x m = inEnvironment m.environment (x m) := h m m.environment
  rw [hsame]
  cases x m <;> rfl

theorem Reads.restores {x : Eval α} (h : Reads x) : Restores x :=
  fun m => congrArg Machine.environment (h m)

theorem restores_pure (a : α) : Restores (pure a : Eval α) := (reads_pure a).restores

theorem restores_throw (signal : Signal) : Restores (throw signal : Eval α) :=
  (reads_throw signal).restores

theorem restores_fail (token : Token) (cause : RuntimeError.Cause) :
    Restores (fail token cause : Eval α) := (reads_fail token cause).restores

theorem Restores.bind {x : Eval α} {k : α → Eval β} (hx : Restores x)
    (hk : ∀ a, Restores (k a)) : Restores (x >>= k) :=
  machineAfter_bind Machine.environment hx hk

theorem restores_get {k : Machine → Eval β} (hk : ∀ m, Restores (k m)) : Restores (get >>= k) :=
  fun m => hk m m

theorem restores_define (name : Token) (value : Value) : Restores (define name value) :=
  (reads_checkToken name).restores.bind fun _ _ => rfl

theorem restores_assign (mode : Mode) (r : Reference) (value : Value) :
    Restores (assign mode r value) := by
  refine (reads_checkToken r.name).restores.bind fun _ m => ?_
  split <;> rfl

theorem restores_assignNearest (name : Token) (value : Value) :
    Restores (assignNearest name value) := by
  intro m
  unfold assignNearest
  split <;> rfl

theorem restores_getProperty (inst : Nat) (name : Token) : Restores (getProperty inst name) := by
  refine (reads_checkToken name).restores.bind fun _ m => ?_
  dsimp only
  split <;> rfl

theorem restores_setProperty (inst : Nat) (name : Token) (value : Value) :
    Restores (setProperty inst name value) :=
  (reads_checkToken name).restores.bind fun _ _ => rfl

theorem restores_declareFunction (name : Token) (declaration : Node) :
    Restores (declareFunction name declaration) :=
  restores_get fun _ => (oblivious_alloc _).restores.bind fun _ => restores_define _ _

theorem restores_superMethod (mode : Mode) (keyword : Reference) (method : Token) :
    Restores (superMethod mode keyword method) := by
  unfold superMethod
  split
  · exact restores_throw _
  · refine (reads_getAt _ _).restores.bind fun parent => ?_
    refine (reads_getAt _ _).restores.bind fun receiver => ?_
    split
    · refine (reads_checkToken _).restores.bind fun _ => restores_get fun m => ?_
      split
      · exact (oblivious_alloc _).restores.bind fun _ => restores_pure _
      · exact restores_fail _ _
    · exact restores_throw _

theorem restores_misfit (x : Misfit) : Restores (misfit x) := by
  unfold misfit
  split
  · exact restores_pure _
  · exact (restores_declareFunction _ _).bind fun _ => restores_pure _
  · split
    · exact restores_throw _
    · exact restores_pure _
  · exact restores_throw _

/-! ## Class declarations -/

theorem restores_makeMethods (environment : Nat) (declarations : List Node) (table : Table Nat) :
    Restores (makeMethods environment declarations table) := by
  induction declarations generalizing table with
  | nil => exact restores_pure table
  | cons declaration rest ih =>
    exact (reads_methodName declaration).restores.bind fun _ =>
      (oblivious_alloc _).restores.bind fun _ => ih _

theorem methodName_eq {declaration : Node} (h : declaration.IsNamed) :
    ∃ name, methodName declaration = pure name := by
  obtain ⟨name, hname, hpresent⟩ := h
  refine ⟨name.lexeme, ?_⟩
  unfold methodName
  split
  · cases hname
  · simp only [hname, checkToken_eq hpresent, pure_bind]

/-- The methods of a class are made if they have names. -/
theorem makeMethods_ok (environment : Nat) {declarations : List Node}
    (h : ∀ f ∈ declarations, f.IsNamed) (table : Table Nat) (m : Machine) :
    ∃ made m', makeMethods environment declarations table m = .ok made m' := by
  induction declarations generalizing table m with
  | nil => exact ⟨table, m, rfl⟩
  | cons declaration rest ih =>
    obtain ⟨hfirst, hrest⟩ := List.forall_mem_cons.1 h
    obtain ⟨name, hname⟩ := methodName_eq hfirst
    rw [makeMethods, hname, pure_bind]
    exact ih hrest _ _

/-- The environment of the methods is another one only if there is a superclass. -/
theorem methodEnvironment_eq (parent : Option Nat) (m : Machine) :
    ∃ inner m', methodEnvironment parent m = .ok inner m' ∧ m'.environment = m.environment ∧
      (parent = none → inner = m.environment) := by
  cases parent with
  | none => exact ⟨m.environment, m, rfl, rfl, fun _ => rfl⟩
  | some parent => exact ⟨_, _, rfl, rfl, nofun⟩

theorem restores_declareClass {name : Token} {parent : Option Nat} {declarations : List Node}
    (h : parent ≠ none → ∀ f ∈ declarations, f.IsNamed) :
    Restores (declareClass name parent declarations) := by
  refine (restores_define name .nil).bind fun _ m => ?_
  obtain ⟨inner, m₁, hinner, henvironment, hsame⟩ := methodEnvironment_eq parent m
  show (machineAfter ((methodEnvironment parent >>= _) m)).environment = _
  rw [bind_ok hinner]
  show (machineAfter ((makeMethods inner declarations .empty >>= _)
    { m₁ with environment := inner })).environment = _
  rcases hmade : makeMethods inner declarations .empty { m₁ with environment := inner } with
    ⟨made, m₂⟩ | ⟨signal, m₂⟩
  · rw [bind_ok hmade]
    have htail := (oblivious_alloc (·.newClass ⟨name.lexeme, parent, made⟩)).restores.bind
      fun id => restores_assignNearest name (.cls id)
    exact htail { m₂ with environment := m.environment }
  · rw [bind_error hmade]
    cases parent with
    | none =>
      -- without a superclass the machine never went elsewhere
      have hrestores := restores_makeMethods inner declarations .empty
        { m₁ with environment := inner }
      rw [hmade] at hrestores
      exact hrestores.trans (hsame rfl)
    | some parent =>
      obtain ⟨made, m₃, hok⟩ := makeMethods_ok inner (h nofun) .empty
        { m₁ with environment := inner }
      rw [hmade] at hok
      cases hok

/-! ## Nodes and lists of nodes -/

section Parts

variable {mode : Mode} {depth : Nat}
  (IH : ∀ n : Node, n.NamesMethods → Restores (eval mode depth n))
include IH

theorem restores_statements : ∀ ns : List Node, Node.AllNameMethods ns →
    Restores (inOrder (eval mode depth) ns)
  | [], _ => restores_pure ()
  | n :: rest, h => (IH n h.1).bind fun _ => restores_statements rest h.2

theorem restores_each : ∀ ns : List Node, Node.AllNameMethods ns →
    Restores (ns.mapM (eval mode depth))
  | [], _ => by
    rw [List.mapM_nil]
    exact restores_pure []
  | n :: rest, h => by
    rw [List.mapM_cons]
    exact (IH n h.1).bind fun _ => (restores_each rest h.2).bind fun _ => restores_pure _

theorem restores_turns {condition body : Node} (hcondition : condition.NamesMethods)
    (hbody : body.NamesMethods) : ∀ count : Nat,
    Restores (repeatWhile (eval mode depth condition) (eval mode depth body) count)
  | 0 => restores_throw _
  | count + 1 => by
    refine (IH condition hcondition).bind fun v => ?_
    split
    · exact (IH body hbody).bind fun _ => restores_turns hcondition hbody count
    · exact restores_pure ()

theorem restores_call {callee : Node} {paren : Token} {arguments : List Node}
    (hcallee : callee.NamesMethods) (harguments : Node.AllNameMethods arguments) :
    Restores (eval mode (depth + 1) (.call callee paren arguments)) := by
  refine (IH callee hcallee).bind fun v => (restores_each IH arguments harguments).bind
    fun values => restores_get fun m => ?_
  rcases m.store.arity? v with f | _ | arity <;> simp only
  · exact restores_throw _
  · exact restores_fail _ _
  · split
    · exact (restores_fail _ _).bind fun _ => (call_oblivious mode depth v values).restores
    · exact (call_oblivious mode depth v values).restores

theorem restores_node (n : Node) (h : n.NamesMethods) : Restores (eval mode (depth + 1) n) := by
  cases n with
  | literal value => exact restores_pure _
  | group inner => exact IH inner h
  | ident r => exact (reads_lookup mode r).restores
  | receiver r => exact (reads_lookup mode r).restores
  | superMethod keyword method => exact restores_superMethod mode keyword method
  | assign target value =>
    exact (IH value h).bind fun v => (restores_assign mode target v).bind fun _ => restores_pure _
  | unary operator right => exact (IH right h).bind fun _ => (oblivious_ofExcept _).restores
  | binary left operator right =>
    exact (IH left h.1).bind fun _ => (IH right h.2).bind fun _ => (oblivious_ofExcept _).restores
  | logical left operator right =>
    refine (IH left h.1).bind fun v => (reads_checkToken operator).restores.bind fun _ => ?_
    split
    · exact restores_pure v
    · exact IH right h.2
  | call callee paren arguments => exact restores_call IH h.1 h.2
  | property object name =>
    refine (IH object h).bind fun v => ?_
    cases v with
    | inst id => exact restores_getProperty id name
    | _ => exact restores_fail _ _
  | setProperty object name value =>
    refine (IH object h.1).bind fun v => ?_
    cases v with
    | inst id =>
      exact (IH value h.2).bind fun w => (restores_setProperty id name w).bind fun _ =>
        restores_pure w
    | _ => exact restores_fail _ _
  | block statements =>
    exact restores_get fun _ => (oblivious_alloc _).restores.bind fun _ =>
      (oblivious_within _ _).restores.bind fun _ => restores_pure _
  | classDecl name parent methods =>
    cases parent with
    | none =>
      exact (restores_declareClass fun hparent => absurd rfl hparent).bind fun _ => restores_pure _
    | some parent =>
      refine (IH parent h.2.1).bind fun v => (reads_superclass parent v).restores.bind fun id => ?_
      exact (restores_declareClass fun _ f hf => h.1 f hf (Option.some_ne_none parent)).bind
        fun _ => restores_pure _
  | expression value =>
    exact (IH value h).bind fun v => (reads_checkInitialized value v).restores.bind fun _ =>
      restores_pure _
  | function name params body =>
    exact (restores_declareFunction _ _).bind fun _ => restores_pure _
  | conditional condition thenBranch elseBranch =>
    refine (IH condition h.1).bind fun v => ?_
    split
    · exact (IH thenBranch h.2.1).bind fun _ => restores_pure _
    · cases elseBranch with
      | none => exact restores_pure _
      | some branch => exact (IH branch h.2.2).bind fun _ => restores_pure _
  | print value =>
    refine (IH value h).bind fun v => (reads_checkInitialized value v).restores.bind fun _ => ?_
    exact restores_get fun m =>
      Restores.bind (fun _ => rfl) fun _ => restores_pure _
  | returning keyword value =>
    cases value with
    | none => exact restores_throw _
    | some value => exact (IH value h).bind fun _ => restores_throw _
  | varDecl name initializer =>
    cases initializer with
    | none => exact (restores_define name .nil).bind fun _ => restores_pure _
    | some initializer =>
      exact (IH initializer h).bind fun v => (restores_define name v).bind fun _ => restores_pure _
  | loop condition body =>
    exact (restores_turns IH h.1 h.2 _).bind fun _ => restores_pure _
  | misfit x => exact restores_misfit x

end Parts

theorem restores_eval (mode : Mode) (depth : Nat) :
    ∀ n : Node, n.NamesMethods → Restores (eval mode depth n) := by
  induction depth with
  | zero => exact fun _ _ => restores_throw _
  | succ depth IH => exact restores_node IH

end Eval

/-! ## Sessions -/

namespace Session

open Eval (machineAfter)

variable {s : Session}

theorem machine_conclude {α : Type} (s : Session) (ending : EStateM.Result Signal Machine α) :
    (s.conclude ending).1.machine = machineAfter ending := by
  rcases ending with ⟨a, m⟩ | ⟨signal, m⟩
  · rfl
  · cases signal <;> rfl

theorem environment_interpret (s : Session) (byDistance : Bool) {nodes : List Node}
    (h : Node.AllNameMethods nodes) :
    (s.interpret byDistance nodes).1.machine.environment = s.machine.environment := by
  rw [interpret, machine_conclude]
  exact Eval.restores_statements (Eval.restores_eval _ _) nodes h s.machine

theorem environment_parse (s : Session) (source : String) :
    (s.parse source).1.machine.environment = s.machine.environment := by
  obtain ⟨reports, -, hsession, -⟩ := parse_spec s source
  rw [hsession]
  rfl

theorem environment_run (s : Session) (source : String) :
    (s.run source).1.machine.environment = s.machine.environment := by
  rcases admits_cases s source with ⟨reports, hrefuses⟩ | ⟨statements, hadmits, -, hrun⟩
  · rw [hrefuses.session]
    rfl
  · rw [hrun]
    exact environment_interpret s true hadmits.scoped.allNameMethods

/-- Parsing names every method, whatever it complains of. -/
theorem allNameMethods_parse {source : String} {statements : List Node}
    (h : (s.parse source).2 = .ok statements) : Node.AllNameMethods statements := by
  have hfits := Parser.fits_program s.limits.grammar (scan source).tokens fun _ ht => ht
  have hparse : s.parse source = (s.report (scanReports source)).parseTokens
      (scan source).tokens := rfl
  rw [hparse, parseTokens] at h
  simp only [report] at h
  generalize Parser.program s.limits.grammar (scan source).tokens = reply at hfits h
  rcases reply with ⟨complaints, ⟨found, rest⟩ | rest | _ | _⟩ <;> cases h
  · exact hfits.2.allNameMethods
  · trivial

theorem environment_runUnresolved (s : Session) (source : String) :
    (s.runUnresolved source).1.machine.environment = s.machine.environment := by
  have hparsed := environment_parse s source
  unfold runUnresolved
  split
  · rename_i hparse
    rwa [hparse] at hparsed
  · rename_i hparse
    have hnamed := allNameMethods_parse (congrArg Prod.snd hparse)
    rw [hparse] at hparsed
    exact (environment_interpret _ true hnamed).trans hparsed

theorem environment_printTree (s : Session) (source : String) :
    (s.printTree source).1.machine.environment = s.machine.environment := by
  have hparsed := environment_parse s source
  unfold printTree
  split <;> rename_i hparse <;> rw [hparse] at hparsed
  · exact hparsed
  · split <;> exact hparsed

theorem environment_perform (s : Session) (step : Step) :
    (s.perform step).1.machine.environment = s.machine.environment := by
  cases step with
  | run source => exact environment_run s source
  | parse source =>
    have hparsed := environment_parse s source
    simp only [perform]
    split <;> rename_i hparse <;> rwa [hparse] at hparsed
  | printTree source => exact environment_printTree s source
  | runUnresolved source => exact environment_runUnresolved s source
  | runScript bytes =>
    show (s.withText bytes run).1.machine.environment = _
    unfold withText
    split
    · rfl
    · exact environment_run s _
  | reset => rfl

theorem environment_performAll (s : Session) (steps : List Step) :
    (s.performAll steps).machine.environment = s.machine.environment := by
  induction steps generalizing s with
  | nil => rfl
  | cons step rest ih => exact (ih (s.perform step).1).trans (environment_perform s step)

/-- Whatever runs leaves the machine in the environment in which it was, however it ends and on
any machine: a node, a list of statements, a block of them in another environment, and a call of any
value with any arguments. A session stays where it is at every step, and so at the globals, where it
starts. -/
theorem environment_restored (mode : Mode) (depth : Nat) (m : Machine) :
    (∀ n : Node, n.NamesMethods →
      (machineAfter (Eval.eval mode depth n m)).environment = m.environment) ∧
    (∀ (ns : List Node) (inner : Nat), Node.AllNameMethods ns →
      (machineAfter (Eval.inOrder (Eval.eval mode depth) ns m)).environment = m.environment ∧
      (machineAfter (Eval.within inner (Eval.inOrder (Eval.eval mode depth) ns) m)).environment =
        m.environment) ∧
    (∀ (callee : Value) (arguments : List Value),
      (machineAfter (Eval.call mode depth callee arguments m)).environment = m.environment) ∧
    (∀ (s : Session) (byDistance : Bool) (ns : List Node), Node.AllNameMethods ns →
      (s.interpret byDistance ns).1.machine.environment = s.machine.environment) ∧
    (∀ (limits : Limits) (steps : List Step),
      (({ limits } : Session).performAll steps).machine.environment = Store.globals) :=
  ⟨fun n h => Eval.restores_eval mode depth n h m,
    fun ns _ h => ⟨Eval.restores_statements (Eval.restores_eval mode depth) ns h m,
      (Eval.oblivious_within _ _).restores m⟩,
    fun callee arguments => (Eval.call_oblivious mode depth callee arguments).restores m,
    fun s byDistance _ h => environment_interpret s byDistance h,
    fun limits steps => environment_performAll { limits } steps⟩

/-- A block that declares a class with a superclass and then fails. -/
def failingBlock : List Node :=
  let name (lexeme : String) : Token := ⟨.identifier, lexeme, .nil, 1⟩
  [.classDecl (name "A") none [],
   .block [.classDecl (name "B") (some (.ident ⟨name "A", none⟩)) [.function (name "f") [] []],
     .expression (.ident ⟨name "B", none⟩)]]

theorem environment_restored_failing :
    Node.AllNameMethods failingBlock ∧
      (({} : Session).interpret false failingBlock).1.hadRuntimeError = true ∧
      (({} : Session).interpret false failingBlock).1.machine.environment = Store.globals := by
  have hnamed : Node.AllNameMethods failingBlock := by
    simp [failingBlock, Node.AllNameMethods, Node.AllMethodsSatisfy, Node.MethodsSatisfy,
      Node.OptionMethodsSatisfy, Node.IsNamed, Node.name?, Token.isMissing]
  exact ⟨hnamed, by decide +kernel,
    (environment_restored ⟨false, 0⟩ 0 {}).2.2.2.1 {} false failingBlock hnamed⟩

/-- A class whose one method is a function without a token for its name, after statements whose
effect tells the globals from other environments. -/
def unnamedMethod : List Node :=
  let name (lexeme : String) : Token := ⟨.identifier, lexeme, .nil, 1⟩
  [.varDecl (name "x") (some (.literal (.string "a"))),
   .expression (.assign ⟨name "x", none⟩
     (.binary (.ident ⟨name "x", none⟩) ⟨.plus, "+", .nil, 1⟩ (.literal (.string "b")))),
   .print (.ident ⟨name "x", none⟩),
   .classDecl (name "A") none [],
   .classDecl (name "B") (some (.ident ⟨name "A", none⟩)) [.function .missing [] []]]

/-- The class strands the machine in the environment of its methods, although each method in the
tree is a function. A second run declares there what the first declared among the globals. -/
theorem unnamed_method_strands :
    Node.AllMethodsSatisfy (fun _ f => f.kind? = some .function) unnamedMethod ∧
      (({} : Session).interpret false unnamedMethod).2 = some (.fault .noMember) ∧
      (({} : Session).interpret false unnamedMethod).1.machine.environment ≠ Store.globals ∧
      ((({} : Session).interpret false unnamedMethod).1.interpret false
        unnamedMethod).1.machine.printed = #["ab", "abb"] := by
  refine ⟨?_, by decide +kernel, by decide +kernel, by decide +kernel⟩
  simp [unnamedMethod, Node.AllMethodsSatisfy, Node.MethodsSatisfy, Node.OptionMethodsSatisfy,
    Node.kind?]

end Session

end Lox
