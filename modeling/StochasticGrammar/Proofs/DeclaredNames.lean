import StochasticGrammar.Proofs.CompilationReport
import StochasticGrammar.Proofs.CompileAcceptance
import StochasticGrammar.Proofs.DefinitionInput
import StochasticGrammar.Proofs.RuleTables

namespace StochasticGrammar

variable {α : Type}

namespace Grammar

/-- The grammar after a compilation whose check may nest one number of calls and whose build may
nest another. -/
def compileWithin (grammar : Grammar α) (checkLimit buildLimit : Nat) (name text : String) :
    Grammar α :=
  match Rule.read text with
  | .error _ => grammar
  | .ok rule =>
    let space := grammar.workspace
    match (check grammar.policy space.registry checkLimit name rule).run ⟨[], space.asked⟩ with
    | .error _ plan => { grammar with workspace := { space with asked := plan.asked } }
    | .ok _ plan =>
      { grammar with
        workspace := stateOf
          ((build grammar.policy buildLimit name rule).run { space with asked := plan.asked }) }

/-- A compilation has room for the length of its text. -/
theorem compile_eq_compileWithin (grammar : Grammar α) (name text : String) :
    (grammar.compile name text).2 =
      grammar.compileWithin (text.length + 1) (text.length + 1) name text := by
  unfold compile compileWithin compileText
  cases hread : Rule.read text with
  | error fault => rw [run_bind_of_error (readRule_run_of_error hread grammar.workspace)]
  | ok rule =>
    rw [run_bind_of_ok (readRule_run_of_ok hread grammar.workspace)]
    cases hcheck : (check grammar.policy grammar.workspace.registry (text.length + 1) name rule).run
        ⟨[], grammar.workspace.asked⟩ with
    | error reason plan => simp only [compileRule_run_of_check_error hcheck, hcheck]
    | ok _ plan =>
      cases hbuild : (build grammar.policy (text.length + 1) name rule).run
          ⟨grammar.workspace.registry, plan.asked⟩ with
      | error reason built =>
        simp only [compileRule_run_of_build_error hcheck hbuild, hcheck, hbuild, stateOf]
      | ok id built =>
        obtain ⟨compilation, hrun⟩ := exists_compileRule_run_of_ok hcheck hbuild
        simp only [hrun, hcheck, hbuild, stateOf]

theorem names_prefix_compileWithin (grammar : Grammar α) (checkLimit buildLimit : Nat)
    (name text : String) :
    grammar.registry.names <+:
      (grammar.compileWithin checkLimit buildLimit name text).registry.names := by
  unfold compileWithin
  cases hread : Rule.read text with
  | error fault => exact List.prefix_rfl
  | ok rule =>
    simp only
    split
    next => exact List.prefix_rfl
    next plan _ =>
      exact names_prefix_build grammar.policy buildLimit name hread
        { grammar.workspace with asked := plan.asked }

theorem start_compileWithin (grammar : Grammar α) (checkLimit buildLimit : Nat)
    (name text : String) :
    (grammar.compileWithin checkLimit buildLimit name text).start = grammar.start := by
  unfold compileWithin
  split
  next => rfl
  next =>
    simp only
    split <;> rfl

/-- No rule is found exactly if none is asked for, or one that has no node. -/
theorem generateWith_eq_ruleNotFound_iff {grammar : Grammar α} {σ : Type} [RandomSource σ]
    {nesting : Nat} {name missing : Option String} {source : σ} :
    (grammar.generateWith nesting name source).1 = .error (.ruleNotFound missing) ↔
      missing = name.or grammar.start ∧ missing.bind grammar.registry.find? = none := by
  unfold generateWith
  cases hrule : name.or grammar.start with
  | none =>
    constructor
    · rintro ⟨⟩
      exact ⟨rfl, rfl⟩
    · rintro ⟨rfl, _⟩
      rfl
  | some rule =>
    simp only [Option.bind_some]
    cases hfind : grammar.registry.find? rule with
    | none =>
      constructor
      · rintro ⟨⟩
        exact ⟨rfl, hfind⟩
      · rintro ⟨rfl, _⟩
        rfl
    | some id =>
      simp only [Option.map_some]
      constructor
      · intro hmissing
        split at hmissing <;> cases hmissing
      · rintro ⟨rfl, hnone⟩
        rw [Option.bind_some, hfind] at hnone
        cases hnone

end Grammar

/-- The calls on a grammar that leave it its start rule. A compilation can be cut short by limits of
nesting. Expansions draw from the source of the grammar or from one that is given. Without a seed
the source is put into a state that the system gives. -/
inductive Call (α : Type) where
  | registerTerminal (name : String) (value : α)
  | compile (name text : String)
  | compileWithin (checkLimit buildLimit : Nat) (name text : String)
  | generate (name : Option String) (given : Option Twister)
  | sample (name : String) (count : Nat) (given : Option Twister)
  | seed (value : Option Int) (entropy : Twister)
  | validate (required : Bool)

namespace Call

/-- The grammar after a call, whether it succeeds or not. -/
def run (grammar : Grammar α) : Call α → Grammar α
  | registerTerminal name value => grammar.registerTerminal name value
  | compile name text => (grammar.compile name text).2
  | compileWithin checkLimit buildLimit name text =>
    grammar.compileWithin checkLimit buildLimit name text
  | generate name none => (grammar.generate name).2
  | sample name count none => (grammar.sample name count).2
  | seed value entropy => grammar.reseed value entropy
  | generate _ (some _) | sample _ _ (some _) | validate _ => grammar

/-- What a call can do to a grammar. -/
theorem run_cases (grammar : Grammar α) (call : Call α) :
    (∃ name value, call.run grammar = grammar.registerTerminal name value) ∨
      (∃ checkLimit buildLimit name text,
        call.run grammar = grammar.compileWithin checkLimit buildLimit name text) ∨
      ∃ source, call.run grammar = { grammar with source := source } := by
  cases call with
  | registerTerminal name value => exact .inl ⟨name, value, rfl⟩
  | compile name text =>
    exact .inr (.inl ⟨_, _, name, text, grammar.compile_eq_compileWithin name text⟩)
  | compileWithin checkLimit buildLimit name text =>
    exact .inr (.inl ⟨checkLimit, buildLimit, name, text, rfl⟩)
  | generate name given =>
    cases given with
    | none => exact .inr (.inr ⟨_, rfl⟩)
    | some source => exact .inr (.inr ⟨grammar.source, rfl⟩)
  | sample name count given =>
    cases given with
    | none => exact .inr (.inr ⟨_, rfl⟩)
    | some source => exact .inr (.inr ⟨grammar.source, rfl⟩)
  | seed value entropy => exact .inr (.inr ⟨_, rfl⟩)
  | validate required => exact .inr (.inr ⟨grammar.source, rfl⟩)

theorem names_prefix_run (grammar : Grammar α) (call : Call α) :
    grammar.registry.names <+: (call.run grammar).registry.names := by
  rcases run_cases grammar call with
    ⟨name, value, hrun⟩ | ⟨checkLimit, buildLimit, name, text, hrun⟩ | ⟨source, hrun⟩
  · rw [hrun]
    exact grammar.registry.names_prefix_define name (.leaf value)
  · rw [hrun]
    exact grammar.names_prefix_compileWithin checkLimit buildLimit name text
  · rw [hrun]
    exact List.prefix_rfl

theorem start_run (grammar : Grammar α) (call : Call α) :
    (call.run grammar).start = grammar.start := by
  rcases run_cases grammar call with
    ⟨name, value, hrun⟩ | ⟨checkLimit, buildLimit, name, text, hrun⟩ | ⟨source, hrun⟩
  · rw [hrun]
    rfl
  · rw [hrun, Grammar.start_compileWithin]
  · rw [hrun]

end Call

namespace Grammar

/-- The grammar after calls, one after the other. -/
def afterCalls (grammar : Grammar α) (calls : List (Call α)) : Grammar α :=
  calls.foldl Call.run grammar

/-- Calls only ever append names, and leave the start rule as it is. -/
theorem afterCalls_keeps (grammar : Grammar α) (calls : List (Call α)) :
    grammar.registry.names <+: (grammar.afterCalls calls).registry.names ∧
      (grammar.afterCalls calls).start = grammar.start := by
  induction calls generalizing grammar with
  | nil => exact ⟨List.prefix_rfl, rfl⟩
  | cons call rest ih =>
    obtain ⟨hnames, hstart⟩ := ih (call.run grammar)
    exact ⟨(call.names_prefix_run grammar).trans hnames, hstart.trans (call.start_run grammar)⟩

theorem contains_afterCalls {grammar : Grammar α} {name : String}
    (h : grammar.registry.contains name = true) (calls : List (Call α)) :
    (grammar.afterCalls calls).registry.contains name = true := by
  rw [Registry.contains_iff_mem_names] at h ⊢
  exact (grammar.afterCalls_keeps calls).1.subset h

theorem ofDefinition_eq_ok {value : String → α} {definition : Definition α}
    {policy : Option (LiteralPolicy α)} {settings : Settings} {entropy : Twister}
    {grammar : Grammar α}
    (h : ofDefinition value definition policy settings entropy = .ok grammar) :
    grammar.start = definition.start ∧
      ∀ name ∈ definition.terminals.map Prod.fst ++ definition.rules.map Prod.fst,
        grammar.registry.contains name = true := by
  unfold ofDefinition at h
  cases htables : ofTables value definition.terminals definition.rules policy settings entropy with
  | error reason =>
    rw [htables] at h
    cases h
  | ok bare =>
    rw [htables] at h
    cases h
    exact ⟨rfl, fun name hname => contains_of_ofTables htables hname⟩

/-- Every name that an accepted definition declares has a text, and is registered after whatever is
called on the grammar of the definition. So the start rule, if there is one, is found whenever no
rule is named. -/
theorem declared_names_registered {terminals : TableInput α} {rules : TableInput (Option String)}
    {start : StartInput} {definition : Definition α} {value : String → α}
    {policy : Option (LiteralPolicy α)} {settings : Settings} {entropy : Twister}
    {grammar : Grammar α}
    (haccepted : Definition.ofInput terminals rules start = .ok definition)
    (hbuilt : ofDefinition value definition policy settings entropy = .ok grammar)
    (calls : List (Call α)) :
    (∀ name ∈ terminals.names ++ rules.names,
      name ≠ "" ∧ (grammar.afterCalls calls).registry.contains name = true) ∧
    ∀ rule, start.rule? = some rule → (grammar.afterCalls calls).start = some rule ∧
      ∀ {σ : Type} [RandomSource σ] (nesting : Nat) (source : σ) (missing : Option String),
        ((grammar.afterCalls calls).generateWith nesting none source).1 ≠
          .error (.ruleNotFound missing) := by
  obtain ⟨hterminals, hrules, hstart⟩ := Definition.declares_of_ofInput haccepted
  obtain ⟨hgiven, hregistered⟩ := ofDefinition_eq_ok hbuilt
  have hlater := (grammar.afterCalls_keeps calls).2.trans hgiven
  constructor
  · intro name hname
    rw [← hterminals, ← hrules] at hname
    refine ⟨?_, contains_afterCalls (hregistered name hname) calls⟩
    rintro rfl
    exact definition.names_ne_empty hname
  · intro rule hrule
    rw [← hstart] at hrule
    refine ⟨hlater.trans hrule, fun nesting source missing hmissing => ?_⟩
    have hdeclared : rule ∈ definition.terminals.map Prod.fst ++ definition.rules.map Prod.fst :=
      List.mem_append.mpr (definition.start_mem rule hrule).symm
    have hcontains := contains_afterCalls (hregistered rule hdeclared) calls
    obtain ⟨rfl, hnone⟩ := generateWith_eq_ruleNotFound_iff.mp hmissing
    rw [hlater, hrule] at hnone
    have hfind : (grammar.afterCalls calls).registry.find? rule = none := hnone
    simp [Registry.contains, hfind] at hcontains

/-- Two rules that refer to each other, of which one becomes another name of the other, before a
definition that fails, one that is cut short and a new value for the terminal of both. -/
theorem declared_names_registered_after_alias :
    let terminals : TableInput String := .entries [("x", "X")]
    let rules : TableInput (Option String) := .entries [("s", some "x & t"), ("t", some "s -> x")]
    let calls : List (Call String) :=
      [.compile "t" "s", .generate none none, .compile "s" "x # many", .sample "t" 2 none,
        .validate true, .compileWithin 9 1 "u" "x & t -> x", .seed (some 7) (.ofSeed 0),
        .registerTerminal "x" "Y"]
    ∃ definition grammar, Definition.ofInput terminals rules (.name "s") = .ok definition ∧
      ofDefinition id definition (some (.every id)) {} (.ofSeed 0) = .ok grammar ∧
      ("t" ≠ "" ∧ (grammar.afterCalls calls).registry.contains "t" = true) ∧
      ∀ missing, ((grammar.afterCalls calls).generateWith 9 none (Script.ofList [])).1 ≠
        .error (.ruleNotFound missing) := by
  intro terminals rules calls
  let definition : Definition String :=
    ⟨[("x", "X")], [("s", "x & t"), ("t", "s -> x")], some "s", by decide, by decide⟩
  have haccepted : Definition.ofInput terminals rules (.name "s") = .ok definition := rfl
  have hsucceeds : (ofDefinition id definition (some (.every id)) {} (.ofSeed 0)).isOk = true := by
    decide +kernel
  cases hbuilt : ofDefinition id definition (some (.every id)) {} (.ofSeed 0) with
  | error reason =>
    rw [hbuilt] at hsucceeds
    cases hsucceeds
  | ok grammar =>
    obtain ⟨hnames, hstart⟩ := declared_names_registered haccepted hbuilt calls
    have hmem : "t" ∈ terminals.names ++ rules.names := by decide
    exact ⟨definition, grammar, haccepted, hbuilt, hnames "t" hmem,
      (hstart "s" rfl).2 9 (Script.ofList [])⟩

end Grammar

end StochasticGrammar
