import StochasticGrammar.Compile.Build
import StochasticGrammar.Definition
import StochasticGrammar.Random
import StochasticGrammar.Settings
import StochasticGrammar.Validation

namespace StochasticGrammar

/-- A registry that rules are compiled into, the settings for generation, and a random source of the
grammar's own. -/
structure Grammar (α : Type) where
  policy : LiteralPolicy α
  workspace : Workspace α
  settings : Settings
  source : Twister
  start : Option String

/-- Why nothing is generated: the rule is not registered, or its expansion fails. -/
inductive GenerationError where
  | ruleNotFound (name : Option String)
  | expansion (rule : String) (fault : ExpansionFault)
deriving DecidableEq

namespace ExpansionFault

def message : ExpansionFault → String
  | deadSelect => "Select node has no option with positive weight"
  | tooDeep => "Expansion nests too deeply"
  | notFinite value => value.message

end ExpansionFault

namespace GenerationError

def message : GenerationError → String
  | ruleNotFound name => "Rule '" ++ name.getD "None" ++ "' is not registered"
  | expansion rule .tooDeep =>
    "Rule '" ++ rule ++ "' nests too deeply; check validate() for unbounded recursion"
  | expansion _ fault => fault.message

end GenerationError

namespace Grammar

variable {α : Type}

def nestingLimit : Nat := 1000

/-- The grammar without rules. Its source has the seed of the settings; without a seed it starts in
a state that the system gives. -/
def new (policy : LiteralPolicy α) (settings : Settings) (entropy : Twister) : Grammar α where
  policy := policy
  workspace := ⟨.empty, []⟩
  settings := settings
  source := .seeded settings.seed entropy
  start := none

def registry (grammar : Grammar α) : Registry α := grammar.workspace.registry

def registerTerminal (grammar : Grammar α) (name : String) (value : α) : Grammar α :=
  let registry := (grammar.registry.define name (.leaf value)).2
  { grammar with workspace := { grammar.workspace with registry := registry } }

def compile (grammar : Grammar α) (name text : String) :
    Except CompileError Compilation × Grammar α :=
  match (compileText grammar.policy name text).run grammar.workspace with
  | .ok compilation workspace => (.ok compilation, { grammar with workspace := workspace })
  | .error reason workspace => (.error reason, { grammar with workspace := workspace })

/-- Expands a rule, or the start rule if no name is given, with a random source, when expansions may
nest `nesting` deep. -/
def generateWith {σ : Type} [RandomSource σ] (grammar : Grammar α) (nesting : Nat)
    (name : Option String) (source : σ) : Except GenerationError (List α) × σ :=
  let rule := name.or grammar.start
  match rule.bind fun rule => (grammar.registry.find? rule).map (rule, ·) with
  | none => (.error (.ruleNotFound rule), source)
  | some (rule, id) =>
    match (grammar.registry.graph.expand grammar.settings.expansionMode nesting id).run source with
    | .ok values source => (.ok values, source)
    | .error fault source => (.error (.expansion rule fault), source)

def generate (grammar : Grammar α) (name : Option String) :
    Except GenerationError (List α) × Grammar α :=
  let (result, source) := grammar.generateWith nestingLimit name grammar.source
  (result, { grammar with source := source })

/-- Independent expansions of a rule with one source, up to the first that fails. -/
def sampleWith {σ : Type} [RandomSource σ] (grammar : Grammar α) (nesting : Nat) (name : String) :
    Nat → σ → Except GenerationError (List (List α)) × σ
  | 0, source => (.ok [], source)
  | count + 1, source =>
    match grammar.generateWith nesting (some name) source with
    | (.error reason, source) => (.error reason, source)
    | (.ok values, source) =>
      let (later, source) := grammar.sampleWith nesting name count source
      (later.map (values :: ·), source)

def sample (grammar : Grammar α) (name : String) (count : Nat) :
    Except GenerationError (List (List α)) × Grammar α :=
  let (result, source) := grammar.sampleWith nestingLimit name count grammar.source
  (result, { grammar with source := source })

def reseed (grammar : Grammar α) (seed : Option Int) (entropy : Twister) : Grammar α :=
  { grammar with source := .seeded seed entropy }

def validate (grammar : Grammar α) : Except NotFinite Report :=
  grammar.registry.validate grammar.settings.mode

/-- Validates a grammar, and refuses one with errors if a valid one is required. -/
def validateWith (grammar : Grammar α) (required : Bool) : Except ValidationFault Report :=
  match grammar.validate with
  | .error value => .error (.notFinite value)
  | .ok report =>
    if required ∧ ¬report.IsValid then .error (.invalid (grammar.registry.errorTexts report))
    else .ok report

/-- Compiles rules in order, up to the first that fails. -/
def compileAll (grammar : Grammar α) :
    List (String × String) → Except CompileError (Grammar α)
  | [] => .ok grammar
  | (name, text) :: rest =>
    match grammar.compile name text with
    | (.ok _, grammar) => grammar.compileAll rest
    | (.error reason, _) => .error reason

/-- The policy for tables of rules: as given, or else every text is a value if there are no
terminals, and none if there are. -/
def tablePolicy (value : String → α) (terminals : List (String × α)) :
    Option (LiteralPolicy α) → LiteralPolicy α
  | some policy => policy
  | none => if terminals.isEmpty then .every value else .none

/-- The grammar of a table of terminals, which are registered first, and a table of rules, which are
compiled in order. -/
def ofTables (value : String → α) (terminals : List (String × α)) (rules : List (String × String))
    (policy : Option (LiteralPolicy α)) (settings : Settings) (entropy : Twister) :
    Except CompileError (Grammar α) :=
  let bare := new (tablePolicy value terminals policy) settings entropy
  (terminals.foldl (fun grammar entry => grammar.registerTerminal entry.1 entry.2) bare).compileAll
    rules

def ofDefinition (value : String → α) (definition : Definition α)
    (policy : Option (LiteralPolicy α)) (settings : Settings) (entropy : Twister) :
    Except CompileError (Grammar α) :=
  (ofTables value definition.terminals definition.rules policy settings entropy).map fun grammar =>
    { grammar with start := definition.start }

end Grammar

end StochasticGrammar
