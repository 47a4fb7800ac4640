import StochasticGrammar.Compile.Check

namespace StochasticGrammar

variable {α : Type}

/-- A registry that rules are compiled into, and the texts that the policy was asked about. -/
structure Workspace (α : Type) where
  registry : Registry α
  asked : List String

abbrev Building (α : Type) := EStateM CompileError (Workspace α)

def define (name : String) (node : Node α) : Building α NodeId := fun space =>
  let (id, registry) := space.registry.define name node
  .ok id { space with registry := registry }

def bindName (name : String) (id : NodeId) : Building α NodeId := fun space =>
  .ok id { space with registry := space.registry.install name id }

def askPolicy (policy : LiteralPolicy α) (text : String) : Building α (Option α) := fun space =>
  .ok (policy.answer space.asked text) { space with asked := space.asked ++ [text] }

/-- The node of a reference: the registered one, or a new leaf if the policy accepts the text. -/
def literalNode (policy : LiteralPolicy α) (name reference : String) : Building α NodeId := do
  let space ← get
  match space.registry.find? reference with
  | some id => return id
  | none =>
    match ← askPolicy policy reference with
    | none => throw (.rule (.unresolved reference name))
    | some value => define reference (.leaf value)

/-- The node of an operand: the registered one, or one built from the operand's own text. -/
def operandNode (build : String → Rule → Building α NodeId) (reference : String) :
    Building α NodeId := do
  let space ← get
  match space.registry.find? reference with
  | some id => return id
  | none =>
    let rule ← readRule reference
    build reference rule

def defineShape (name : String) (shape : Composite NodeId) : Building α NodeId :=
  match shape.checked with
  | .ok shape => define name (.composite shape)
  | .error reason => throw (.invalid reason)

/-- Builds the node of a rule and registers it under a name, when builds may nest `limit` deep. A
bare rule gives the name the node of its reference, so that both share it. -/
def build (policy : LiteralPolicy α) : Nat → String → Rule → Building α NodeId
  | 0, _, _ => throw .tooDeep
  | _ + 1, name, .bare reference => do
    let id ← literalNode policy name reference
    bindName name id
  | limit + 1, name, .composite shape => do
    let shape ← shape.mapM (operandNode (build policy limit))
    defineShape name shape

/-- What a compilation did: the kind of the rule, whether the name was registered before, and the
other names that were registered along the way. -/
structure Compilation where
  name : String
  kind : RuleKind
  replaced : Bool
  created : List String
deriving DecidableEq

/-- Checks a rule and, if every reference can be resolved, builds it. The operands of a text are
shorter than the text, so its length bounds the nesting of both. -/
def compileRule (policy : LiteralPolicy α) (name : String) (limit : Nat) (rule : Rule) :
    Building α Compilation := fun space =>
  match (check policy space.registry limit name rule).run ⟨[], space.asked⟩ with
  | .error reason plan => .error reason { space with asked := plan.asked }
  | .ok _ plan =>
    match (build policy limit name rule).run { space with asked := plan.asked } with
    | .error reason built => .error reason built
    | .ok _ built =>
      let before := space.registry.names
      .ok
        { name := name
          kind := rule.kind
          replaced := space.registry.contains name
          created := built.registry.names.filter fun new => !before.contains new && new != name }
        built

def compileText (policy : LiteralPolicy α) (name text : String) : Building α Compilation := do
  let rule ← readRule text
  compileRule policy name (text.length + 1) rule

end StochasticGrammar
