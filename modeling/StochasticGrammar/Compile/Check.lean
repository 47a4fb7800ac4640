import StochasticGrammar.Graph.Registry
import StochasticGrammar.Rule.Parse

namespace StochasticGrammar

/-- Given the texts asked about so far, oldest first, and a text, the value the text stands for. -/
structure LiteralPolicy (α : Type) where
  answer : List String → String → Option α

namespace LiteralPolicy

variable {α : Type}

def ofText (value? : String → Option α) : LiteralPolicy α := ⟨fun _ => value?⟩

def none : LiteralPolicy α := ofText fun _ => Option.none

def every (value : String → α) : LiteralPolicy α := ofText fun text => some (value text)

end LiteralPolicy

inductive CompileError where
  | rule (reason : RuleError)
  | invalid (reason : ShapeFault)
  | tooDeep
deriving DecidableEq

namespace CompileError

def message : CompileError → String
  | rule reason => reason.message
  | invalid reason => reason.message
  | tooDeep => "Rule text nests too deeply"

end CompileError

/-- The names that a build would create, and the texts that the policy was asked about. -/
structure Plan where
  planned : List String
  asked : List String
deriving DecidableEq

abbrev Checking := EStateM CompileError Plan

variable {α : Type}

namespace Plan

def knows (plan : Plan) (registry : Registry α) (name : String) : Bool :=
  registry.contains name || plan.planned.contains name

def add (name : String) (plan : Plan) : Plan := { plan with planned := name :: plan.planned }

def ask (text : String) (plan : Plan) : Plan := { plan with asked := plan.asked ++ [text] }

end Plan

def readRule {σ : Type} (text : String) : EStateM CompileError σ Rule :=
  match Rule.read text with
  | .ok rule => return rule
  | .error reason => throw (.rule reason)

/-- Asks the policy whether a text stands for a value, and plans it if so. -/
def checkLiteral (policy : LiteralPolicy α) (name reference : String) : Checking Unit := fun plan =>
  if reference.isEmpty then .error (.rule (.unresolved reference name)) plan
  else
    match policy.answer plan.asked reference with
    | none => .error (.rule (.unresolved reference name)) (plan.ask reference)
    | some _ => .ok () ((plan.ask reference).add reference)

/-- Applies a check to the operands that are not known when their turn comes, and plans each. -/
def checkOperands (registry : Registry α) (name : String)
    (check : String → Rule → Checking Unit) : List String → Checking Unit
  | [] => return
  | reference :: rest => do
    let plan ← get
    if plan.knows registry reference then checkOperands registry name check rest
    else if reference.isEmpty then throw (.rule (.unresolved reference name))
    else do
      let rule ← readRule reference
      check reference rule
      modify (Plan.add reference)
      checkOperands registry name check rest

/-- Checks the references of a rule to be compiled under a name, when checks may nest `limit`
deep. -/
def check (policy : LiteralPolicy α) (registry : Registry α) :
    Nat → String → Rule → Checking Unit
  | 0, _, _ => throw .tooDeep
  | _ + 1, name, .bare reference => do
    let plan ← get
    if plan.knows registry reference then return else checkLiteral policy name reference
  | limit + 1, name, .composite shape =>
    checkOperands registry name (check policy registry limit) shape.operands

end StochasticGrammar
