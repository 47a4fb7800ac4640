import StochasticGrammar.Expansion
import StochasticGrammar.Graph.Traversal

namespace StochasticGrammar

/-- An error: generation may fail or not end. -/
inductive Problem where
  | deadSelect (node : NodeId)
  | unboundedRecursion (cycle : List NodeId)
deriving DecidableEq

/-- A warning: a part of a rule has no effect. Options are counted from one. -/
inductive Caution where
  | neverChosen (node : NodeId) (option : Nat)
  | producesNothing (node : NodeId) (count : Binary64)
deriving DecidableEq

structure Report where
  problems : List Problem
  cautions : List Caution
deriving DecidableEq

/-- Why there is no report: a count has no whole part, or there are errors and none is allowed. -/
inductive ValidationFault where
  | notFinite (value : NotFinite)
  | invalid (errors : List String)
deriving DecidableEq

namespace ValidationFault

def message : ValidationFault → String
  | notFinite value => value.message
  | invalid errors =>
    "Grammar has " ++ Nat.repr errors.length ++ " error(s)" ++
      (errors.head?.elim "" fun first => ": " ++ first)

end ValidationFault

namespace Report

def IsValid (report : Report) : Prop := report.problems = []

instance (report : Report) : Decidable report.IsValid :=
  decidable_of_iff (report.problems.isEmpty = true) List.isEmpty_iff

def cycles (report : Report) : List (List NodeId) :=
  report.problems.filterMap fun
    | .unboundedRecursion cycle => some cycle
    | .deadSelect _ => none

end Report

namespace Registry

variable {α : Type}

def problemsAt (registry : Registry α) (id : NodeId) : List Problem :=
  match registry.graph.node? id with
  | some (.composite (.select options)) =>
    if totalWeight options ≤ 0 then [.deadSelect id] else []
  | _ => []

/-- The numbers of the options of weight zero. -/
def deadOptions {ρ : Type} (options : List (ρ × Binary64)) : List Nat :=
  (options.zipIdx 1).filterMap fun option =>
    if option.1.2.IsZero then some option.2 else none

/-- The warnings about a node; the count of a repetition is only looked at in the mode `fixed`. -/
def cautionsAt (registry : Registry α) (mode : RepetitionMode) (id : NodeId) :
    Except NotFinite (List Caution) :=
  match registry.graph.node? id, mode with
  | some (.composite (.select options)), _ =>
    .ok ((deadOptions options).map (.neverChosen id))
  | some (.composite (.repetition _ count)), .fixed => do
    let times ← (count + .half).floor
    return if times = 0 then [.producesNothing id count] else []
  | _, _ => .ok []

/-- Validates every node that can be reached; a count that is not finite stops the validation. -/
def validate (registry : Registry α) (mode : RepetitionMode) : Except NotFinite Report := do
  let nodes := registry.reachable
  let cautions ← nodes.mapM (registry.cautionsAt mode)
  return {
    problems := nodes.flatMap registry.problemsAt ++
      registry.unboundedCycles.map .unboundedRecursion
    cautions := cautions.flatten }

def cycleNames (registry : Registry α) (cycle : List NodeId) : List String :=
  cycle.map registry.label

def problemText (registry : Registry α) : Problem → String
  | .deadSelect id => "Rule '" ++ registry.label id ++ "' has no option with positive weight"
  | .unboundedRecursion cycle =>
    "Unbounded recursion (no fallback primary on the cycle): " ++
      String.intercalate " -> " (registry.cycleNames cycle)

def cautionText (registry : Registry α) : Caution → String
  | .neverChosen id option =>
    "Rule '" ++ registry.label id ++ "' option " ++ Nat.repr option ++
      " has weight 0 and is never chosen"
  | .producesNothing id count =>
    "Rule '" ++ registry.label id ++ "' repeats " ++ count.text ++
      " times, which produces nothing"

def errorTexts (registry : Registry α) (report : Report) : List String :=
  report.problems.map registry.problemText

def warningTexts (registry : Registry α) (report : Report) : List String :=
  report.cautions.map registry.cautionText

end Registry

end StochasticGrammar
