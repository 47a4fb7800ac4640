import StochasticGrammar.Graph.Basic
import StochasticGrammar.Random
import StochasticGrammar.Text.Quoted

namespace StochasticGrammar

universe u

inductive ExpansionFault where
  | deadSelect
  | tooDeep
  | notFinite (value : NotFinite)
deriving DecidableEq

/-- How a count that is not whole becomes a number of repeats: rounded, or rounded up with the
probability of its fraction. -/
inductive RepetitionMode where
  | fixed
  | expected
deriving DecidableEq

namespace RepetitionMode

def name : RepetitionMode → String
  | fixed => "fixed"
  | expected => "expected"

def refusal (text : String) : String := quoted text ++ " is not a valid RepetitionMode"

def ofName? (text : String) : Option RepetitionMode :=
  if text = "fixed" then some fixed else if text = "expected" then some expected else none

end RepetitionMode

/-- What an expansion depends on besides the graph, the node and the random source: the depth from
which fallbacks take their alternates, and the mode of repetition. -/
structure ExpansionMode where
  bound : Int
  repetition : RepetitionMode
deriving DecidableEq

/-- A computation that uses a random source and may fail; the source goes on from where a failure
left it. -/
abbrev Sampling (σ : Type) := EStateM ExpansionFault σ

def drawOne {σ : Type} [RandomSource σ] : Sampling σ Binary64 := fun source =>
  let (value, source) := RandomSource.draw source
  .ok value source

/-- A fallback at this depth takes its alternate. -/
def shouldFallBack (depth bound : Int) : Bool := bound ≤ depth

def wholePart {σ : Type} (value : Binary64) : Sampling σ Int :=
  match value.floor with
  | .ok whole => return whole
  | .error reason => throw (.notFinite reason)

/-- In the mode `fixed` the floor of the count plus a half, a sum that is rounded like any other; in
the mode `expected` the whole part, and one more if a draw is below the fraction. No draw is made
for a whole number. -/
def repeatCount {σ : Type} [RandomSource σ] (mode : RepetitionMode) (count : Binary64) :
    Sampling σ Int :=
  match mode with
  | .fixed => wholePart (count + .half)
  | .expected => do
    let whole ← wholePart count
    let fraction := count - .ofInt whole
    if 0 < fraction then do
      let draw ← drawOne
      return if draw < fraction then whole + 1 else whole
    else return whole

variable {ρ : Type u}

/-- The total weight of options, added from the first to the last. -/
def totalWeight (options : List (ρ × Binary64)) : Binary64 := .sum (options.map Prod.snd)

/-- The first option at which the running total exceeds the draw. -/
def firstAbove? (draw : Binary64) : Binary64 → List (ρ × Binary64) → Option ρ
  | _, [] => none
  | running, (option, weight) :: rest =>
    if draw < running + weight then some option else firstAbove? draw (running + weight) rest

def lastPositive? (options : List (ρ × Binary64)) : Option ρ :=
  (options.reverse.find? (0 < ·.2)).map Prod.fst

/-- The option that a scaled draw falls on; where rounding leaves the draw at the end of the running
total, the last option that can be chosen. -/
def optionAt? (options : List (ρ × Binary64)) (draw : Binary64) : Option ρ :=
  (firstAbove? draw 0 options).orElse fun _ => lastPositive? options

def chooseOption {σ : Type} {ρ : Type} [RandomSource σ] (options : List (ρ × Binary64)) :
    Sampling σ ρ :=
  let total := totalWeight options
  if total ≤ 0 then throw .deadSelect
  else do
    let draw ← drawOne
    match optionAt? options (draw * total) with
    | some option => return option
    | none => throw .deadSelect

def repeated {σ α : Type} (step : Sampling σ (List α)) : Nat → Sampling σ (List α)
  | 0 => return []
  | count + 1 => do
    let first ← step
    let later ← repeated step count
    return first ++ later

def inOrder {σ α ρ : Type} (step : ρ → Sampling σ (List α)) : List ρ → Sampling σ (List α)
  | [] => return []
  | operand :: rest => do
    let first ← step operand
    let later ← inOrder step rest
    return first ++ later

/-- The terminal values of a composite at a depth, given those of its operands at every depth. -/
def Composite.expand {σ α ρ : Type} [RandomSource σ] (mode : ExpansionMode)
    (operand : Int → ρ → Sampling σ (List α)) (depth : Int) : Composite ρ → Sampling σ (List α)
  | sequence elements => inOrder (operand depth) elements
  | select options => do
    let option ← chooseOption options
    operand depth option
  | repetition body count => do
    let times ← repeatCount mode.repetition count
    repeated (operand depth body) times.toNat
  | fallback primary alternate =>
    if shouldFallBack depth mode.bound then operand depth alternate
    else operand (depth + 1) primary

namespace Graph

variable {σ α : Type} [RandomSource σ]

/-- The terminal values of a node at a depth, when at most `nesting` expansions may be inside each
other. -/
def emit (graph : Graph α) (mode : ExpansionMode) :
    Nat → Int → NodeId → Sampling σ (List α)
  | 0, _, _ => throw .tooDeep
  | nesting + 1, depth, id =>
    match graph.node? id with
    | none => return []
    | some (.leaf value) => return [value]
    | some (.composite shape) => shape.expand mode (graph.emit mode nesting) depth

def expand (graph : Graph α) (mode : ExpansionMode) (nesting : Nat) (id : NodeId) :
    Sampling σ (List α) :=
  graph.emit mode nesting 0 id

end Graph

end StochasticGrammar
