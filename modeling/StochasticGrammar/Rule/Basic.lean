import StochasticGrammar.Binary64.Arithmetic
import StochasticGrammar.Decimal

namespace StochasticGrammar

universe u v

inductive Composite (ρ : Type u) where
  | fallback (primary alternate : ρ)
  | sequence (elements : List ρ)
  | select (options : List (ρ × Binary64))
  | repetition (body : ρ) (count : Binary64)
deriving DecidableEq

/-- A rule as it is written: a bare name or a composite of names. -/
inductive Rule where
  | bare (name : String)
  | composite (shape : Composite String)
deriving DecidableEq

inductive RuleKind where
  | fallback
  | sequence
  | select
  | repetition
  | reference
deriving DecidableEq

namespace RuleKind

def name : RuleKind → String
  | fallback => "fallback"
  | sequence => "sequence"
  | select => "selector"
  | repetition => "repetition"
  | reference => "reference"

end RuleKind

inductive ShapeFault where
  | noOptions
  | negativeWeight (weight : Binary64)
  | negativeCount (count : Binary64)
deriving DecidableEq

namespace ShapeFault

def message : ShapeFault → String
  | noOptions => "A select node needs at least one option"
  | negativeWeight weight => "Option weight must be >= 0, got " ++ weight.text
  | negativeCount count => "Repeat count must be >= 0, got " ++ count.text

end ShapeFault

namespace Composite

variable {ρ : Type u}

def operands : Composite ρ → List ρ
  | fallback primary alternate => [primary, alternate]
  | sequence elements => elements
  | select options => options.map Prod.fst
  | repetition body _ => [body]

def weights : Composite ρ → List Binary64
  | select options => options.map Prod.snd
  | _ => []

def count? : Composite ρ → Option Binary64
  | repetition _ count => some count
  | _ => none

def map {τ : Type v} (f : ρ → τ) : Composite ρ → Composite τ
  | fallback primary alternate => fallback (f primary) (f alternate)
  | sequence elements => sequence (elements.map f)
  | select options => select (options.map fun option => (f option.1, option.2))
  | repetition body count => repetition (f body) count

/-- The same composite with operands found one after the other. -/
def mapM {m : Type v → Type v} {τ : Type v} [Monad m] (f : ρ → m τ) :
    Composite ρ → m (Composite τ)
  | fallback primary alternate => do
    let primary ← f primary
    let alternate ← f alternate
    return fallback primary alternate
  | sequence elements => do
    let elements ← elements.mapM f
    return sequence elements
  | select options => do
    let options ← options.mapM fun option => do
      let operand ← f option.1
      return (operand, option.2)
    return select options
  | repetition body count => do
    let body ← f body
    return repetition body count

def kind : Composite ρ → RuleKind
  | fallback .. => .fallback
  | sequence _ => .sequence
  | select _ => .select
  | repetition .. => .repetition

/-- The first reason against a composite: a selection has options and no weight below zero, and a
repetition no count below zero. -/
def fault? : Composite ρ → Option ShapeFault
  | select [] => some .noOptions
  | select options => ((options.map Prod.snd).find? (· < 0)).map .negativeWeight
  | repetition _ count => if count < 0 then some (.negativeCount count) else none
  | _ => none

def checked (shape : Composite ρ) : Except ShapeFault (Composite ρ) :=
  shape.fault?.elim (.ok shape) .error

end Composite

namespace Rule

def kind : Rule → RuleKind
  | bare _ => .reference
  | composite shape => shape.kind

/-- The names that a rule refers to, in order. -/
def references : Rule → List String
  | bare name => [name]
  | composite shape => shape.operands

def weights : Rule → List Binary64
  | bare _ => []
  | composite shape => shape.weights

def count? : Rule → Option Binary64
  | bare _ => none
  | composite shape => shape.count?

end Rule

end StochasticGrammar
