import StochasticGrammar.Rule.Basic
import StochasticGrammar.Text.Number

namespace StochasticGrammar

def splitFirst? (delimiter : List Char) : List Char → Option (List Char × List Char)
  | [] => if delimiter.isEmpty then some ([], []) else none
  | c :: rest =>
    if delimiter.isPrefixOf (c :: rest) then some ([], (c :: rest).drop delimiter.length)
    else (splitFirst? delimiter rest).map fun parts => (c :: parts.1, parts.2)

def occursIn (delimiter text : List Char) : Bool := (splitFirst? delimiter text).isSome

/-- The operands of the rest of a text, given the operand that is being read, last character first.
Between operands every character of the delimiter is skipped, in whatever order; an operand ends
where the whole delimiter stands. -/
def operandsFrom (delimiter : List Char) : Option (List Char) → List Char → List (List Char)
  | none, [] => []
  | some current, [] => [current.reverse]
  | none, c :: rest =>
    if c ∈ delimiter then operandsFrom delimiter none rest
    else operandsFrom delimiter (some [c]) rest
  | some current, c :: rest =>
    if delimiter.isPrefixOf (c :: rest) then
      current.reverse :: operandsFrom delimiter none rest
    else operandsFrom delimiter (some (c :: current)) rest

def operands (delimiter text : List Char) : List (List Char) := operandsFrom delimiter none text

def splitOperands (delimiter text : String) : List String :=
  (operands delimiter.toList text.toList).map String.ofList

inductive RuleError where
  | malformedNumber (token role : String)
  | unresolved (reference rule : String)
deriving DecidableEq

namespace RuleError

def message : RuleError → String
  | malformedNumber token role => "Malformed " ++ role ++ " literal: '" ++ token ++ "'"
  | unresolved reference rule =>
    "Unresolved reference '" ++ reference ++ "' in rule '" ++ rule ++ "'"

end RuleError

namespace Rule

def fallbackDelimiter : List Char := [' ', '-', '>', ' ']

def sequenceDelimiter : List Char := [' ', '&', ' ']

def selectDelimiter : List Char := [' ', '|', ' ']

def repetitionDelimiter : List Char := [' ', '#', ' ']

/-- The double nearest to a numeral, if it is finite and not below zero. -/
def readNumber (role token : String) : Except RuleError Binary64 :=
  match numeral? token.toList with
  | none => .error (.malformedNumber token role)
  | some decimal =>
    if decimal.nearest.IsFinite ∧ ¬decimal.nearest < 0 then .ok decimal.nearest
    else .error (.malformedNumber token role)

/-- An option of a selection: a weight, a space and a name, which may hold spaces. -/
def readOption (option : List Char) : Except RuleError (String × Binary64) := do
  let (token, name) := (splitFirst? [' '] option).getD (option, [])
  let weight ← readNumber "weight" (String.ofList token)
  if name.isEmpty then throw (.unresolved "" (String.ofList option))
  else return (String.ofList name, weight)

def readSelect (text : List Char) : Except RuleError Rule := do
  let options ← (operands selectDelimiter text).mapM readOption
  if options.isEmpty then throw (.unresolved "" (String.ofList text))
  else return .composite (.select options)

/-- The operators are looked for in the whole text from the weakest to the strongest, and the first
one found decides: an operand that holds a stronger operator stays one name. -/
def readChars (text : List Char) : Except RuleError Rule :=
  match splitFirst? fallbackDelimiter text with
  | some (primary, alternate) =>
    .ok (.composite (.fallback (String.ofList primary) (String.ofList alternate)))
  | none =>
    if occursIn sequenceDelimiter text then
      .ok (.composite (.sequence
        ((operands sequenceDelimiter text).map String.ofList)))
    else if occursIn selectDelimiter text then readSelect text
    else match splitFirst? repetitionDelimiter text with
    | some (body, token) => do
      let count ← readNumber "repeat count" (String.ofList token)
      return .composite (.repetition (String.ofList body) count)
    | none => .ok (.bare (String.ofList text))

/-- The rule that a text denotes. -/
def read (text : String) : Except RuleError Rule := readChars text.toList

end Rule

end StochasticGrammar
