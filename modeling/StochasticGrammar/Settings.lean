import StochasticGrammar.Expansion
import StochasticGrammar.Text.Number

namespace StochasticGrammar

/-- Settings for generation: the depth from which fallbacks take their alternates, the mode of
repetition, and the seed of the random source. -/
structure Settings where
  maxDepth : Nat := 16
  mode : RepetitionMode := .fixed
  seed : Option Int := none
  maxDepth_pos : 0 < maxDepth := by decide
  maxDepth_le : maxDepth ≤ 128 := by decide
deriving DecidableEq

inductive FieldValue where
  | null
  | flag (value : Bool)
  | whole (value : Int)
  | real (value : Binary64)
  | text (value : String)
  | compound
deriving DecidableEq

inductive FieldFault where
  | notInteger
  | unreadableInteger
  | oversizedInteger
  | fractionalInteger
  | notFinite
  | notPositive
  | aboveLimit
  | unknownMode
deriving DecidableEq

namespace FieldFault

def message : FieldFault → String
  | notInteger => "Input should be a valid integer"
  | unreadableInteger =>
    "Input should be a valid integer, unable to parse string as an integer"
  | oversizedInteger => "Unable to parse input string as an integer, exceeded maximum size"
  | fractionalInteger =>
    "Input should be a valid integer, got a number with a fractional part"
  | notFinite => "Input should be a finite number"
  | notPositive => "Input should be greater than 0"
  | aboveLimit => "Input should be less than or equal to 128"
  | unknownMode => "Input should be 'fixed' or 'expected'"

def code : FieldFault → String
  | notInteger => "int_type"
  | unreadableInteger => "int_parsing"
  | oversizedInteger => "int_parsing_size"
  | fractionalInteger => "int_from_float"
  | notFinite => "finite_number"
  | notPositive => "greater_than"
  | aboveLimit => "less_than_equal"
  | unknownMode => "enum"

end FieldFault

/-- The fields of the settings in the order in which they are checked. -/
inductive SettingsField where
  | maxDepth
  | repetitionMode
  | seed
deriving DecidableEq

namespace SettingsField

def name : SettingsField → String
  | maxDepth => "max_depth"
  | repetitionMode => "repetition_mode"
  | seed => "seed"

/-- Where a fault of the field is found. -/
def path (field : SettingsField) : List String := [field.name]

/-- The variable of the environment that the field is read from. -/
def variableName : SettingsField → String
  | maxDepth => "STOCHGRAM_MAX_DEPTH"
  | repetitionMode => "STOCHGRAM_REPETITION_MODE"
  | seed => "STOCHGRAM_SEED"

end SettingsField

abbrev SettingsFaults := List (SettingsField × FieldFault)

namespace FieldValue

/-- Whether a number is below `2 ^ 63` in absolute value. -/
def fitsWord (number : Int) : Bool := number.natAbs < 0x8000000000000000

/-- The integer that a value stands for: an integer of any size, a truth value as zero or one, a
whole double below `2 ^ 63` in absolute value, or a text that denotes one. -/
def integer : FieldValue → Except FieldFault Int
  | null => .error .notInteger
  | flag value => .ok (if value then 1 else 0)
  | whole value => .ok value
  | real value =>
    match value.floor with
    | .ok below =>
      if !decide (value ≤ .ofInt below) then .error .fractionalInteger
      else if fitsWord below then .ok below
      else .error .oversizedInteger
    | .error _ => .error .notFinite
  | text value =>
    match readInteger value with
    | .ok number => .ok number
    | .error .unreadable => .error .unreadableInteger
    | .error .tooLong => .error .oversizedInteger
  | compound => .error .notInteger

/-- A depth from 1 to 128. -/
def depth (value : FieldValue) : Except FieldFault { depth : Nat // 0 < depth ∧ depth ≤ 128 } :=
  match value.integer with
  | .error fault => .error fault
  | .ok number =>
    if hpos : number ≤ 0 then .error .notPositive
    else if hle : 128 < number then .error .aboveLimit
    else .ok ⟨number.toNat, by omega⟩

def mode : FieldValue → Except FieldFault RepetitionMode
  | text value => (RepetitionMode.ofName? value).elim (.error .unknownMode) .ok
  | _ => .error .unknownMode

def seed : FieldValue → Except FieldFault (Option Int)
  | null => .ok none
  | value => value.integer.map some

end FieldValue

/-- The values given for settings; a field that is not given has its default. -/
structure SettingsInput where
  maxDepth : Option FieldValue := none
  mode : Option FieldValue := none
  seed : Option FieldValue := none
deriving DecidableEq

def faultOf {β : Type} (field : SettingsField) : Except FieldFault β → SettingsFaults
  | .ok _ => []
  | .error fault => [(field, fault)]

namespace Settings

/-- The value of a field, or the default if it is not given. -/
def field {β : Type} (given : Option FieldValue) (read : FieldValue → Except FieldFault β)
    (default : β) : Except FieldFault β :=
  given.elim (.ok default) read

/-- The settings that values stand for, or all that is against the values. -/
def ofInput (input : SettingsInput) : Except SettingsFaults Settings :=
  let maxDepth := field input.maxDepth FieldValue.depth ⟨16, by decide⟩
  let mode := field input.mode FieldValue.mode .fixed
  let seed := field input.seed FieldValue.seed none
  match maxDepth, mode, seed with
  | .ok depth, .ok mode, .ok seed => .ok ⟨depth.1, mode, seed, depth.2.1, depth.2.2⟩
  | _, _, _ => .error (faultOf .maxDepth maxDepth ++ faultOf .repetitionMode mode ++
      faultOf .seed seed)

/-- The settings that variables of the environment stand for; an empty variable counts as not set.
The mode may be written in capitals; lowering ASCII letters is enough, as no other character alone
has a letter of the two names as its lower case. -/
def ofEnvironment (environment : String → Option String) : Except SettingsFaults Settings :=
  let given := fun (field : SettingsField) =>
    (environment field.variableName).filter fun text => !text.isEmpty
  ofInput {
    maxDepth := (given .maxDepth).map .text
    mode := (given .repetitionMode).map fun text => .text text.toLower
    seed := (given .seed).map .text }

def expansionMode (settings : Settings) : ExpansionMode := ⟨settings.maxDepth, settings.mode⟩

end Settings

end StochasticGrammar
