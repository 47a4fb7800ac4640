namespace StochasticGrammar

inductive DefinitionField where
  | terminals
  | rules
deriving DecidableEq

namespace DefinitionField

def name : DefinitionField → String
  | terminals => "terminals"
  | rules => "rules"

end DefinitionField

inductive DefinitionFault where
  | notTable (field : DefinitionField)
  | ruleNotText (rule : String)
  | emptyName (field : DefinitionField)
  | startNotText
  | undeclaredStart (start : String)
deriving DecidableEq

namespace DefinitionFault

def message : DefinitionFault → String
  | notTable _ => "Input should be a valid dictionary"
  | ruleNotText _ => "Input should be a valid string"
  | emptyName _ => "Value error, rule names must not be empty"
  | startNotText => "Input should be a valid string"
  | undeclaredStart start => "Value error, start rule '" ++ start ++ "' is not declared"

def code : DefinitionFault → String
  | notTable _ => "dict_type"
  | ruleNotText _ => "string_type"
  | emptyName _ => "value_error"
  | startNotText => "string_type"
  | undeclaredStart _ => "value_error"

/-- Where a fault is found; one of the definition as a whole has no place. -/
def path : DefinitionFault → List String
  | notTable field => [field.name]
  | ruleNotText rule => [DefinitionField.rules.name, rule]
  | emptyName field => [field.name]
  | startNotText => ["start"]
  | undeclaredStart _ => []

end DefinitionFault

/-- What is given for a table: nothing, a value of another type, or entries in order. -/
inductive TableInput (β : Type) where
  | absent
  | notTable
  | entries (pairs : List (String × β))
deriving DecidableEq

/-- What is given for the rule to start from: nothing, a value of another type, or a name. -/
inductive StartInput where
  | absent
  | notText
  | name (start : String)
deriving DecidableEq

/-- Terminal values and rule texts in the order in which they are to be registered, with a declared
rule to start from, if any. -/
structure Definition (α : Type) where
  terminals : List (String × α)
  rules : List (String × String)
  start : Option String
  names_ne_empty : "" ∉ terminals.map Prod.fst ++ rules.map Prod.fst
  start_mem : ∀ name ∈ start, name ∈ rules.map Prod.fst ∨ name ∈ terminals.map Prod.fst

namespace Definition

/-- The entries of a table with no empty name, where `read` gives the value of an entry. -/
def table {β γ : Type} (field : DefinitionField) (read : String × β → Except DefinitionFault γ) :
    TableInput β →
      Except (List DefinitionFault) { pairs : List (String × γ) // "" ∉ pairs.map Prod.fst }
  | .absent => .ok ⟨[], by simp⟩
  | .notTable => .error [.notTable field]
  | .entries given =>
    let faults := given.filterMap fun entry =>
      match read entry with
      | .ok _ => none
      | .error fault => some fault
    let pairs := given.filterMap fun entry =>
      match read entry with
      | .ok value => some (entry.1, value)
      | .error _ => none
    if !faults.isEmpty then .error faults
    else if h : "" ∈ pairs.map Prod.fst then .error [.emptyName field]
    else .ok ⟨pairs, h⟩

def faultsOf {β : Type} : Except (List DefinitionFault) β → List DefinitionFault
  | .ok _ => []
  | .error faults => faults

def ruleText (entry : String × Option String) : Except DefinitionFault String :=
  entry.2.elim (.error (.ruleNotText entry.1)) .ok

def startName : StartInput → Except (List DefinitionFault) (Option String)
  | .absent => .ok none
  | .notText => .error [.startNotText]
  | .name start => .ok (some start)

/-- The definition that tables and a start rule make, or all that is against them. Whether the start
rule is declared is only looked at when nothing else is wrong. -/
def ofInput {α : Type} (terminals : TableInput α) (rules : TableInput (Option String))
    (start : StartInput) : Except (List DefinitionFault) (Definition α) :=
  let terminals := table .terminals (fun entry => .ok entry.2) terminals
  let rules := table .rules ruleText rules
  let start := startName start
  match terminals, rules, start with
  | .ok terminals, .ok rules, .ok none =>
    .ok ⟨terminals.1, rules.1, none, by simp [terminals.2, rules.2], by simp⟩
  | .ok terminals, .ok rules, .ok (some start) =>
    if h : start ∈ rules.1.map Prod.fst ∨ start ∈ terminals.1.map Prod.fst then
      .ok ⟨terminals.1, rules.1, some start, by simp [terminals.2, rules.2], by simpa using h⟩
    else .error [.undeclaredStart start]
  | _, _, _ => .error (faultsOf terminals ++ faultsOf rules ++ faultsOf start)

end Definition

end StochasticGrammar
