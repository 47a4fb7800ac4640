import StochasticGrammar.Definition

namespace StochasticGrammar

variable {α : Type}

/-- The entries of a table that is given, in order. -/
def TableInput.pairs {β : Type} : TableInput β → List (String × β)
  | .entries pairs => pairs
  | _ => []

/-- The names in a table that is given, in order. -/
def TableInput.names {β : Type} : TableInput β → List String
  | .entries pairs => pairs.map Prod.fst
  | _ => []

/-- The rule to start from that is given, if any. -/
def StartInput.rule? : StartInput → Option String
  | .name start => some start
  | _ => none

/-- Whether a fault lies in what is given for a definition. -/
def DefinitionFault.Holds (terminals : TableInput α) (rules : TableInput (Option String))
    (start : StartInput) : DefinitionFault → Prop
  | notTable .terminals => terminals = .notTable
  | notTable .rules => rules = .notTable
  | ruleNotText rule => (rule, none) ∈ rules.pairs
  | emptyName .terminals => "" ∈ terminals.names
  | emptyName .rules => "" ∈ rules.names ∧ ∀ rule, (rule, none) ∉ rules.pairs
  | startNotText => start = .notText
  | undeclaredStart name => start = .name name ∧ name ∉ rules.names ∧ name ∉ terminals.names

namespace Definition

section Table

variable {β γ : Type} {field : DefinitionField} {read : String × β → Except DefinitionFault γ}

theorem not_refused_of_read {given : List (String × β)}
    (h : ∀ entry ∈ given, ∃ value, read entry = .ok value) (fault : DefinitionFault) :
    ¬∃ entry ∈ given, read entry = .error fault := by
  rintro ⟨entry, hentry, hrefused⟩
  obtain ⟨value, hvalue⟩ := h entry hentry
  rw [hrefused] at hvalue
  cases hvalue

theorem map_fst_filterMap {given : List (String × β)}
    (h : ∀ entry ∈ given, ∃ value, read entry = .ok value) :
    (given.filterMap fun entry =>
      match read entry with
      | .ok value => some (entry.1, value)
      | .error _ => none).map Prod.fst = given.map Prod.fst := by
  induction given with
  | nil => rfl
  | cons entry rest ih =>
    obtain ⟨value, hvalue⟩ := h entry List.mem_cons_self
    have hrest := ih fun other hother => h other (List.mem_cons_of_mem entry hother)
    simp only [List.filterMap_cons, hvalue, List.map_cons, hrest]

/-- A table of entries is refused for the entries that are refused, or else for an empty name; one
that is accepted has all the names that are given for it. -/
theorem table_entries_cases (field : DefinitionField)
    (read : String × β → Except DefinitionFault γ) (given : List (String × β)) :
    (∃ faults, table field read (.entries given) = .error faults ∧ faults ≠ [] ∧
      ∀ fault, fault ∈ faults ↔ ∃ entry ∈ given, read entry = .error fault) ∨
    (∀ entry ∈ given, ∃ value, read entry = .ok value) ∧
      (("" ∈ given.map Prod.fst ∧
          table field read (.entries given) = .error [.emptyName field]) ∨
        ∃ accepted, table field read (.entries given) = .ok accepted ∧
          accepted.1.map Prod.fst = given.map Prod.fst) := by
  simp only [table]
  split
  next hfaults =>
    refine .inl ⟨_, rfl, ?_, fun fault => ?_⟩
    · intro hnone
      rw [hnone] at hfaults
      cases hfaults
    · rw [List.mem_filterMap]
      refine exists_congr fun entry => and_congr_right fun _ => ?_
      cases read entry <;> simp
  next hfaults =>
    have hread : ∀ entry ∈ given, ∃ value, read entry = .ok value := by
      intro entry hentry
      simp only [Bool.not_eq_true', Bool.not_eq_false, List.isEmpty_iff,
        List.filterMap_eq_nil_iff] at hfaults
      have hnone := hfaults entry hentry
      cases hread : read entry with
      | ok value => exact ⟨value, rfl⟩
      | error fault =>
        rw [hread] at hnone
        cases hnone
    have hnames := map_fst_filterMap hread
    refine .inr ⟨hread, ?_⟩
    split
    next hempty => exact .inl ⟨hnames ▸ hempty, rfl⟩
    next => exact .inr ⟨_, rfl, hnames⟩

/-- A table that is accepted has all the names that are given for it. -/
theorem map_fst_table {input : TableInput β}
    {accepted : { pairs : List (String × γ) // "" ∉ pairs.map Prod.fst }}
    (h : table field read input = .ok accepted) : accepted.1.map Prod.fst = input.names := by
  cases input with
  | absent => cases h; rfl
  | notTable => cases h
  | entries given =>
    rcases table_entries_cases field read given with
      ⟨_, hrefused, -⟩ | ⟨-, ⟨-, hrefused⟩ | ⟨found, hfound, hnames⟩⟩
    · rw [h] at hrefused
      cases hrefused
    · rw [h] at hrefused
      cases hrefused
    · rw [h] at hfound
      cases hfound
      exact hnames

theorem exists_table_eq_ok {input : TableInput β} (h : faultsOf (table field read input) = []) :
    ∃ accepted, table field read input = .ok accepted := by
  cases input with
  | absent => exact ⟨_, rfl⟩
  | notTable => cases h
  | entries given =>
    rcases table_entries_cases field read given with
      ⟨faults, hrefused, hsome, -⟩ | ⟨-, ⟨-, hrefused⟩ | ⟨accepted, haccepted, -⟩⟩
    · rw [hrefused] at h
      exact absurd h hsome
    · rw [hrefused] at h
      cases h
    · exact ⟨accepted, haccepted⟩

/-- The faults of a table: it is no table, the entries that are refused, or else an empty name. -/
theorem mem_faultsOf_table_iff {input : TableInput β} {fault : DefinitionFault} :
    fault ∈ faultsOf (table field read input) ↔
      (fault = .notTable field ∧ input = .notTable) ∨
      (∃ entry ∈ input.pairs, read entry = .error fault) ∨
      (fault = .emptyName field ∧ "" ∈ input.names ∧
        ∀ entry ∈ input.pairs, ∃ value, read entry = .ok value) := by
  cases input with
  | absent => simp [table, faultsOf, TableInput.pairs, TableInput.names]
  | notTable => simp [table, faultsOf, TableInput.pairs, TableInput.names]
  | entries given =>
    simp only [reduceCtorEq, and_false, false_or, TableInput.pairs, TableInput.names]
    rcases table_entries_cases field read given with
      ⟨faults, hrefused, hsome, hfaults⟩ | ⟨hread, hcases⟩
    · rw [hrefused]
      obtain ⟨first, hfirst⟩ := List.exists_mem_of_ne_nil faults hsome
      refine (hfaults fault).trans (or_iff_left ?_).symm
      rintro ⟨-, -, hread⟩
      exact not_refused_of_read hread first ((hfaults first).mp hfirst)
    · rw [or_iff_right (not_refused_of_read hread fault)]
      rcases hcases with ⟨hempty, hrefused⟩ | ⟨accepted, haccepted, hnames⟩
      · rw [hrefused, and_iff_left ⟨hempty, hread⟩]
        exact List.mem_singleton
      · rw [haccepted]
        refine iff_of_false List.not_mem_nil ?_
        rintro ⟨-, hempty, -⟩
        exact accepted.2 (hnames ▸ hempty)

end Table

variable {terminals : TableInput α} {rules : TableInput (Option String)} {start : StartInput}

/-- A definition that is accepted declares what is given. -/
theorem declares_of_ofInput {definition : Definition α}
    (h : ofInput terminals rules start = .ok definition) :
    definition.terminals.map Prod.fst = terminals.names ∧
      definition.rules.map Prod.fst = rules.names ∧ definition.start = start.rule? := by
  have hstart : ∀ {rule}, startName start = .ok rule → rule = start.rule? := by
    intro rule hrule
    cases start <;> cases hrule <;> rfl
  unfold ofInput at h
  simp only at h
  split at h
  next hterminals hrules hname =>
    cases h
    exact ⟨map_fst_table hterminals, map_fst_table hrules, hstart hname⟩
  next hterminals hrules hname =>
    split at h
    next =>
      cases h
      exact ⟨map_fst_table hterminals, map_fst_table hrules, hstart hname⟩
    next => cases h
  next => cases h

theorem ruleText_eq_error_iff {entry : String × Option String} {fault : DefinitionFault} :
    ruleText entry = .error fault ↔ fault = .ruleNotText entry.1 ∧ entry.2 = none := by
  obtain ⟨rule, text⟩ := entry
  cases text with
  | none => simp [ruleText, eq_comm]
  | some text => simp [ruleText]

theorem mem_faultsOf_startName_iff {fault : DefinitionFault} :
    fault ∈ faultsOf (startName start) ↔ fault = .startNotText ∧ start = .notText := by
  cases start with
  | absent => simp [startName, faultsOf]
  | notText => simp [startName, faultsOf]
  | name rule => simp [startName, faultsOf]

/-- What is against the fields of a definition, one after the other. -/
def fieldFaults (terminals : TableInput α) (rules : TableInput (Option String))
    (start : StartInput) : List DefinitionFault :=
  faultsOf (table .terminals (fun entry => .ok entry.2) terminals) ++
    faultsOf (table .rules ruleText rules) ++ faultsOf (startName start)

/-- The faults of the fields are those that hold and have a place. -/
theorem mem_fieldFaults_iff {fault : DefinitionFault} :
    fault ∈ fieldFaults terminals rules start ↔
      fault.path ≠ [] ∧ fault.Holds terminals rules start := by
  have hrules : (∀ entry ∈ rules.pairs, ∃ text, ruleText entry = .ok text) ↔
      ∀ rule, (rule, none) ∉ rules.pairs := by
    constructor
    · intro hread rule hmem
      obtain ⟨text, htext⟩ := hread _ hmem
      cases htext
    · rintro htexts ⟨rule, text⟩ hentry
      cases text with
      | none => exact absurd hentry (htexts rule)
      | some text => exact ⟨text, rfl⟩
  simp only [fieldFaults, List.mem_append, mem_faultsOf_table_iff, mem_faultsOf_startName_iff,
    ruleText_eq_error_iff, hrules]
  cases fault with
  | notTable field => cases field <;> simp [DefinitionFault.path, DefinitionFault.Holds]
  | ruleNotText rule => simp [DefinitionFault.path, DefinitionFault.Holds]
  | emptyName field => cases field <;> simp [DefinitionFault.path, DefinitionFault.Holds]
  | startNotText => simp [DefinitionFault.path, DefinitionFault.Holds]
  | undeclaredStart name => simp [DefinitionFault.path]

theorem path_eq_nil_of_holds (h : fieldFaults terminals rules start = [])
    {fault : DefinitionFault} (hholds : fault.Holds terminals rules start) : fault.path = [] := by
  refine Classical.byContradiction fun hplace => ?_
  have hmem := mem_fieldFaults_iff.mpr ⟨hplace, hholds⟩
  rw [h] at hmem
  cases hmem

theorem fieldFaults_of_ofInput {definition : Definition α}
    (h : ofInput terminals rules start = .ok definition) :
    fieldFaults terminals rules start = [] := by
  unfold ofInput at h
  simp only at h
  split at h
  next hterminals hrules hname => simp [fieldFaults, hterminals, hrules, hname, faultsOf]
  next hterminals hrules hname => simp [fieldFaults, hterminals, hrules, hname, faultsOf]
  next => cases h

/-- A definition is refused for its fields, or else for a start rule that is not declared. -/
theorem ofInput_eq_error_cases {faults : List DefinitionFault}
    (h : ofInput terminals rules start = .error faults) :
    (faults = fieldFaults terminals rules start ∧ faults ≠ []) ∨
      (fieldFaults terminals rules start = [] ∧ ∃ name, faults = [.undeclaredStart name] ∧
        (DefinitionFault.undeclaredStart name).Holds terminals rules start) := by
  unfold ofInput at h
  simp only at h
  split at h
  next => cases h
  next found texts name hterminals hrules hname =>
    split at h
    next => cases h
    next hundeclared =>
      cases h
      refine .inr ⟨?_, name, rfl, ?_⟩
      · simp [fieldFaults, hterminals, hrules, hname, faultsOf]
      · rw [map_fst_table hrules, map_fst_table hterminals, not_or] at hundeclared
        refine ⟨?_, hundeclared⟩
        cases start <;> cases hname
        rfl
  next hnone hnamed =>
    cases h
    refine .inl ⟨rfl, fun hempty => ?_⟩
    simp only [List.append_eq_nil_iff] at hempty
    obtain ⟨⟨hterminals, hrules⟩, hstart⟩ := hempty
    obtain ⟨found, hfound⟩ := exists_table_eq_ok hterminals
    obtain ⟨texts, htexts⟩ := exists_table_eq_ok hrules
    cases start with
    | absent => exact hnone found texts hfound htexts rfl
    | notText => cases hstart
    | name rule => exact hnamed found texts rule hfound htexts rfl

/-- A definition is refused for all that is against its fields. That its start rule is not declared
is only held against it when nothing else is. -/
theorem ofInput_eq_error {faults : List DefinitionFault}
    (h : ofInput terminals rules start = .error faults) :
    faults ≠ [] ∧ ∀ fault, fault ∈ faults ↔ fault.Holds terminals rules start ∧
      (fault.path = [] → ∀ other : DefinitionFault, other.Holds terminals rules start →
        other.path = []) := by
  rcases ofInput_eq_error_cases h with ⟨rfl, hsome⟩ | ⟨hfields, name, rfl, hundeclared⟩
  · obtain ⟨first, hfirst⟩ := List.exists_mem_of_ne_nil _ hsome
    obtain ⟨hplace, hholds⟩ := mem_fieldFaults_iff.mp hfirst
    refine ⟨hsome, fun fault => ?_⟩
    rw [mem_fieldFaults_iff, and_comm]
    refine and_congr_right fun _ => ⟨fun hother hnone => absurd hnone hother, ?_⟩
    exact fun halone hnone => hplace (halone hnone first hholds)
  · refine ⟨nofun, fun fault => ?_⟩
    rw [List.mem_singleton]
    constructor
    · rintro rfl
      exact ⟨hundeclared, fun _ other => path_eq_nil_of_holds hfields⟩
    · rintro ⟨hholds, -⟩
      have hnone := path_eq_nil_of_holds hfields hholds
      cases fault with
      | undeclaredStart other =>
        have hsame := hundeclared.1.symm.trans hholds.1
        cases hsame
        rfl
      | _ => cases hnone

theorem exists_ofInput_iff :
    (∃ definition, ofInput terminals rules start = .ok definition) ↔
      ∀ fault : DefinitionFault, ¬fault.Holds terminals rules start := by
  constructor
  · rintro ⟨definition, h⟩ fault hholds
    have hnone := path_eq_nil_of_holds (fieldFaults_of_ofInput h) hholds
    obtain ⟨hterminals, hrules, hstart⟩ := declares_of_ofInput h
    cases fault with
    | undeclaredStart name =>
      obtain ⟨rfl, hnorule, hnoterminal⟩ := hholds
      have hdeclared := definition.start_mem name hstart
      rw [hterminals, hrules] at hdeclared
      exact hdeclared.elim hnorule hnoterminal
    | _ => cases hnone
  · intro hnone
    cases hinput : ofInput terminals rules start with
    | ok definition => exact ⟨definition, rfl⟩
    | error faults =>
      obtain ⟨hsome, hfaults⟩ := ofInput_eq_error hinput
      obtain ⟨first, hfirst⟩ := List.exists_mem_of_ne_nil faults hsome
      exact absurd ((hfaults first).mp hfirst).1 (hnone first)

end Definition

end StochasticGrammar
