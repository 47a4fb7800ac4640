import StochasticGrammar.Proofs.UnsharedNames

namespace StochasticGrammar

variable {α : Type}

namespace Step

def ofTerminal (entry : String × α) : Step α := .terminal entry.1 entry.2

def ofRule (rule : String × String) : Step α := .compile rule.1 rule.2

end Step

/-- The steps that make the grammar of a table. -/
def tableSteps (terminals : List (String × α)) (rules : List (String × String)) : List (Step α) :=
  terminals.map .ofTerminal ++ rules.map .ofRule

namespace Table

theorem latest_record (table : Table α) (step : Step α) (name : String) :
    (step.record table).latest name =
      if name = step.name ∧ ¬step.KeepsMeaning then step.source else table.latest name := by
  unfold Step.record
  by_cases hkeeps : step.KeepsMeaning
  · simp [hkeeps]
  · simp [hkeeps, latest_cons]

theorem latest_foldl_record_of_keeps {steps : List (Step α)} {name : String}
    (h : ∀ step ∈ steps, name = step.name → step.KeepsMeaning) (table : Table α) :
    Table.latest (steps.foldl Step.record table) name = table.latest name := by
  induction steps generalizing table with
  | nil => rfl
  | cons first rest ih =>
    have hrest := ih fun step hstep => h step (List.mem_cons_of_mem first hstep)
    have hfirst := h first List.mem_cons_self
    rw [List.foldl_cons, hrest, latest_record, if_neg]
    exact fun hnew => hnew.2 (hfirst hnew.1)

/-- Of steps for different names, each that gives a new meaning has the last word on its name. -/
theorem latest_foldl_record_of_mem {steps : List (Step α)} (hnodup : (steps.map Step.name).Nodup)
    {step : Step α} (hmem : step ∈ steps) (hnew : ¬step.KeepsMeaning) (table : Table α) :
    Table.latest (steps.foldl Step.record table) step.name = step.source := by
  induction steps generalizing table with
  | nil => cases hmem
  | cons first rest ih =>
    obtain ⟨hfirst, hrest⟩ := List.nodup_cons.mp hnodup
    rw [List.foldl_cons]
    rcases List.mem_cons.mp hmem with rfl | hlater
    · rw [latest_foldl_record_of_keeps, latest_record, if_pos ⟨rfl, hnew⟩]
      intro other hother hname
      exact absurd (List.mem_map.mpr ⟨other, hother, hname.symm⟩) hfirst
    · exact ih hrest hlater _

/-- The order of definitions of different names does not matter to what the names stand for. -/
theorem latest_foldl_record_perm {first second : List (Step α)} (hperm : first.Perm second)
    (hnodup : (first.map Step.name).Nodup) (table : Table α) (name : String) :
    Table.latest (first.foldl Step.record table) name =
      Table.latest (second.foldl Step.record table) name := by
  by_cases hdefined : ∃ step ∈ first, name = step.name ∧ ¬step.KeepsMeaning
  · obtain ⟨step, hmem, rfl, hnew⟩ := hdefined
    have hnodup' : (second.map Step.name).Nodup := (hperm.map Step.name).nodup_iff.mp hnodup
    rw [latest_foldl_record_of_mem hnodup hmem hnew,
      latest_foldl_record_of_mem hnodup' (hperm.mem_iff.mp hmem) hnew]
  · have hkeeps : ∀ step ∈ first, name = step.name → step.KeepsMeaning := by
      intro step hmem hname
      by_contra hnew
      exact hdefined ⟨step, hmem, hname, hnew⟩
    rw [latest_foldl_record_of_keeps hkeeps,
      latest_foldl_record_of_keeps fun step hmem => hkeeps step (hperm.mem_iff.mpr hmem)]

end Table

namespace Session

/-- Every step succeeds when its turn comes. -/
def AcceptsAll (session : Session α) : List (Step α) → Prop
  | [] => True
  | step :: rest => session.accepts step = true ∧ (session.perform step).AcceptsAll rest

theorem acceptsAll_append {session : Session α} {steps later : List (Step α)}
    (h : session.AcceptsAll steps) (hlater : (steps.foldl perform session).AcceptsAll later) :
    session.AcceptsAll (steps ++ later) := by
  induction steps generalizing session with
  | nil => exact hlater
  | cons step rest ih => exact ⟨h.1, ih h.2 hlater⟩

theorem AcceptsAll.table_eq {session : Session α} {steps : List (Step α)}
    (h : session.AcceptsAll steps) :
    (steps.foldl perform session).table = steps.foldl Step.record session.table := by
  induction steps generalizing session with
  | nil => rfl
  | cons step rest ih =>
    have htable : (session.perform step).table = step.record session.table := if_pos h.1
    rw [List.foldl_cons, List.foldl_cons, ih h.2, htable]

theorem contains_perform {session : Session α} {step : Step α} {name : String}
    (h : session.registry.contains name = true ∨
      (session.accepts step = true ∧ name = step.name)) :
    (session.perform step).registry.contains name = true := by
  have hfind : ∀ registry : Registry α, registry.contains name = true ↔
      ∃ id, registry.find? name = some id := fun registry => Option.isSome_iff_exists
  rw [hfind] at h ⊢
  by_cases haccepts : session.accepts step = true
  · obtain ⟨_, grown, base, id, hgrows, hbase, hlater⟩ :=
      (defines_of_accepts haccepts).exists_install
    rw [hlater, Registry.find?_install]
    by_cases hname : name = step.name
    · exact ⟨id, if_pos hname⟩
    · obtain ⟨old, hold⟩ := h.resolve_right fun hnew => hname hnew.2
      refine ⟨old, ?_⟩
      rw [if_neg hname, hbase, hgrows.find?_eq_some hold]
  · obtain ⟨old, hold⟩ := h.resolve_right fun hnew => haccepts hnew.1
    obtain ⟨⟨_, hgrows⟩, _⟩ := grows_of_not_accepts haccepts
    exact ⟨old, hgrows.find?_eq_some hold⟩

/-- Steps that succeed register their names. -/
theorem AcceptsAll.contains {session : Session α} {steps : List (Step α)}
    (h : session.AcceptsAll steps) {name : String}
    (hname : session.registry.contains name = true ∨ name ∈ steps.map Step.name) :
    (steps.foldl perform session).registry.contains name = true := by
  induction steps generalizing session with
  | nil => exact hname.resolve_right List.not_mem_nil
  | cons step rest ih =>
    refine ih h.2 ?_
    rcases hname with hbefore | hmem
    · exact .inl (contains_perform (.inl hbefore))
    · rcases List.mem_cons.mp hmem with hfirst | hlater
      · exact .inl (contains_perform (.inr ⟨h.1, hfirst⟩))
      · exact .inr hlater

theorem acceptsAll_ofTerminal (session : Session α) (terminals : List (String × α)) :
    session.AcceptsAll (terminals.map .ofTerminal) := by
  induction terminals generalizing session with
  | nil => trivial
  | cons entry rest ih => exact ⟨rfl, ih _⟩

theorem grammar_foldl_ofTerminal (session : Session α) (terminals : List (String × α)) :
    ((terminals.map .ofTerminal).foldl perform session).grammar =
      terminals.foldl (fun grammar entry => grammar.registerTerminal entry.1 entry.2)
        session.grammar := by
  induction terminals generalizing session with
  | nil => rfl
  | cons entry rest ih => exact ih (session.perform (.ofTerminal entry))

theorem acceptsAll_of_compileAll {session : Session α} {rules : List (String × String)}
    {grammar : Grammar α} (h : session.grammar.compileAll rules = .ok grammar) :
    session.AcceptsAll (rules.map .ofRule) ∧
      ((rules.map .ofRule).foldl perform session).grammar = grammar := by
  induction rules generalizing session with
  | nil =>
    cases h
    exact ⟨trivial, rfl⟩
  | cons rule rest ih =>
    obtain ⟨name, text⟩ := rule
    unfold Grammar.compileAll at h
    split at h
    next compilation between hcompile =>
      have haccepts : session.accepts (.ofRule (name, text)) = true := by
        simp [accepts, Step.ofRule, Step.run, hcompile, Except.isOk, Except.toBool]
      have hbetween : (session.perform (.ofRule (name, text))).grammar = between := by
        simp [perform, Step.ofRule, Step.run, hcompile]
      rw [← hbetween] at h
      obtain ⟨hrest, hlast⟩ := ih h
      exact ⟨⟨haccepts, hrest⟩, hlast⟩
    next => cases h

end Session

/-- The grammar of a table is that of the session of its steps, and all of them succeed. -/
theorem Grammar.ofTables_eq_ok {value : String → α} {terminals : List (String × α)}
    {rules : List (String × String)} {policy : Option (LiteralPolicy α)} {settings : Settings}
    {entropy : Twister} {grammar : Grammar α}
    (h : ofTables value terminals rules policy settings entropy = .ok grammar) :
    let given := tablePolicy value terminals policy
    (Session.start given settings entropy).AcceptsAll (tableSteps terminals rules) ∧
      (Session.after given settings entropy (tableSteps terminals rules)).grammar = grammar := by
  intro given
  have hterminals :=
    Session.grammar_foldl_ofTerminal (Session.start given settings entropy) terminals
  unfold ofTables at h
  simp only at h
  have hcompiled : ((terminals.map .ofTerminal).foldl Session.perform
      (Session.start given settings entropy)).grammar.compileAll rules = .ok grammar := by
    rw [hterminals]
    exact h
  obtain ⟨hrules, hgrammar⟩ := Session.acceptsAll_of_compileAll hcompiled
  refine ⟨Session.acceptsAll_append (Session.acceptsAll_ofTerminal _ terminals) hrules, ?_⟩
  unfold Session.after tableSteps
  rw [List.foldl_append]
  exact hgrammar

theorem Grammar.contains_of_ofTables {value : String → α} {terminals : List (String × α)}
    {rules : List (String × String)} {policy : Option (LiteralPolicy α)} {settings : Settings}
    {entropy : Twister} {grammar : Grammar α}
    (h : ofTables value terminals rules policy settings entropy = .ok grammar)
    {name : String} (hname : name ∈ terminals.map Prod.fst ++ rules.map Prod.fst) :
    grammar.registry.contains name = true := by
  obtain ⟨haccepts, hgrammar⟩ := ofTables_eq_ok h
  have hsteps : name ∈ (tableSteps terminals rules).map Step.name := by
    unfold tableSteps
    rw [List.map_append, List.map_map, List.map_map]
    exact hname
  have hcontains := haccepts.contains (.inr hsteps)
  unfold Session.registry at hcontains
  exact hgrammar ▸ hcontains

end StochasticGrammar
