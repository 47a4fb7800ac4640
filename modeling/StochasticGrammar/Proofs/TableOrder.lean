import StochasticGrammar.Proofs.ExpansionAgreement
import StochasticGrammar.Proofs.RuleTables

namespace StochasticGrammar

variable {α : Type}

/-- No rule only names a rule that comes after it. -/
def AliasesFollow (rules : List (String × String)) : Prop :=
  rules.Pairwise fun rule later => Rule.read rule.2 ≠ .ok (.bare later.1)

instance (rules : List (String × String)) : Decidable (AliasesFollow rules) :=
  inferInstanceAs (Decidable (List.Pairwise _ rules))

/-- The nodes of a registry have the operands and the meanings that a table of definitions says. -/
structure Registry.Realizes (registry : Registry α) (literal : String → Option α)
    (table : Table α) : Prop where
  wired : Wired (fun _ reference => reference) table registry
  meant : ∃ rank, Meant rank literal table registry

variable {policy : LiteralPolicy α} {settings : Settings} {entropy : Twister}
variable {earlier : List (Step α)}

namespace Session

/-- Names share a node after a step only if they did before, or by the step's own bare rule. -/
theorem shares_of_perform {step : Step α} {name : String}
    (h : ((after policy settings entropy earlier).perform step).registry.Shares name) :
    (after policy settings entropy earlier).registry.Shares name ∨ ∃ text,
      step = .compile step.name text ∧ Rule.read text = .ok (.bare text) ∧
        (name = step.name ∨ name = text) := by
  have hwired := wired_after policy settings entropy earlier
  rcases (after policy settings entropy earlier).perform_cases step with
    ⟨_, _, hdefines⟩ | ⟨_, _, bound, hgrows⟩
  · exact hwired.shares_of_defines hdefines h
  · exact .inl (hwired.shares_of_grows hgrows h)

theorem not_shares_ofTerminal (policy : LiteralPolicy α) (settings : Settings) (entropy : Twister)
    (terminals : List (String × α)) (name : String) :
    ¬(after policy settings entropy (terminals.map .ofTerminal)).registry.Shares name := by
  induction terminals using List.reverseRecOn with
  | nil => exact Registry.not_shares_of_none rfl
  | append_singleton before entry ih =>
    rw [List.map_append, List.map_singleton, after_concat]
    intro hshares
    rcases shares_of_perform hshares with hbefore | ⟨text, hstep, _⟩
    · exact ih hbefore
    · cases hstep

end Session

namespace Unshared

theorem ofTerminal (policy : LiteralPolicy α) (settings : Settings) (entropy : Twister)
    (terminals : List (String × α)) :
    Unshared policy settings entropy (terminals.map .ofTerminal) := by
  induction terminals using List.reverseRecOn with
  | nil => exact nil
  | append_singleton before entry ih =>
    rw [List.map_append, List.map_singleton]
    exact ih.concat (Session.not_shares_ofTerminal policy settings entropy before entry.1)

/-- A rule shares no node when its turn comes: only a bare rule can make it share one, and that rule
comes later. -/
theorem append_ofRule {rules : List (String × String)}
    (h : Unshared policy settings entropy earlier)
    (hnodup : (rules.map Prod.fst).Nodup) (horder : AliasesFollow rules)
    (hfree : ∀ rule ∈ rules,
      ¬(Session.after policy settings entropy earlier).registry.Shares rule.1) :
    Unshared policy settings entropy (earlier ++ rules.map .ofRule) := by
  induction rules generalizing earlier with
  | nil =>
    rw [List.map_nil, List.append_nil]
    exact h
  | cons rule rest ih =>
    obtain ⟨hfirst, hrest⟩ := List.nodup_cons.mp hnodup
    obtain ⟨haliases, hlater⟩ := List.pairwise_cons.mp horder
    have hnext : Unshared policy settings entropy (earlier ++ [.ofRule rule]) :=
      h.concat (hfree rule List.mem_cons_self)
    rw [List.map_cons, List.append_cons]
    refine ih hnext hrest hlater fun other hother hshares => ?_
    rw [Session.after_concat] at hshares
    rcases Session.shares_of_perform hshares with hbefore | ⟨text, hstep, hread, hends⟩
    · exact hfree other (List.mem_cons_of_mem rule hother) hbefore
    · obtain ⟨_, rfl⟩ := Step.compile.inj hstep
      rcases hends with hname | halias
      · exact hfirst (List.mem_map.mpr ⟨other, hother, hname⟩)
      · exact haliases other hother (by rw [halias]; exact hread)

theorem realizes {steps : List (Step α)} (h : Unshared policy settings entropy steps)
    (htext : policy.DependsOnText) :
    (Session.after policy settings entropy steps).registry.Realizes (policy.answer [])
      (Session.after policy settings entropy steps).table :=
  ⟨(wired_after policy settings entropy steps).congr fun other _ reference _ =>
    h.leader_eq other reference, h.exists_meant htext⟩

theorem tableSteps {rules : List (String × String)} (policy : LiteralPolicy α)
    (settings : Settings) (entropy : Twister) (terminals : List (String × α))
    (hnodup : (rules.map Prod.fst).Nodup) (horder : AliasesFollow rules) :
    Unshared policy settings entropy (tableSteps terminals rules) :=
  (ofTerminal policy settings entropy terminals).append_ofRule hnodup horder fun rule _ =>
    Session.not_shares_ofTerminal policy settings entropy terminals rule.1

end Unshared

/-- Registries for tables that say the same generate the same. -/
theorem Registry.Realizes.exists_refines (σ : Type) [RandomSource σ] {literal : String → Option α}
    {table other : Table α} {first second : Registry α} (h : first.Realizes literal table)
    (h' : second.Realizes literal other) (hsame : ∀ name, table.latest name = other.latest name)
    (mode : ExpansionMode) {name : String} {id place : NodeId} (hid : first.find? name = some id)
    (hplace : second.find? name = some place) (nesting : Nat) :
    ∃ more, Refines (first.graph.emit mode nesting 0 id : Sampling σ (List α))
      (second.graph.emit mode more 0 place) := by
  obtain ⟨rank, hmeant⟩ := h.meant
  obtain ⟨rank', hmeant'⟩ := h'.meant
  obtain ⟨bound, hbound⟩ := exists_rank_le rank first
  have hrank := hbound name id hid
  have hdefinitions : Refines (first.graph.emit mode nesting 0 id : Sampling σ (List α))
      (table.expand literal mode (nesting * (bound + 1)) 0 name) :=
    emit_refines_expand mode h.wired hmeant hbound hid (by omega)
  rw [Table.expand_congr hsame] at hdefinitions
  exact ⟨nesting * (bound + 1),
    hdefinitions.trans (expand_refines_emit mode h'.wired hmeant' hplace)⟩

namespace Grammar

theorem tablePolicy_dependsOnText {policy : Option (LiteralPolicy α)}
    (h : ∀ given ∈ policy, given.DependsOnText) (value : String → α)
    (terminals : List (String × α)) : (tablePolicy value terminals policy).DependsOnText := by
  cases policy with
  | some given => exact h given rfl
  | none =>
    intro asked later text
    simp only [tablePolicy]
    split <;> rfl

/-- What the grammar of a table in order is: it has every name of the table, and its registry
realizes the definitions. -/
theorem realizes_of_ofTables {value : String → α} {terminals : List (String × α)}
    {rules : List (String × String)} {policy : Option (LiteralPolicy α)} {settings : Settings}
    {entropy : Twister} {grammar : Grammar α} (htext : ∀ given ∈ policy, given.DependsOnText)
    (hnodup : (rules.map Prod.fst).Nodup) (horder : AliasesFollow rules)
    (h : ofTables value terminals rules policy settings entropy = .ok grammar) :
    (∀ name, name ∈ terminals.map Prod.fst ∨ name ∈ rules.map Prod.fst →
      ∃ id, grammar.registry.find? name = some id) ∧
    grammar.registry.Realizes ((tablePolicy value terminals policy).answer [])
      ((tableSteps terminals rules).foldl Step.record []) := by
  obtain ⟨haccepts, hgrammar⟩ := ofTables_eq_ok h
  have hunshared := Unshared.tableSteps (tablePolicy value terminals policy) settings entropy
    terminals hnodup horder
  have hrealizes := hunshared.realizes (tablePolicy_dependsOnText htext value terminals)
  have htable : (Session.after (tablePolicy value terminals policy) settings entropy
      (tableSteps terminals rules)).table = (tableSteps terminals rules).foldl Step.record [] :=
    haccepts.table_eq
  rw [htable] at hrealizes
  unfold Session.registry at hrealizes
  rw [hgrammar] at hrealizes
  refine ⟨fun name hname => ?_, hrealizes⟩
  exact Option.isSome_iff_exists.mp (contains_of_ofTables h (List.mem_append.mpr hname))

/-- Two orders of a table of rules, in each of which a rule that only names another rule comes after
it, make grammars that generate the same for every name of the table: with the same draws the same
values or the same failure, unless neither comes to an end. -/
theorem generateWith_ofTables_perm {value : String → α} {terminals : List (String × α)}
    {first second : List (String × String)} {policy : Option (LiteralPolicy α)}
    {settings : Settings} {entropy renewed : Twister} {grammar other : Grammar α}
    (htext : ∀ given ∈ policy, given.DependsOnText) (hnodup : (first.map Prod.fst).Nodup)
    (hperm : first.Perm second) (horder : AliasesFollow first) (horder' : AliasesFollow second)
    (hfirst : ofTables value terminals first policy settings entropy = .ok grammar)
    (hsecond : ofTables value terminals second policy settings renewed = .ok other) {name : String}
    (hname : name ∈ terminals.map Prod.fst ∨ name ∈ first.map Prod.fst) (generation : Settings)
    {σ : Type} [RandomSource σ] (source : σ) (outcome : Except GenerationError (List α) × σ)
    (hended : outcome.1 ≠ .error (.expansion name .tooDeep)) :
    (∃ nesting, { grammar with settings := generation }.generateWith nesting (some name) source =
        outcome) ↔
      ∃ nesting, { other with settings := generation }.generateWith nesting (some name) source =
        outcome := by
  have hnodup' : (second.map Prod.fst).Nodup := (hperm.map Prod.fst).nodup_iff.mp hnodup
  have hname' : name ∈ terminals.map Prod.fst ∨ name ∈ second.map Prod.fst :=
    hname.imp_right (hperm.map Prod.fst).mem_iff.mp
  obtain ⟨hnames, hrealizes⟩ := realizes_of_ofTables htext hnodup horder hfirst
  obtain ⟨hnames', hrealizes'⟩ := realizes_of_ofTables htext hnodup' horder' hsecond
  obtain ⟨id, hid⟩ := hnames name hname
  obtain ⟨place, hplace⟩ := hnames' name hname'
  have hgrammar : { grammar with settings := generation }.registry.find? name = some id := hid
  have hother : { other with settings := generation }.registry.find? name = some place := hplace
  have hsteps : ((first.map .ofRule : List (Step α)).map Step.name).Nodup := by
    rw [List.map_map]
    exact hnodup
  have hsame : ∀ reference,
      Table.latest ((tableSteps terminals first).foldl Step.record []) reference =
        Table.latest ((tableSteps terminals second).foldl Step.record []) reference := by
    intro reference
    unfold tableSteps
    rw [List.foldl_append, List.foldl_append]
    exact Table.latest_foldl_record_perm (hperm.map Step.ofRule) hsteps _ reference
  constructor
  · rintro ⟨nesting, rfl⟩
    obtain ⟨more, hrefines⟩ := hrealizes.exists_refines σ hrealizes' hsame
      generation.expansionMode hid hplace nesting
    exact ⟨more, generateWith_eq_of_refines hgrammar hother hrefines hended⟩
  · rintro ⟨nesting, rfl⟩
    obtain ⟨more, hrefines⟩ := hrealizes'.exists_refines σ hrealizes
      (fun reference => (hsame reference).symm) generation.expansionMode hplace hid nesting
    exact ⟨more, generateWith_eq_of_refines hother hgrammar hrefines hended⟩

/-- A table with a rule before the rules that it uses, a terminal that a rule takes over, recursion
and another name for a rule. -/
theorem generateWith_ofTables_perm_of_forward_reference :
    let terminals := [("a", "A"), ("b", "B")]
    let first := [("s", "t & a & y"), ("t", "s -> b"), ("a", "2 x | 1 z"), ("u", "s")]
    let second := [("a", "2 x | 1 z"), ("t", "s -> b"), ("s", "t & a & y"), ("u", "s")]
    let generation : Settings := { maxDepth := 1 }
    let source : Script := ⟨#[.half], 0⟩
    let outcome : Except GenerationError (List String) × Script :=
      (.ok ["B", "x", "y", "x", "y"], ⟨#[.half], 2⟩)
    (first.map Prod.fst).Nodup ∧ first.Perm second ∧ AliasesFollow first ∧ AliasesFollow second ∧
      ∃ grammar other, ofTables id terminals first (some (.every id)) {} (.ofSeed 0) = .ok grammar ∧
        ofTables id terminals second (some (.every id)) {} (.ofSeed 1) = .ok other ∧
        (∃ nesting, { grammar with settings := generation }.generateWith nesting (some "u") source =
          outcome) ∧
        ∃ nesting, { other with settings := generation }.generateWith nesting (some "u") source =
          outcome := by
  intro terminals first second generation source outcome
  have hnodup : (first.map Prod.fst).Nodup := by decide
  have hperm : first.Perm second := by decide
  have horder : AliasesFollow first := by decide +kernel
  have horder' : AliasesFollow second := by decide +kernel
  have hresult : (ofTables id terminals first (some (.every id)) {} (.ofSeed 0)).map
      (fun grammar =>
        { grammar with settings := generation }.generateWith 12 (some "u") source) =
          .ok outcome := by
    decide +kernel
  have hsucceeds :
      (ofTables id terminals second (some (.every id)) {} (.ofSeed 1)).isOk = true := by
    decide +kernel
  cases hfirst : ofTables id terminals first (some (.every id)) {} (.ofSeed 0) with
  | error reason =>
    rw [hfirst] at hresult
    cases hresult
  | ok grammar =>
    cases hsecond : ofTables id terminals second (some (.every id)) {} (.ofSeed 1) with
    | error reason =>
      rw [hsecond] at hsucceeds
      cases hsucceeds
    | ok other =>
      have hgenerates : ∃ nesting, { grammar with settings := generation }.generateWith nesting
          (some "u") source = outcome := by
        rw [hfirst] at hresult
        exact ⟨12, Except.ok.inj hresult⟩
      have htext : ∀ given ∈ some (LiteralPolicy.every (id : String → String)),
          given.DependsOnText := by
        rintro given ⟨⟩
        exact fun _ _ _ => rfl
      have hsame := generateWith_ofTables_perm htext hnodup hperm horder horder' hfirst hsecond
        (.inr (by decide : "u" ∈ first.map Prod.fst)) generation source outcome nofun
      exact ⟨hnodup, hperm, horder, horder', grammar, other, rfl, rfl, hgenerates,
        hsame.mp hgenerates⟩

end Grammar

end StochasticGrammar
