import StochasticGrammar.Grammar
import StochasticGrammar.Proofs.CompositeForm

namespace StochasticGrammar

variable {σ β γ : Type}

/-- A result other than a nesting that is too deep. -/
def Ended : EStateM.Result ExpansionFault σ β → Prop
  | .error .tooDeep _ => False
  | _ => True

/-- Whenever the first ends, the second has the same result. -/
def Refines (first second : Sampling σ β) : Prop :=
  ∀ source, Ended (first.run source) → second.run source = first.run source

namespace Refines

theorem refl (step : Sampling σ β) : Refines step step := fun _ _ => rfl

theorem trans {first second third : Sampling σ β} (h : Refines first second)
    (h' : Refines second third) : Refines first third := by
  intro source hended
  have hsecond := h source hended
  have hthird := h' source (by rw [hsecond]; exact hended)
  exact hthird.trans hsecond

theorem tooDeep (step : Sampling σ β) : Refines (throw .tooDeep) step :=
  fun _ hended => absurd hended id

theorem bind {first second : Sampling σ β} {next later : β → Sampling σ γ}
    (h : Refines first second)
    (hnext : ∀ source value between, first.run source = .ok value between →
      Refines (next value) (later value)) : Refines (first >>= next) (second >>= later) := by
  intro source hended
  cases hfirst : first.run source with
  | ok value between =>
    have hsecond := h source (by rw [hfirst]; trivial)
    rw [hfirst] at hsecond
    rw [run_bind_of_ok hfirst] at hended ⊢
    rw [run_bind_of_ok hsecond]
    exact hnext source value between hfirst between hended
  | error fault between =>
    rw [run_bind_of_error hfirst] at hended ⊢
    have hsame : Ended (.error fault between : EStateM.Result ExpansionFault σ β) := by
      cases fault <;> exact hended
    have hsecond := h source (by rw [hfirst]; exact hsame)
    rw [hfirst] at hsecond
    rw [run_bind_of_error hsecond]

variable {α ρ : Type}

theorem inOrder {first second : ρ → Sampling σ (List α)} {operands : List ρ}
    (h : ∀ operand ∈ operands, Refines (first operand) (second operand)) :
    Refines (inOrder first operands) (inOrder second operands) := by
  induction operands with
  | nil => exact refl _
  | cons operand rest ih =>
    have hrest := ih fun other hother => h other (List.mem_cons_of_mem operand hother)
    exact (h operand List.mem_cons_self).bind fun _ _ _ _ => hrest.bind fun _ _ _ _ => refl _

theorem repeated {first second : Sampling σ (List α)} (h : Refines first second) (count : Nat) :
    Refines (repeated first count) (repeated second count) := by
  induction count with
  | zero => exact refl _
  | succ count ih => exact h.bind fun _ _ _ _ => ih.bind fun _ _ _ _ => refl _

end Refines

section Options

variable {ρ τ : Type}

theorem firstAbove?_map (f : ρ → τ) (draw running : Binary64) (options : List (ρ × Binary64)) :
    firstAbove? draw running (options.map fun option => (f option.1, option.2)) =
      (firstAbove? draw running options).map f := by
  induction options generalizing running with
  | nil => rfl
  | cons option rest ih =>
    simp only [List.map_cons, firstAbove?]
    split
    next => rfl
    next => exact ih _

theorem lastPositive?_map (f : ρ → τ) (options : List (ρ × Binary64)) :
    lastPositive? (options.map fun option => (f option.1, option.2)) =
      (lastPositive? options).map f := by
  unfold lastPositive?
  rw [← List.map_reverse, List.find?_map, Option.map_map, Option.map_map]
  rfl

theorem optionAt?_map (f : ρ → τ) (options : List (ρ × Binary64)) (draw : Binary64) :
    optionAt? (options.map fun option => (f option.1, option.2)) draw =
      (optionAt? options draw).map f := by
  unfold optionAt?
  rw [firstAbove?_map, lastPositive?_map]
  cases firstAbove? draw 0 options <;> rfl

/-- The option that is taken by its running total: the total before it had not exceeded the draw,
unless the option is the first. -/
theorem exists_of_firstAbove? {draw running : Binary64} {options : List (ρ × Binary64)} {option : ρ}
    (h : firstAbove? draw running options = some option) :
    ∃ weight passed, (option, weight) ∈ options ∧ draw < passed + weight ∧
      (passed = running ∨ ¬draw < passed) := by
  induction options generalizing running with
  | nil => cases h
  | cons first rest ih =>
    simp only [firstAbove?] at h
    split at h
    next habove =>
      cases h
      exact ⟨first.2, running, List.mem_cons_self, habove, .inl rfl⟩
    next hbelow =>
      obtain ⟨weight, passed, hmem, habove, hpassed⟩ := ih h
      refine ⟨weight, passed, List.mem_cons_of_mem first hmem, habove, .inr ?_⟩
      rcases hpassed with rfl | hpassed
      · exact hbelow
      · exact hpassed

/-- An option is taken by its running total, or else for its positive weight. -/
theorem exists_of_optionAt? {draw : Binary64} {options : List (ρ × Binary64)} {option : ρ}
    (h : optionAt? options draw = some option) :
    ∃ weight, (option, weight) ∈ options ∧
      (0 < weight ∨ ∃ passed, draw < passed + weight ∧ (passed = 0 ∨ ¬draw < passed)) := by
  unfold optionAt? at h
  cases hfirst : firstAbove? draw 0 options with
  | some first =>
    rw [hfirst] at h
    cases h
    obtain ⟨weight, passed, hmem, hpassed⟩ := exists_of_firstAbove? hfirst
    exact ⟨weight, hmem, .inr ⟨passed, hpassed⟩⟩
  | none =>
    rw [hfirst] at h
    obtain ⟨last, hlast, rfl⟩ := Option.map_eq_some_iff.mp h
    have hpos : 0 < last.2 := by simpa using List.find?_some hlast
    exact ⟨last.2, List.mem_reverse.mp (List.mem_of_find?_eq_some hlast), .inl hpos⟩

theorem mem_of_optionAt? {draw : Binary64} {options : List (ρ × Binary64)} {option : ρ}
    (h : optionAt? options draw = some option) : option ∈ options.map Prod.fst := by
  obtain ⟨weight, hmem, _⟩ := exists_of_optionAt? h
  exact List.mem_map_of_mem hmem

variable [RandomSource σ]

/-- A choice that succeeds takes the option that the scaled draw falls on. -/
theorem chooseOption_eq_ok {options : List (ρ × Binary64)} {source after : σ} {option : ρ}
    (h : (chooseOption options).run source = .ok option after) :
    ¬totalWeight options ≤ 0 ∧
      optionAt? options ((RandomSource.draw source).1 * totalWeight options) = some option := by
  unfold chooseOption at h
  simp only at h
  split at h
  next => cases h
  next htotal =>
    obtain ⟨draw, between, hdraw, hchosen⟩ := run_bind_eq_ok h
    cases hdraw
    split at hchosen
    next chosen hoption =>
      cases hchosen
      exact ⟨htotal, hoption⟩
    next => cases hchosen

theorem chooseOption_map (f : ρ → τ) (options : List (ρ × Binary64)) :
    (chooseOption (options.map fun option => (f option.1, option.2)) : Sampling σ τ) =
      chooseOption options >>= fun option => return f option := by
  have htotal : totalWeight (options.map fun option => (f option.1, option.2)) =
      totalWeight options := by
    unfold totalWeight
    rw [List.map_map]
    rfl
  unfold chooseOption
  simp only [htotal, optionAt?_map]
  split
  next => rfl
  next =>
    rw [bind_assoc]
    congr 1
    funext draw
    cases optionAt? options (draw * totalWeight options) <;> rfl

end Options

namespace Composite

variable {α ρ τ : Type} [RandomSource σ]

theorem expand_map (mode : ExpansionMode) (f : ρ → τ) (operand : Int → τ → Sampling σ (List α))
    (depth : Int) (shape : Composite ρ) :
    (shape.map f).expand mode operand depth =
      shape.expand mode (fun depth reference => operand depth (f reference)) depth := by
  cases shape with
  | fallback primary alternate => rfl
  | repetition body count => rfl
  | select options =>
    simp only [map, expand]
    rw [chooseOption_map, bind_assoc]
    rfl
  | sequence elements =>
    simp only [map, expand]
    induction elements with
    | nil => rfl
    | cons element rest ih => simp only [List.map_cons, inOrder, ih]

theorem expand_refines (mode : ExpansionMode) {first second : Int → ρ → Sampling σ (List α)}
    {shape : Composite ρ}
    (h : ∀ depth, ∀ operand ∈ shape.operands, Refines (first depth operand) (second depth operand))
    (depth : Int) : Refines (shape.expand mode first depth) (shape.expand mode second depth) := by
  cases shape with
  | sequence elements => exact Refines.inOrder (h depth)
  | select options =>
    refine (Refines.refl _).bind fun source option between hoption => h depth option ?_
    exact mem_of_optionAt? (chooseOption_eq_ok hoption).2
  | repetition body count =>
    have hbody := h depth body List.mem_cons_self
    exact (Refines.refl _).bind fun _ times _ _ => hbody.repeated times.toNat
  | fallback primary alternate =>
    simp only [expand]
    split
    next => exact h depth alternate (by simp [operands])
    next => exact h (depth + 1) primary (by simp [operands])

end Composite

/-- More room for nesting changes no expansion that ends. -/
theorem Graph.emit_mono {α : Type} [RandomSource σ] (graph : Graph α) (mode : ExpansionMode)
    {nesting more : Nat} (hle : nesting ≤ more) (depth : Int) (id : NodeId) :
    Refines (graph.emit mode nesting depth id : Sampling σ (List α))
      (graph.emit mode more depth id) := by
  induction nesting generalizing more depth id with
  | zero => exact Refines.tooDeep _
  | succ nesting ih =>
    obtain ⟨more, rfl⟩ := Nat.exists_eq_add_of_le' (Nat.lt_of_lt_of_le (Nat.succ_pos nesting) hle)
    unfold emit
    split
    next => exact Refines.refl _
    next => exact Refines.refl _
    next shape _ =>
      exact Composite.expand_refines mode
        (fun depth operand _ => ih (by omega) depth operand) depth

theorem Grammar.generateWith_eq_ok_iff {α : Type} [RandomSource σ] {grammar : Grammar α}
    {name : String} {id : NodeId} (hname : grammar.registry.find? name = some id) (nesting : Nat)
    (source last : σ) (values : List α) :
    grammar.generateWith nesting (some name) source = (.ok values, last) ↔
      (grammar.registry.graph.emit grammar.settings.expansionMode nesting 0 id).run source =
        .ok values last := by
  simp only [generateWith, Option.some_or, Option.bind_some, hname, Option.map_some, Graph.expand]
  split
  next h => rw [h]; simp
  next h => rw [h]; simp

theorem Grammar.generateWith_eq_error_iff {α : Type} [RandomSource σ] {grammar : Grammar α}
    {name : String} {id : NodeId} (hname : grammar.registry.find? name = some id) (nesting : Nat)
    (source last : σ) (fault : ExpansionFault) :
    grammar.generateWith nesting (some name) source = (.error (.expansion name fault), last) ↔
      (grammar.registry.graph.emit grammar.settings.expansionMode nesting 0 id :
        Sampling σ (List α)).run source = .error fault last := by
  simp only [generateWith, Option.some_or, Option.bind_some, hname, Option.map_some, Graph.expand]
  split
  next h => rw [h]; simp
  next h => rw [h]; simp

/-- Where a generation does not nest too deeply, another that its expansion refines has the same
result. -/
theorem Grammar.generateWith_eq_of_refines {α : Type} [RandomSource σ] {first second : Grammar α}
    {name : String} {id place : NodeId} (hfirst : first.registry.find? name = some id)
    (hsecond : second.registry.find? name = some place) {nesting more : Nat}
    (h : Refines
      (first.registry.graph.emit first.settings.expansionMode nesting 0 id : Sampling σ (List α))
      (second.registry.graph.emit second.settings.expansionMode more 0 place))
    {source : σ} (hended : (first.generateWith nesting (some name) source).1 ≠
      .error (.expansion name .tooDeep)) :
    second.generateWith more (some name) source = first.generateWith nesting (some name) source := by
  cases hrun : (first.registry.graph.emit first.settings.expansionMode nesting 0 id :
      Sampling σ (List α)).run source with
  | ok values last =>
    have hsame := h source (by rw [hrun]; trivial)
    rw [(generateWith_eq_ok_iff hfirst nesting source last values).mpr hrun]
    exact (generateWith_eq_ok_iff hsecond more source last values).mpr (hsame.trans hrun)
  | error fault last =>
    have hfails := (generateWith_eq_error_iff hfirst nesting source last fault).mpr hrun
    have hkept : Ended (.error fault last : EStateM.Result ExpansionFault σ (List α)) := by
      cases fault with
      | tooDeep => exact absurd (congrArg Prod.fst hfails) hended
      | deadSelect => trivial
      | notFinite value => trivial
    have hsame := h source (by rw [hrun]; exact hkept)
    rw [hfails]
    exact (generateWith_eq_error_iff hsecond more source last fault).mpr (hsame.trans hrun)

end StochasticGrammar
