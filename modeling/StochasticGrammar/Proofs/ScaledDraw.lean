import StochasticGrammar.Proofs.ChoiceOrder
import StochasticGrammar.Proofs.CompilationReport

namespace StochasticGrammar

variable {ρ : Type}

/-- A choice whose draw is this one takes the option, whatever else the source gives. -/
def Takes (options : List (ρ × Binary64)) (draw : Binary64) (option : ρ) : Prop :=
  ∀ (σ : Type) [RandomSource σ] (source : σ), (RandomSource.draw source).1 = draw →
    (chooseOption options).run source = .ok option (RandomSource.draw source).2

theorem takes_iff {options : List (ρ × Binary64)} {draw : Binary64} {option : ρ} :
    Takes options draw option ↔
      ¬totalWeight options ≤ 0 ∧ optionAt? options (draw * totalWeight options) = some option := by
  constructor
  · intro h
    exact chooseOption_eq_ok (h Script (Script.ofList [draw]) rfl)
  · rintro ⟨htotal, hoption⟩ σ _ source rfl
    unfold chooseOption
    simp only [if_neg htotal]
    have hdraw : (drawOne : Sampling σ Binary64).run source =
        .ok (RandomSource.draw source).1 (RandomSource.draw source).2 := rfl
    rw [run_bind_of_ok hdraw, hoption]
    rfl

/-- Draws are scaled to finite numbers from zero up to the total. -/
def ScalesWithin (total : Binary64) : Prop :=
  ∀ draw : Binary64, draw.IsDraw →
    (draw * total).IsFinite ∧ 0 ≤ draw * total ∧ draw * total ≤ total

/-- The draw zero takes the first option of positive weight. -/
def ZeroTakesFirst (options : List (ρ × Binary64)) : Prop :=
  ∃ option, (numbered options).find? (0 < ·.2) = some option ∧
    Takes (numbered options) 0 option.1

/-- Every draw takes the last option of positive weight. -/
def AllTakeLast (options : List (ρ × Binary64)) : Prop :=
  ∃ option, lastPositive? (numbered options) = some option ∧
    ∀ draw : Binary64, draw.IsDraw → Takes (numbered options) draw option

theorem scalesWithin_iff {total : Binary64} (h : 0 ≤ total) :
    ScalesWithin total ↔ total.IsFinite := by
  obtain ⟨b, hb⟩ := Binary64.nonneg_iff_exists_liesAt.mp h
  constructor
  · intro hscales
    by_contra hinfinite
    have hzero := (hscales 0 Binary64.isDraw_zero).1
    rw [Binary64.eq_infinite_of_not_isFinite h hinfinite, Binary64.isDraw_zero.mul_infinite] at hzero
    exact hzero
  · intro hfinite draw hdraw
    obtain ⟨a, ha, -⟩ := hdraw.exists_liesAt
    obtain ⟨hplace, hle⟩ := hdraw.liesAt_mul ha hb hfinite
    have hlimit := hb.isFinite_iff.mp hfinite
    refine ⟨hplace.isFinite_iff.mpr (Nat.lt_of_le_of_lt hle hlimit), ?_, (hplace.le_iff hb).mpr hle⟩
    exact Binary64.nonneg_iff_exists_liesAt.mpr ⟨_, hplace⟩

section Walks

variable {options : List (ρ × Binary64)} {draw : Binary64}

theorem optionAt?_of_not_lt (h : ∀ value, ¬draw < value) :
    optionAt? options draw = lastPositive? options := by
  have hwalk : ∀ running, firstAbove? draw running options = none := by
    induction options with
    | nil => exact fun _ => rfl
    | cons option rest ih =>
      intro running
      simp only [firstAbove?, if_neg (h _)]
      exact ih _
  unfold optionAt?
  rw [hwalk]
  rfl

/-- At zero the walk stops where the running total leaves zero. -/
theorem firstAbove?_of_isZero {running : Binary64}
    (hamounts : ∀ weight ∈ options.map Prod.snd, weight.IsAmount)
    (hdraw : draw.IsZero) (hrunning : running.IsZero) :
    firstAbove? draw running options = (options.find? (0 < ·.2)).map Prod.fst := by
  induction options generalizing running with
  | nil => rfl
  | cons option rest ih =>
    have hamount := hamounts option.2 List.mem_cons_self
    obtain ⟨place, hplace⟩ := Binary64.nonneg_iff_exists_liesAt.mp hamount.nonneg
    have hsum := Binary64.LiesAt.zero_add hrunning hplace
    have habove : draw < running + option.2 ↔ 0 < option.2 :=
      (Binary64.LiesAt.lt_iff hdraw hsum).trans (Binary64.liesAt_zero.lt_iff hplace).symm
    simp only [firstAbove?, habove]
    split
    next hpos =>
      rw [List.find?_cons_of_pos (by simpa using hpos)]
      rfl
    next hnone =>
      rw [List.find?_cons_of_neg (by simpa using hnone)]
      refine ih (fun weight hmem => hamounts weight (List.mem_cons_of_mem _ hmem)) ?_
      exact hrunning.add (hamount.isZero_of_not_lt hnone)

end Walks

section Increasing

variable {options : List ((ρ × Nat) × Binary64)} {option : (ρ × Nat) × Binary64}

/-- One weight cannot overflow: if the first option of positive weight is also the last, the total
is its weight. -/
theorem isFinite_totalWeight_of_only
    (hincreasing : options.Pairwise fun option other => option.1.2 < other.1.2)
    (hamounts : ∀ weight ∈ options.map Prod.snd, weight.IsAmount)
    (hfirst : options.find? (0 < ·.2) = some option)
    (hlast : lastPositive? options = some option.1) : (totalWeight options).IsFinite := by
  obtain ⟨-, passed, rest, rfl, hpassed⟩ := List.find?_eq_some_iff_append.mp hfirst
  have hother : ∀ other ∈ passed ++ rest, other.2.IsZero := by
    intro other hmem
    have hlisted : other ∈ passed ++ option :: rest := by
      rcases List.mem_append.mp hmem with hbefore | hafter
      · exact List.mem_append_left _ hbefore
      · exact List.mem_append_right _ (List.mem_cons_of_mem _ hafter)
    refine (hamounts other.2 (List.mem_map_of_mem hlisted)).isZero_of_not_lt fun hpos => ?_
    rcases List.mem_append.mp hmem with hbefore | hafter
    · have hnone := hpassed other hbefore
      simp [hpos] at hnone
    · have hless := (List.pairwise_cons.mp (List.pairwise_append.mp hincreasing).2.1).1 other hafter
      have hle := le_of_lastPositive? hincreasing hlisted hpos hlast
      omega
  have hamount := hamounts option.2 (by simp)
  obtain ⟨place, hplace⟩ := Binary64.nonneg_iff_exists_liesAt.mp hamount.nonneg
  have hbefore : (Binary64.sum (passed.map Prod.snd)).IsZero :=
    Binary64.isZero_sum (List.forall_mem_map.mpr fun other hmem =>
      hother other (List.mem_append_left _ hmem))
  have hafter : ∀ weight ∈ rest.map Prod.snd, weight.IsZero :=
    List.forall_mem_map.mpr fun other hmem => hother other (List.mem_append_right _ hmem)
  have htotal : (totalWeight (passed ++ option :: rest)).LiesAt place := by
    unfold totalWeight Binary64.sum
    rw [List.map_append, List.map_cons, List.foldl_append, List.foldl_cons]
    exact Binary64.liesAt_sum_of_isZero hafter (Binary64.LiesAt.zero_add hbefore hplace)
  exact htotal.isFinite_iff.mpr (hplace.isFinite_iff.mp hamount.1)

end Increasing

section Selection

variable {options : List (ρ × Binary64)}

theorem totalWeight_nonneg (hamounts : ∀ weight ∈ options.map Prod.snd, weight.IsAmount) :
    0 ≤ totalWeight options :=
  Binary64.sum_nonneg fun weight hmem => (hamounts weight hmem).nonneg

theorem not_totalWeight_le_zero (hamounts : ∀ weight ∈ options.map Prod.snd, weight.IsAmount)
    (hpositive : ∃ weight ∈ options.map Prod.snd, 0 < weight) : ¬totalWeight options ≤ 0 := by
  obtain ⟨weight, hmem, hpos⟩ := hpositive
  intro htotal
  have hzeros := (totalWeight_le_zero_iff hamounts).mp htotal
  exact Binary64.not_isZero_of_pos hpos (hzeros weight hmem)

theorem zeroTakesFirst_of_isFinite
    (hamounts : ∀ weight ∈ options.map Prod.snd, weight.IsAmount)
    (hpositive : ∃ weight ∈ options.map Prod.snd, 0 < weight)
    (hfinite : (totalWeight options).IsFinite) : ZeroTakesFirst options := by
  obtain ⟨b, hb⟩ := Binary64.nonneg_iff_exists_liesAt.mp (totalWeight_nonneg hamounts)
  have hproduct : (0 * totalWeight options).IsZero := by
    have hmul := (Binary64.isDraw_zero.liesAt_mul Binary64.liesAt_zero hb hfinite).1
    rwa [Nat.zero_mul, roundedUnits_zero] at hmul
  have hnonzero := not_totalWeight_le_zero hamounts hpositive
  rw [← weights_numbered] at hamounts hpositive
  obtain ⟨weight, hmem, hpos⟩ := hpositive
  obtain ⟨option, hoption, rfl⟩ := List.mem_map.mp hmem
  obtain ⟨first, hfirst⟩ : ∃ first, (numbered options).find? (0 < ·.2) = some first :=
    Option.isSome_iff_exists.mp
      (List.find?_isSome.mpr ⟨option, hoption, by simpa using hpos⟩)
  refine ⟨first, hfirst, takes_iff.mpr ?_⟩
  rw [totalWeight_numbered]
  refine ⟨hnonzero, ?_⟩
  rw [optionAt?, firstAbove?_of_isZero hamounts hproduct Binary64.liesAt_zero, hfirst]
  rfl

theorem allTakeLast_of_not_isFinite
    (hamounts : ∀ weight ∈ options.map Prod.snd, weight.IsAmount)
    (hpositive : ∃ weight ∈ options.map Prod.snd, 0 < weight)
    (hinfinite : ¬(totalWeight options).IsFinite) :
    totalWeight options = .infinite false ∧ AllTakeLast options := by
  have htotal : totalWeight options = .infinite false :=
    Binary64.eq_infinite_of_not_isFinite (totalWeight_nonneg hamounts) hinfinite
  have hnonzero := not_totalWeight_le_zero hamounts hpositive
  rw [← weights_numbered] at hpositive
  obtain ⟨weight, hmem, hpos⟩ := hpositive
  obtain ⟨option, hoption, rfl⟩ := List.mem_map.mp hmem
  obtain ⟨last, hlast⟩ := exists_lastPositive? hoption hpos
  refine ⟨htotal, last, hlast, fun draw hdraw => takes_iff.mpr ?_⟩
  rw [totalWeight_numbered]
  refine ⟨hnonzero, ?_⟩
  rw [htotal, optionAt?_of_not_lt hdraw.not_mul_infinite_lt, hlast]

theorem zeroTakesFirst_iff (hamounts : ∀ weight ∈ options.map Prod.snd, weight.IsAmount)
    (hpositive : ∃ weight ∈ options.map Prod.snd, 0 < weight) :
    ZeroTakesFirst options ↔ (totalWeight options).IsFinite := by
  refine ⟨?_, zeroTakesFirst_of_isFinite hamounts hpositive⟩
  rintro ⟨first, hfirst, htakes⟩
  by_contra hinfinite
  -- the draw zero would take both the first and the last option, which were then the only one
  obtain ⟨-, last, hlast, hall⟩ := allTakeLast_of_not_isFinite hamounts hpositive hinfinite
  have hsame : first.1 = last := Option.some.inj
    ((takes_iff.mp htakes).2.symm.trans (takes_iff.mp (hall 0 Binary64.isDraw_zero)).2)
  rw [← weights_numbered] at hamounts
  rw [← totalWeight_numbered] at hinfinite
  refine hinfinite (isFinite_totalWeight_of_only (numbered_increasing options) hamounts hfirst ?_)
  rw [hsame, hlast]

/-- Weights up to a power of two, as many of them as fit below the limit, do not overflow. -/
theorem isFinite_totalWeight_of_le {exponent : Nat}
    (hamounts : ∀ weight ∈ options.map Prod.snd, weight.IsAmount)
    (hbound : ∀ weight ∈ options.map Prod.snd, weight ≤ .ofRatio false (twoPow exponent) 1)
    (hcount : options.length ≤ twoPow 53)
    (hlimit : options.length * twoPow exponent < stepLimit) :
    (totalWeight options).IsFinite := by
  rw [← List.length_map Prod.snd] at hcount hlimit
  obtain ⟨place, hplace, hle⟩ := Binary64.exists_liesAt_sum_of_le
    (fun weight hmem => ⟨(hamounts weight hmem).nonneg, hbound weight hmem⟩) hcount hlimit
  exact hplace.isFinite_iff.mpr (Nat.lt_of_le_of_lt hle hlimit)

end Selection

namespace Grammar

variable {α : Type} {grammar after : Grammar α} {name text : String} {compilation : Compilation}

/-- A text that compiles to a selection registers a selection with the weights that it reads as. -/
theorem exists_select_of_compile (h : grammar.compile name text = (.ok compilation, after))
    (hkind : compilation.kind = .select) :
    ∃ id options written, after.registry.find? name = some id ∧
      after.registry.graph.node? id = some (.composite (.select options)) ∧
      Rule.read text = .ok (.composite (.select written)) ∧
      options.map Prod.snd = written.map Prod.snd := by
  obtain ⟨rule, hread, hrun⟩ := compile_eq_ok_run h
  obtain ⟨id, hbuilt⟩ := compile_eq_ok h
  rw [kind_of_compileRule hrun] at hkind
  obtain ⟨written, rfl⟩ : ∃ written, rule = .composite (.select written) := by
    cases rule with
    | bare reference => cases hkind
    | composite shape => cases shape <;> cases hkind; exact ⟨_, rfl⟩
  obtain ⟨found, hname, hnode, hform⟩ := hbuilt.exists_sameForm hread
  obtain ⟨options, rfl⟩ : ∃ options, found = .select options := by
    have hselect := hform.kind_eq
    cases found <;> cases hselect; exact ⟨_, rfl⟩
  exact ⟨id, options, written, hname, hnode, hread, hform.weights_eq.symm⟩

/-- For a text that compiles to a selection with a positive weight, a finite total is the same as
draws that are scaled to finite numbers within it, and the same as the first option of positive
weight for the draw zero. A total that is not finite is infinite, and all draws take the last
option. Weights do not overflow as long as a power of two that bounds them all does not. -/
theorem compile_scales_draws (h : grammar.compile name text = (.ok compilation, after))
    (hkind : compilation.kind = .select) :
    ∃ id options written, after.registry.find? name = some id ∧
      after.registry.graph.node? id = some (.composite (.select options)) ∧
      Rule.read text = .ok (.composite (.select written)) ∧
      totalWeight options = totalWeight written ∧
      ((∃ weight ∈ written.map Prod.snd, 0 < weight) →
        (ScalesWithin (totalWeight options) ↔ (totalWeight written).IsFinite) ∧
        (ZeroTakesFirst options ↔ (totalWeight written).IsFinite) ∧
        (¬(totalWeight written).IsFinite →
          totalWeight options = .infinite false ∧ AllTakeLast options)) ∧
      ∀ exponent, (∀ weight ∈ written.map Prod.snd, weight ≤ .ofRatio false (twoPow exponent) 1) →
        written.length ≤ twoPow 53 → written.length * twoPow exponent < stepLimit →
          (totalWeight written).IsFinite := by
  obtain ⟨id, options, written, hname, hnode, hread, hweights⟩ := exists_select_of_compile h hkind
  have hwritten : ∀ weight ∈ written.map Prod.snd, weight.IsAmount :=
    (Rule.read_eq_composite hread).1.weights
  have hamounts : ∀ weight ∈ options.map Prod.snd, weight.IsAmount := by rwa [hweights]
  have htotal : totalWeight options = totalWeight written := congrArg Binary64.sum hweights
  refine ⟨id, options, written, hname, hnode, hread, htotal, fun hpositive => ?_, ?_⟩
  · rw [← hweights] at hpositive
    rw [← htotal]
    exact ⟨scalesWithin_iff (totalWeight_nonneg hamounts), zeroTakesFirst_iff hamounts hpositive,
      allTakeLast_of_not_isFinite hamounts hpositive⟩
  · exact fun exponent => isFinite_totalWeight_of_le hwritten

/-- Two weights that are finite with an infinite total. -/
theorem compile_scales_draws_of_overflow :
    let grammar : Grammar String := new (.every id) {} (.ofSeed 0)
    let after := (grammar.compile "s" "1e308 a | 1e308 b").2
    let compilation : Compilation := ⟨"s", .select, false, ["a", "b"]⟩
    grammar.compile "s" "1e308 a | 1e308 b" = (.ok compilation, after) ∧
      compilation.kind = .select ∧
      ∃ id options, after.registry.find? "s" = some id ∧
        after.registry.graph.node? id = some (.composite (.select options)) ∧
        totalWeight options = .infinite false ∧ ¬ScalesWithin (totalWeight options) ∧
        ¬ZeroTakesFirst options ∧ AllTakeLast options := by
  intro grammar after compilation
  have hcompile : grammar.compile "s" "1e308 a | 1e308 b" = (.ok compilation, after) :=
    Prod.fst_eq_iff.mp (by decide +kernel)
  obtain ⟨id, options, written, hname, hnode, hread, -, hdraws, -⟩ :=
    compile_scales_draws hcompile rfl
  have hwritten : Rule.read "1e308 a | 1e308 b" = .ok (.composite (.select
      [("a", .ofInt (tenPow 308)), ("b", .ofInt (tenPow 308))])) := by decide +kernel
  rw [hwritten] at hread
  cases hread
  have hinfinite : ¬(totalWeight [("a", Binary64.ofInt (tenPow 308)),
      ("b", Binary64.ofInt (tenPow 308))]).IsFinite := by decide +kernel
  obtain ⟨hscales, hfirst, hlast⟩ := hdraws ⟨_, List.mem_cons_self, by decide +kernel⟩
  exact ⟨hcompile, rfl, id, options, hname, hnode, (hlast hinfinite).1, mt hscales.mp hinfinite,
    mt hfirst.mp hinfinite, (hlast hinfinite).2⟩

end Grammar

end StochasticGrammar
