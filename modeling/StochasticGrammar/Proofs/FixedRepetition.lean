import StochasticGrammar.Proofs.HalfRounding
import StochasticGrammar.Proofs.ReportedParts

namespace StochasticGrammar

theorem half_eq_div : (1 / 2 : ℚ) = (twoPow 1073 : ℕ) / (stepsPerOne : ℚ) := by
  have hpos : ((twoPow 1073 : ℕ) : ℚ) ≠ 0 := Nat.cast_ne_zero.mpr (twoPow_pos 1073).ne'
  rw [stepsPerOne_eq_two_mul, Nat.cast_mul]
  field_simp
  norm_num

namespace Binary64

/-- The counts to which a half cannot be added without passing the next whole number: the double
just below a half, and the odd numbers between `2 ^ 52` and `2 ^ 53`. -/
def RoundsPast (count : Binary64) : Prop :=
  count.exact = 1 / 2 - 1 / 2 ^ 54 ∨
    ∃ whole : ℕ, Odd whole ∧ 2 ^ 52 ≤ whole ∧ whole < 2 ^ 53 ∧ count.exact = whole

namespace LiesAt

variable {count : Binary64} {units : Nat}

theorem exact_eq_natCast_iff (h : count.LiesAt units) (whole : ℕ) :
    count.exact = whole ↔ units = whole * stepsPerOne := by
  rw [h.exact_eq, div_eq_iff stepsPerOne_pos_rat.ne', ← Nat.cast_mul, Nat.cast_inj]

theorem exact_eq_last_below_half_iff (h : count.LiesAt units) :
    count.exact = 1 / 2 - 1 / 2 ^ 54 ↔ units = twoPow 1073 - twoPow 1020 := by
  have hhalf : twoPow 1073 = 2 ^ 53 * twoPow 1020 := by
    rw [← twoPow_eq_pow, ← twoPow_add]
  have hone : stepsPerOne = 2 ^ 54 * twoPow 1020 := by
    rw [← twoPow_eq_pow, ← twoPow_add]
    rfl
  have hpos : ((twoPow 1020 : ℕ) : ℚ) ≠ 0 := Nat.cast_ne_zero.mpr (twoPow_pos 1020).ne'
  have hle : twoPow 1020 ≤ twoPow 1073 := twoPow_le (by decide)
  have hplace : (1 / 2 - 1 / 2 ^ 54 : ℚ) * stepsPerOne = ((twoPow 1073 - twoPow 1020 : ℕ) : ℚ) := by
    rw [Nat.cast_sub hle, hhalf, hone]
    push_cast
    ring
  rw [h.exact_eq, div_eq_iff stepsPerOne_pos_rat.ne', hplace, Nat.cast_inj]

theorem roundsPast_iff (h : count.LiesAt units) : count.RoundsPast ↔ CarriesHalf units := by
  unfold RoundsPast CarriesHalf
  rw [h.exact_eq_last_below_half_iff]
  simp only [h.exact_eq_natCast_iff, Nat.odd_iff, twoPow_eq_pow]

theorem round_exact (h : count.LiesAt units) :
    round count.exact = ((units + twoPow 1073) / stepsPerOne : ℕ) := by
  rw [round_eq, h.exact_eq, half_eq_div, ← add_div, ← Nat.cast_add, Rat.floor_natCast_div_natCast,
    Int.natCast_ediv]

end LiesAt

theorem IsAmount.floor_add_half_eq {count : Binary64} {units : Nat} (h : count.IsAmount)
    (hplace : count.LiesAt units) : (count + half).floor =
      .ok ((roundedUnits (units + twoPow 1073) 1 / stepsPerOne : Nat) : Int) := by
  have hhalf : half.LiesAt (twoPow 1073) := by
    rw [half_eq]
    rfl
  have hsum := hplace.add hhalf
  have hfinite := h.add_half_isFinite
  have hlimit := hsum.isFinite_iff.mp hfinite
  rw [Nat.min_eq_left (by omega)] at hsum
  rw [hfinite.floor_eq, hsum.exact_eq, Rat.floor_natCast_div_natCast, Int.natCast_ediv]

theorem IsAmount.floor_add_half {count : Binary64} (h : count.IsAmount) :
    (¬count.RoundsPast → (count + half).floor = .ok (round count.exact)) ∧
      (count.RoundsPast → (count + half).floor = .ok (round count.exact + 1)) := by
  obtain ⟨size, hsize⟩ := h.exists_liesAt
  obtain ⟨hstays, hcarries⟩ := size.representable.whole_add_half
  rw [hsize.roundsPast_iff, hsize.round_exact, h.floor_add_half_eq hsize]
  exact ⟨fun hexact => by rw [hstays hexact], fun hcarry => by rw [hcarries hcarry]; rfl⟩

/-- A count is rounded to zero if it is below a half and not the last double below it. -/
theorem IsAmount.floor_add_half_eq_zero_iff {count : Binary64} (h : count.IsAmount) :
    (count + half).floor = .ok 0 ↔ count.exact < 1 / 2 ∧ count.exact ≠ 1 / 2 - 1 / 2 ^ 54 := by
  have hnonneg := h.exact_nonneg
  obtain ⟨hstays, hcarries⟩ := h.floor_add_half
  by_cases hpast : count.RoundsPast
  · have hround : 0 ≤ round count.exact := by
      rw [round_eq]
      exact Int.floor_nonneg.mpr (by linarith)
    rw [hcarries hpast]
    refine iff_of_false (fun hzero => ?_) ?_
    · have hwhole := Except.ok.inj hzero
      omega
    · rintro ⟨hbelow, hne⟩
      rcases hpast with hlast | ⟨whole, -, hlarge, -, hwhole⟩
      · exact hne hlast
      · have hone : (1 : ℚ) ≤ whole := Nat.one_le_cast.mpr (by omega)
        rw [hwhole] at hbelow
        linarith
  · have hne : count.exact ≠ 1 / 2 - 1 / 2 ^ 54 := fun hlast => hpast (.inl hlast)
    rw [hstays hpast, Except.ok.injEq, round_eq_iff, Set.mem_Ico]
    constructor
    · rintro ⟨-, hbelow⟩
      exact ⟨by simpa using hbelow, hne⟩
    · rintro ⟨hbelow, -⟩
      exact ⟨by push_cast; linarith, by simpa using hbelow⟩

end Binary64

theorem repeatCount_fixed_run {σ : Type} [RandomSource σ] {count : Binary64} {whole : Int}
    (h : (count + .half).floor = .ok whole) (source : σ) :
    (repeatCount .fixed count).run source = .ok whole source := by
  simp only [repeatCount, wholePart, h]
  rfl

namespace Session

variable {α : Type}

/-- In the mode `fixed` a count is rounded to the nearest whole number, halves going up, and no draw
is made; only where the sum with a half is rounded past the next whole number, the result is one
more. In every state of a session a registered repetition is reported to produce nothing if the
mode is `fixed` and its count is below a half, except for the last double below a half. -/
theorem fixed_counts_rounded (policy : LiteralPolicy α) (settings : Settings) (entropy : Twister)
    (steps : List (Step α)) (checked : Settings) :
    let reached := after policy settings entropy steps
    (∀ count : Binary64, count.IsAmount → ∃ nearest times : Int,
      (∀ whole : Int, whole = nearest ↔
        (whole : ℚ) - 1 / 2 ≤ count.exact ∧ count.exact < (whole : ℚ) + 1 / 2) ∧
      (¬count.RoundsPast → times = nearest) ∧ (count.RoundsPast → times = nearest + 1) ∧
      ∀ (σ : Type) [RandomSource σ] (source : σ),
        (repeatCount .fixed count).run source = .ok times source) ∧
    ∃ report, { reached.grammar with settings := checked }.validate = .ok report ∧
      ∀ id body count, reached.registry.Registers id (.repetition body count) →
        (.producesNothing id count ∈ report.cautions ↔
          checked.mode = .fixed ∧ count.exact < 1 / 2 ∧ count.exact ≠ 1 / 2 - 1 / 2 ^ 54) := by
  intro reached
  refine ⟨fun count hcount => ?_, ?_⟩
  · have hnearest : ∀ whole : Int, whole = round count.exact ↔
        (whole : ℚ) - 1 / 2 ≤ count.exact ∧ count.exact < (whole : ℚ) + 1 / 2 :=
      fun whole => eq_comm.trans round_eq_iff
    obtain ⟨hstays, hcarries⟩ := hcount.floor_add_half
    by_cases hpast : count.RoundsPast
    · exact ⟨_, round count.exact + 1, hnearest, absurd hpast, fun _ => rfl,
        fun _ _ => repeatCount_fixed_run (hcarries hpast)⟩
    · exact ⟨_, round count.exact, hnearest, fun _ => rfl, fun hcarry => absurd hcarry hpast,
        fun _ _ => repeatCount_fixed_run (hstays hpast)⟩
  · have hsound : reached.registry.IsSound := isSound_after policy settings entropy steps
    have hclosed : reached.registry.IsClosed := isClosed_after policy settings entropy steps
    obtain ⟨report, hreport⟩ := hsound.exists_report checked.mode
    obtain ⟨found, hfound, -, hcautions⟩ := Registry.report_eq hreport
    refine ⟨report, hreport, fun id body count hrepetition => ?_⟩
    have hcount := hsound.count_of_registers hrepetition
    rw [hcautions, Registry.mem_cautions_iff hfound,
      hsound.producesNothing_warranted_iff hclosed, ← hcount.floor_add_half_eq_zero_iff,
      ← hcount.repeats_zero_iff]
    exact and_congr_right fun _ =>
      ⟨fun ⟨_, _, hzero⟩ => hzero, fun hzero => ⟨body, hrepetition, hzero⟩⟩

/-- The last double below a half is rounded to one, so that nothing is reported. -/
theorem fixed_counts_rounded_of_last_below_half :
    let steps : List (Step String) := [.compile "s" "x # 0.49999999999999994"]
    let reached := after (.every id) {} (.ofSeed 0) steps
    let count : Binary64 := .ofRatio false (twoPow 1073 - twoPow 1020) 1
    count.IsAmount ∧ count.exact < 1 / 2 ∧
      (∀ (σ : Type) [RandomSource σ] (source : σ),
        (repeatCount .fixed count).run source = .ok 1 source) ∧
      reached.registry.Registers 1 (.repetition 0 count) ∧
      ∃ report, { reached.grammar with settings := {} }.validate = .ok report ∧
        .producesNothing 1 count ∉ report.cautions := by
  intro steps reached count
  have hamount : count.IsAmount := by
    unfold Binary64.IsAmount
    decide +kernel
  have hplace : count.LiesAt (twoPow 1073 - twoPow 1020) := by
    unfold Binary64.LiesAt
    decide +kernel
  have hexact : count.exact = 1 / 2 - 1 / 2 ^ 54 := hplace.exact_eq_last_below_half_iff.mpr rfl
  have hbelow : count.exact < 1 / 2 := by
    rw [hexact]
    norm_num
  have hrepetition : reached.registry.Registers 1 (.repetition 0 count) :=
    ⟨⟨"s", by decide +kernel⟩, by decide +kernel⟩
  obtain ⟨hcounts, report, hreport, hcautions⟩ :=
    fixed_counts_rounded (.every id) {} (.ofSeed 0) steps {}
  obtain ⟨nearest, times, hnearest, -, hpast, hrun⟩ := hcounts count hamount
  obtain rfl : 0 = nearest := (hnearest 0).mpr (by rw [hexact]; norm_num)
  obtain rfl : times = 1 := hpast (.inl hexact)
  exact ⟨hamount, hbelow, hrun, hrepetition, report, hreport,
    fun hwarned => ((hcautions 1 0 count hrepetition).mp hwarned).2.2 hexact⟩

end Session

end StochasticGrammar
