import StochasticGrammar.Proofs.ExpansionSuccess
import StochasticGrammar.Proofs.SignRules
import StochasticGrammar.Validation

namespace StochasticGrammar

variable {ρ : Type}

/-- Options together with their numbers, from one. -/
def numbered (options : List (ρ × Binary64)) : List ((ρ × Nat) × Binary64) :=
  (options.zipIdx 1).map fun option => ((option.1.1, option.2), option.1.2)

theorem mem_numbered_iff {options : List (ρ × Binary64)} {operand : ρ} {number : Nat}
    {weight : Binary64} :
    ((operand, number), weight) ∈ numbered options ↔
      1 ≤ number ∧ options[number - 1]? = some (operand, weight) := by
  have hzip := @List.mk_mem_zipIdx_iff_le_and_getElem?_sub _ 1 number (operand, weight) options
  rw [← hzip]
  unfold numbered
  constructor
  · intro h
    obtain ⟨⟨option, place⟩, hmem, heq⟩ := List.mem_map.mp h
    cases heq
    exact hmem
  · exact fun h => List.mem_map.mpr ⟨((operand, weight), number), h, rfl⟩

theorem map_numbered (options : List (ρ × Binary64)) :
    (numbered options).map (fun option => (option.1.1, option.2)) = options := by
  unfold numbered
  rw [List.map_map]
  exact List.zipIdx_map_fst 1 options

theorem weights_numbered (options : List (ρ × Binary64)) :
    (numbered options).map Prod.snd = options.map Prod.snd := by
  rw [← map_numbered options, List.map_map, map_numbered]
  rfl

theorem totalWeight_numbered (options : List (ρ × Binary64)) :
    totalWeight (numbered options) = totalWeight options := by
  unfold totalWeight
  rw [weights_numbered]

theorem mem_deadOptions_iff {options : List (ρ × Binary64)} {number : Nat} :
    number ∈ Registry.deadOptions options ↔
      ∃ operand weight, ((operand, number), weight) ∈ numbered options ∧ weight.IsZero := by
  unfold Registry.deadOptions numbered
  simp only [List.mem_filterMap, List.mem_map]
  constructor
  · rintro ⟨⟨⟨operand, weight⟩, place⟩, hmem, hnumber⟩
    split at hnumber
    next hzero =>
      cases hnumber
      exact ⟨operand, weight, ⟨_, hmem, rfl⟩, hzero⟩
    next => cases hnumber
  · rintro ⟨operand, weight, ⟨option, hmem, heq⟩, hzero⟩
    cases heq
    exact ⟨option, hmem, if_pos hzero⟩

theorem nodup_deadOptions (options : List (ρ × Binary64)) :
    (Registry.deadOptions options).Nodup := by
  have hnumbers : ((options.zipIdx 1).map Prod.snd).Nodup := by
    rw [List.zipIdx_map_snd]
    exact List.nodup_range'
  refine List.pairwise_filterMap.mpr ((List.pairwise_map.mp hnumbers).imp ?_)
  intro first second hne number hnumber other hother
  split at hnumber <;> split at hother <;> cases hnumber <;> cases hother
  exact hne

/-- An option of weight zero leaves the running total where it was, so that no draw is passed
there. -/
theorem exists_not_isZero_of_optionAt? {draw : Binary64} {options : List (ρ × Binary64)}
    {option : ρ} (hdraw : ¬draw < 0) (h : optionAt? options draw = some option) :
    ∃ weight, (option, weight) ∈ options ∧ ¬weight.IsZero := by
  obtain ⟨weight, hmem, hpos | ⟨passed, habove, hpassed⟩⟩ := exists_of_optionAt? h
  · exact ⟨weight, hmem, Binary64.not_isZero_of_pos hpos⟩
  · refine ⟨weight, hmem, fun hzero => ?_⟩
    have hless := (Binary64.lt_add_iff_of_isZero hzero).mp habove
    rcases hpassed with rfl | hbelow
    · exact hdraw hless
    · exact hbelow hless

/-- Some draw stops at the option of a number. -/
def StopsAt (options : List (ρ × Binary64)) (number : Nat) : Prop :=
  ∃ (σ : Type) (_ : RandomSource σ) (source after : σ) (operand : ρ),
    (RandomSource.draw source).1.IsDraw ∧
      (chooseOption (numbered options)).run source = .ok (operand, number) after

/-- Every draw ends in the error that no option has a positive weight. -/
def NeverChooses (options : List (ρ × Binary64)) : Prop :=
  ∀ (σ : Type) [RandomSource σ] (source : σ), (RandomSource.draw source).1.IsDraw →
    ∃ after, (chooseOption options).run source = .error .deadSelect after

/-- The choice of an option is the choice of a numbered option without its number. -/
theorem chooseOption_numbered {σ : Type} [RandomSource σ] (options : List (ρ × Binary64)) :
    (chooseOption options : Sampling σ ρ) =
      chooseOption (numbered options) >>= fun option => return option.1 := by
  rw [← chooseOption_map Prod.fst, map_numbered]

theorem not_stopsAt_of_isZero {options : List (ρ × Binary64)} {operand : ρ} {number : Nat}
    {weight : Binary64} (hmem : ((operand, number), weight) ∈ numbered options)
    (hzero : weight.IsZero) : ¬StopsAt options number := by
  rintro ⟨σ, _, source, after, chosen, hdraw, hrun⟩
  obtain ⟨htotal, hoption⟩ := chooseOption_eq_ok hrun
  obtain ⟨other, hother, hweight⟩ :=
    exists_not_isZero_of_optionAt? (hdraw.not_mul_lt_zero htotal) hoption
  have hsame := (mem_numbered_iff.mp hmem).2.symm.trans (mem_numbered_iff.mp hother).2
  cases hsame
  exact hweight hzero

variable {options : List (ρ × Binary64)}

/-- The total weight alone decides whether a choice fails, for all draws at once. -/
theorem neverChooses_iff (hamounts : ∀ weight ∈ options.map Prod.snd, weight.IsAmount) :
    NeverChooses options ↔ totalWeight options ≤ 0 := by
  constructor
  · intro h
    by_contra htotal
    obtain ⟨after, hrun⟩ := h Script (.ofList [0]) Binary64.isDraw_zero
    obtain ⟨option, last, hok⟩ := chooseOption_succeeds hamounts htotal (Script.ofList [0])
    rw [hrun] at hok
    cases hok
  · intro htotal σ _ source _
    refine ⟨source, ?_⟩
    unfold chooseOption
    simp only [if_pos htotal]
    rfl

/-- What does not fail for every draw stops at some option for some draw. -/
theorem neverChooses_iff_not_stopsAt
    (hamounts : ∀ weight ∈ options.map Prod.snd, weight.IsAmount) :
    NeverChooses options ↔ ∀ number, ¬StopsAt options number := by
  constructor
  · rintro h number ⟨σ, _, source, after, operand, hdraw, hrun⟩
    obtain ⟨failed, herror⟩ := h σ source hdraw
    rw [chooseOption_numbered, run_bind_of_ok hrun] at herror
    cases herror
  · intro h
    refine (neverChooses_iff hamounts).mpr ?_
    by_contra htotal
    have hnumbered : ¬totalWeight (numbered options) ≤ 0 := by rwa [totalWeight_numbered]
    rw [← weights_numbered options] at hamounts
    obtain ⟨⟨operand, number⟩, after, hrun⟩ :=
      chooseOption_succeeds hamounts hnumbered (Script.ofList [0])
    exact h number ⟨Script, inferInstance, .ofList [0], after, operand, Binary64.isDraw_zero, hrun⟩

end StochasticGrammar
