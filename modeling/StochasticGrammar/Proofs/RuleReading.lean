import StochasticGrammar.Proofs.CompositeForm
import StochasticGrammar.Proofs.OperandText

namespace StochasticGrammar

/-- A finite number that is not below zero. -/
def Binary64.IsAmount (value : Binary64) : Prop := value.IsFinite ∧ ¬value < 0

/-- The numbers of a composite are amounts, and a selection has options. -/
structure Composite.IsSound {ρ : Type} (shape : Composite ρ) : Prop where
  weights : ∀ weight ∈ shape.weights, weight.IsAmount
  count : ∀ count ∈ shape.count?, count.IsAmount
  options : shape.kind = .select → shape.operands ≠ []

theorem Composite.SameForm.isSound {ρ τ : Type} {first : Composite ρ} {second : Composite τ}
    (h : first.SameForm second) (hsound : first.IsSound) : second.IsSound := by
  refine ⟨?_, ?_, ?_⟩
  · rw [← h.weights_eq]
    exact hsound.weights
  · rw [← h.count_eq]
    exact hsound.count
  · intro hkind hempty
    refine hsound.options (h.kind_eq.trans hkind) (List.length_eq_zero_iff.mp ?_)
    rw [h.length_eq, hempty, List.length_nil]

theorem Composite.IsSound.checked_eq {ρ : Type} {shape : Composite ρ} (h : shape.IsSound) :
    shape.checked = .ok shape := by
  have hfault : shape.fault? = none := by
    cases shape with
    | fallback primary alternate => rfl
    | sequence elements => rfl
    | repetition body count =>
      have hcount := h.count count rfl
      simp [fault?, hcount.2]
    | select options =>
      have hne := h.options rfl
      cases options with
      | nil => exact absurd rfl hne
      | cons option rest =>
        have hweights := h.weights
        simp only [fault?, Option.map_eq_none_iff, List.find?_eq_none]
        intro weight hmem
        simpa using (hweights weight hmem).2
  simp [checked, hfault]

theorem bind_eq_ok {ε β γ : Type} {first : Except ε β} {next : β → Except ε γ} {result : γ}
    (h : first >>= next = .ok result) : ∃ value, first = .ok value ∧ next value = .ok result := by
  cases first with
  | ok value => exact ⟨value, rfl, h⟩
  | error reason => cases h

theorem map_ok_of_mapM {ε β γ : Type} {f : β → Except ε γ} {values : List β} {results : List γ}
    (h : values.mapM f = .ok results) : results.map Except.ok = values.map f := by
  induction values generalizing results with
  | nil => cases h; rfl
  | cons first rest ih =>
    rw [List.mapM_cons] at h
    obtain ⟨head, hhead, h⟩ := bind_eq_ok h
    obtain ⟨tail, htail, h⟩ := bind_eq_ok h
    cases h
    rw [List.map_cons, List.map_cons, hhead, ih htail]

theorem mem_iff_of_mapM {ε β γ : Type} {f : β → Except ε γ} {values : List β} {results : List γ}
    (h : values.mapM f = .ok results) {result : γ} :
    result ∈ results ↔ ∃ value ∈ values, f value = .ok result := by
  have hok : result ∈ results ↔ (.ok result : Except ε γ) ∈ results.map Except.ok := by simp
  rw [hok, map_ok_of_mapM h, List.mem_map]

namespace Rule

theorem isAmount_of_readNumber {role token : String} {value : Binary64}
    (h : readNumber role token = .ok value) : value.IsAmount := by
  unfold readNumber at h
  split at h
  next => cases h
  next decimal _ =>
    split at h
    next hamount => cases h; exact hamount
    next => cases h

theorem readOption_eq_ok {option : List Char} {name : String} {weight : Binary64}
    (h : readOption option = .ok (name, weight)) :
    weight.IsAmount ∧ name.toList <:+ option := by
  unfold readOption at h
  cases hsplit : splitFirst? [' '] option with
  | none =>
    simp only [hsplit, Option.getD_none] at h
    obtain ⟨number, hnumber, h⟩ := bind_eq_ok h
    cases h
  | some parts =>
    obtain ⟨token, rest⟩ := parts
    have happend := splitFirst?_eq_append hsplit
    simp only [hsplit, Option.getD_some] at h
    obtain ⟨number, hnumber, h⟩ := bind_eq_ok h
    split at h
    next => cases h
    next =>
      cases h
      refine ⟨isAmount_of_readNumber hnumber, ?_⟩
      rw [happend, String.toList_ofList]
      exact List.suffix_append _ rest

/-- How a text reads as a rule: the first operator that occurs in it decides. -/
inductive Reads (text : List Char) : Rule → Prop
  | fallback {primary alternate : List Char} :
      splitFirst? fallbackDelimiter text = some (primary, alternate) →
      Reads text (.composite (.fallback (String.ofList primary) (String.ofList alternate)))
  | sequence : splitFirst? fallbackDelimiter text = none →
      occursIn sequenceDelimiter text = true →
      Reads text (.composite (.sequence ((operands sequenceDelimiter text).map String.ofList)))
  | select {options : List (String × Binary64)} : splitFirst? fallbackDelimiter text = none →
      ¬occursIn sequenceDelimiter text = true → occursIn selectDelimiter text = true →
      (operands selectDelimiter text).mapM readOption = .ok options → options ≠ [] →
      Reads text (.composite (.select options))
  | repetition {body token : List Char} {count : Binary64} :
      splitFirst? fallbackDelimiter text = none → ¬occursIn sequenceDelimiter text = true →
      ¬occursIn selectDelimiter text = true →
      splitFirst? repetitionDelimiter text = some (body, token) →
      readNumber "repeat count" (String.ofList token) = .ok count →
      Reads text (.composite (.repetition (String.ofList body) count))
  | bare : splitFirst? fallbackDelimiter text = none → ¬occursIn sequenceDelimiter text = true →
      ¬occursIn selectDelimiter text = true → splitFirst? repetitionDelimiter text = none →
      Reads text (.bare (String.ofList text))

theorem reads_of_readChars {text : List Char} {rule : Rule} (h : readChars text = .ok rule) :
    Reads text rule := by
  unfold readChars at h
  split at h
  next primary alternate hfallback =>
    cases h
    exact .fallback hfallback
  next hfallback =>
    split at h
    next hsequence =>
      cases h
      exact .sequence hfallback hsequence
    next hsequence =>
      split at h
      next hselect =>
        obtain ⟨options, hoptions, h⟩ := bind_eq_ok h
        split at h
        next => cases h
        next hne =>
          cases h
          exact .select hfallback hsequence hselect hoptions (by simpa using hne)
      next hselect =>
        split at h
        next body token hrepetition =>
          obtain ⟨count, hcount, h⟩ := bind_eq_ok h
          cases h
          exact .repetition hfallback hsequence hselect hrepetition hcount
        next hrepetition =>
          cases h
          exact .bare hfallback hsequence hselect hrepetition

theorem Reads.isSound {text : List Char} {shape : Composite String}
    (h : Reads text (.composite shape)) : shape.IsSound := by
  cases h with
  | fallback _ =>
    exact ⟨by simp [Composite.weights], by simp [Composite.count?], by simp [Composite.kind]⟩
  | sequence _ _ =>
    exact ⟨by simp [Composite.weights], by simp [Composite.count?], by simp [Composite.kind]⟩
  | repetition _ _ _ _ hcount =>
    refine ⟨by simp [Composite.weights], ?_, by simp [Composite.kind]⟩
    intro value hvalue
    cases hvalue
    exact isAmount_of_readNumber hcount
  | select _ _ _ hoptions hne =>
    refine ⟨?_, by simp [Composite.count?], ?_⟩
    · intro weight hmem
      obtain ⟨option, hoption, rfl⟩ := List.mem_map.mp hmem
      obtain ⟨operand, _, hread⟩ := (mem_iff_of_mapM hoptions).mp hoption
      exact (readOption_eq_ok hread).1
    · intro _ hempty
      exact hne (List.map_eq_nil_iff.mp hempty)

theorem Reads.length_add_le {text : List Char} {shape : Composite String}
    (h : Reads text (.composite shape)) {reference : String} (hmem : reference ∈ shape.operands) :
    reference.length + 3 ≤ text.length := by
  cases h with
  | fallback hsplit =>
    have hlength := congrArg List.length (splitFirst?_eq_append hsplit)
    simp only [fallbackDelimiter, List.length_append, List.length_cons, List.length_nil] at hlength
    simp only [Composite.operands, List.mem_cons, List.not_mem_nil, or_false] at hmem
    rcases hmem with rfl | rfl
    · rw [String.length_ofList]; omega
    · rw [String.length_ofList]; omega
  | sequence _ hoccurs =>
    obtain ⟨operand, hoperand, rfl⟩ := List.mem_map.mp hmem
    have hle := length_operandsFrom_add_le hoccurs (by decide) hoperand
    rw [String.length_ofList]
    simpa [sequenceDelimiter] using hle
  | select _ _ hoccurs hoptions _ =>
    obtain ⟨option, hoption, rfl⟩ := List.mem_map.mp hmem
    obtain ⟨operand, hoperand, hread⟩ := (mem_iff_of_mapM hoptions).mp hoption
    have hname := (readOption_eq_ok hread).2.length_le
    rw [String.length_toList] at hname
    have hle := length_operandsFrom_add_le hoccurs (by decide) hoperand
    simp only [selectDelimiter, Option.elim_none, List.length_cons, List.length_nil] at hle
    omega
  | repetition _ _ _ hsplit _ =>
    have hlength := congrArg List.length (splitFirst?_eq_append hsplit)
    simp only [repetitionDelimiter, List.length_append, List.length_cons, List.length_nil] at hlength
    obtain rfl := List.mem_singleton.mp hmem
    rw [String.length_ofList]
    omega

theorem read_eq_bare {text name : String} (h : read text = .ok (.bare name)) : name = text := by
  cases reads_of_readChars h with
  | bare _ _ _ _ => exact String.ofList_toList

/-- A composite that can be read has usable numbers and operands shorter than its text. -/
theorem read_eq_composite {text : String} {shape : Composite String}
    (h : read text = .ok (.composite shape)) :
    shape.IsSound ∧ ∀ reference ∈ shape.operands, reference.length + 3 ≤ text.length := by
  have hreads := reads_of_readChars h
  refine ⟨hreads.isSound, fun reference hmem => ?_⟩
  have hle := hreads.length_add_le hmem
  rwa [String.length_toList] at hle

end Rule

end StochasticGrammar
