import StochasticGrammar.Rule.Parse
import Mathlib.Data.List.Basic

namespace StochasticGrammar

theorem splitFirst?_eq_append {delimiter text before after : List Char}
    (h : splitFirst? delimiter text = some (before, after)) :
    text = before ++ delimiter ++ after := by
  induction text generalizing before with
  | nil =>
    unfold splitFirst? at h
    split at h
    next hempty =>
      cases Option.some.inj h
      simpa using hempty
    next => simp at h
  | cons c rest ih =>
    unfold splitFirst? at h
    split at h
    next hinitial =>
      cases Option.some.inj h
      simpa using (List.prefix_iff_eq_append.mp (List.isPrefixOf_iff_prefix.mp hinitial)).symm
    next =>
      obtain ⟨parts, hparts, heq⟩ := Option.map_eq_some_iff.mp h
      cases heq
      simp [ih hparts]

theorem splitFirst?_eq_none_iff {delimiter text : List Char} :
    splitFirst? delimiter text = none ↔ ¬delimiter <:+: text := by
  induction text with
  | nil => simp [splitFirst?]
  | cons c rest ih =>
    rw [splitFirst?, List.infix_cons_iff, ← List.isPrefixOf_iff_prefix]
    split
    next hinitial => simp [hinitial]
    next hinitial => simpa [hinitial] using ih

theorem occursIn_iff_isInfix {delimiter text : List Char} :
    occursIn delimiter text = true ↔ delimiter <:+: text := by
  unfold occursIn
  rw [Option.isSome_iff_ne_none, ne_eq, splitFirst?_eq_none_iff, not_not]

/-- A text is cut at the first occurrence of a delimiter. -/
theorem not_isPrefix_drop_of_splitFirst? {delimiter text before after : List Char}
    (h : splitFirst? delimiter text = some (before, after)) {place : Nat}
    (hplace : place < before.length) : ¬delimiter <+: text.drop place := by
  induction text generalizing before place with
  | nil =>
    unfold splitFirst? at h
    split at h
    next =>
      cases Option.some.inj h
      exact absurd hplace (Nat.not_lt_zero place)
    next => cases h
  | cons c rest ih =>
    unfold splitFirst? at h
    split at h
    next =>
      cases Option.some.inj h
      exact absurd hplace (Nat.not_lt_zero place)
    next hinitial =>
      obtain ⟨parts, hparts, heq⟩ := Option.map_eq_some_iff.mp h
      cases heq
      cases place with
      | zero => exact fun hprefix => hinitial (List.isPrefixOf_iff_prefix.mpr hprefix)
      | succ place => exact ih hparts (Nat.lt_of_succ_lt_succ hplace)

/-- A delimiter that does not begin inside the first part of a text is no part of it. -/
theorem not_isInfix_of_not_isPrefix_drop {delimiter before after : List Char}
    (hne : delimiter ≠ [])
    (h : ∀ place < before.length, ¬delimiter <+: (before ++ after).drop place) :
    ¬delimiter <:+: before := by
  rintro ⟨earlier, later, rfl⟩
  refine h earlier.length ?_ ?_
  · have hpos := List.length_pos_iff.mpr hne
    simp only [List.length_append]
    omega
  · simp only [List.append_assoc, List.drop_left]
    exact List.prefix_append delimiter _

theorem not_isInfix_of_splitFirst? {delimiter text before after : List Char}
    (hne : delimiter ≠ []) (h : splitFirst? delimiter text = some (before, after)) :
    ¬delimiter <:+: before := by
  have happend := splitFirst?_eq_append h
  rw [List.append_assoc] at happend
  have hfirst : ∀ place < before.length,
      ¬delimiter <+: (before ++ (delimiter ++ after)).drop place := by
    rw [← happend]
    exact fun _ hplace => not_isPrefix_drop_of_splitFirst? h hplace
  exact not_isInfix_of_not_isPrefix_drop hne hfirst

theorem occursIn_of_cons {delimiter rest : List Char} {c : Char}
    (hinitial : delimiter.isPrefixOf (c :: rest) ≠ true)
    (h : occursIn delimiter (c :: rest) = true) : occursIn delimiter rest = true := by
  unfold occursIn at h ⊢
  rw [splitFirst?, if_neg hinitial, Option.isSome_map] at h
  exact h

theorem not_isPrefixOf_of_not_mem {delimiter : List Char} (hne : delimiter ≠ []) {c : Char}
    (hc : c ∉ delimiter) (rest : List Char) : ¬delimiter.isPrefixOf (c :: rest) = true := by
  obtain ⟨d, tail, rfl⟩ := List.exists_cons_of_ne_nil hne
  have hd : d ≠ c := fun heq => hc (by simp [heq])
  simp [List.isPrefixOf, hd]

/-- Characters of the delimiter in front of an operand are skipped. -/
theorem operandsFrom_append_of_subset {delimiter skipped : List Char}
    (h : ∀ c ∈ skipped, c ∈ delimiter) (rest : List Char) :
    operandsFrom delimiter none (skipped ++ rest) = operandsFrom delimiter none rest := by
  induction skipped with
  | nil => rfl
  | cons c skipped ih =>
    have hc := h c (by simp)
    simp only [List.cons_append, operandsFrom, hc, ↓reduceIte]
    exact ih fun d hd => h d (by simp [hd])

theorem length_operandsFrom_le {delimiter : List Char} {current : Option (List Char)}
    {text operand : List Char} (h : operand ∈ operandsFrom delimiter current text) :
    operand.length ≤ (current.elim 0 List.length) + text.length := by
  fun_induction operandsFrom delimiter current text with
  | case1 => simp at h
  | case2 current => simp_all
  | case3 c rest hc ih =>
    have hle := ih h
    simp only [Option.elim_none, List.length_cons] at hle ⊢
    omega
  | case4 c rest hc ih =>
    have hle := ih h
    simp only [Option.elim_some, Option.elim_none, List.length_cons, List.length_nil] at hle ⊢
    omega
  | case5 current c rest hinitial ih =>
    rcases List.mem_cons.mp h with rfl | hrest
    · simp
    · have hle := ih hrest
      simp only [Option.elim_some, Option.elim_none, List.length_cons] at hle ⊢
      omega
  | case6 current c rest hinitial ih =>
    have hle := ih h
    simp only [Option.elim_some, List.length_cons] at hle ⊢
    omega

theorem length_operandsFrom_add_le_of_prefix {delimiter text operand : List Char}
    (hinitial : delimiter.isPrefixOf text = true)
    (h : operand ∈ operandsFrom delimiter none text) :
    operand.length + delimiter.length ≤ text.length := by
  obtain ⟨rest, rfl⟩ := List.isPrefixOf_iff_prefix.mp hinitial
  rw [operandsFrom_append_of_subset (fun _ hc => hc)] at h
  have hle := length_operandsFrom_le h
  simp only [Option.elim_none, List.length_append] at hle ⊢
  omega

theorem length_operandsFrom_add_le {delimiter : List Char} {current : Option (List Char)}
    {text operand : List Char} (hoccurs : occursIn delimiter text = true)
    (hne : delimiter ≠ [])
    (h : operand ∈ operandsFrom delimiter current text) :
    operand.length + delimiter.length ≤ (current.elim 0 List.length) + text.length := by
  fun_induction operandsFrom delimiter current text with
  | case1 => simp at h
  | case2 current => simp [occursIn, splitFirst?, hne] at hoccurs
  | case3 c rest hc ih =>
    by_cases hinitial : delimiter.isPrefixOf (c :: rest) = true
    · have hmem : operand ∈ operandsFrom delimiter none (c :: rest) := by
        simpa only [operandsFrom, hc, ↓reduceIte] using h
      simpa using length_operandsFrom_add_le_of_prefix hinitial hmem
    · have hle := ih (occursIn_of_cons hinitial hoccurs) h
      simp only [Option.elim_none, List.length_cons] at hle ⊢
      omega
  | case4 c rest hc ih =>
    have hle := ih (occursIn_of_cons (not_isPrefixOf_of_not_mem hne hc rest) hoccurs) h
    simp only [Option.elim_some, Option.elim_none, List.length_cons, List.length_nil] at hle ⊢
    omega
  | case5 current c rest hinitial ih =>
    have hwhole := List.IsPrefix.length_le (List.isPrefixOf_iff_prefix.mp hinitial)
    rcases List.mem_cons.mp h with rfl | hrest
    · simp only [Option.elim_some, List.length_reverse]
      omega
    · obtain ⟨d, tail, rfl⟩ := List.exists_cons_of_ne_nil hne
      obtain ⟨later, hlater⟩ := List.isPrefixOf_iff_prefix.mp hinitial
      obtain ⟨rfl, rfl⟩ := List.cons.inj hlater
      change operand ∈ operandsFrom (d :: tail) none (tail ++ later) at hrest
      rw [operandsFrom_append_of_subset (fun c hc => List.mem_cons_of_mem d hc)] at hrest
      have hle := length_operandsFrom_le hrest
      simp only [Option.elim_some, Option.elim_none, List.length_cons, List.append_eq,
        List.length_append] at hle ⊢
      omega
  | case6 current c rest hinitial ih =>
    have hle := ih (occursIn_of_cons hinitial hoccurs) h
    simp only [Option.elim_some, List.length_cons] at hle ⊢
    omega

end StochasticGrammar
