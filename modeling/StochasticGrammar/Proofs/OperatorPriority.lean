import StochasticGrammar.Proofs.OperandFactorisation
import StochasticGrammar.Proofs.RuleReading

namespace StochasticGrammar

/-- How weakly the operator of a rule binds. The weakest that occurs in a text decides. -/
def RuleKind.priority : RuleKind → Nat
  | fallback => 4
  | sequence => 3
  | select => 2
  | repetition => 1
  | reference => 0

/-- The operator of a rule. That of a bare rule is empty, so it occurs in every text. -/
def RuleKind.operator : RuleKind → List Char
  | fallback => Rule.fallbackDelimiter
  | sequence => Rule.sequenceDelimiter
  | select => Rule.selectDelimiter
  | repetition => Rule.repetitionDelimiter
  | reference => []

theorem RuleKind.eq_of_priority_eq {first second : RuleKind}
    (h : first.priority = second.priority) : first = second := by
  cases first <;> cases second <;> first | rfl | cases h

theorem RuleKind.priority_le (kind : RuleKind) : kind.priority ≤ RuleKind.fallback.priority := by
  cases kind <;> decide

theorem RuleKind.priority_lt_of_ne {kind : RuleKind} (h : kind ≠ .fallback) :
    kind.priority < RuleKind.fallback.priority :=
  Nat.lt_of_le_of_ne kind.priority_le fun heq => h (eq_of_priority_eq heq)

/-- The delimiters in a text after some characters are skipped, counted from left to right without
overlaps. -/
def occurrencesFrom (delimiter : List Char) : Nat → List Char → Nat
  | _, [] => 0
  | skip + 1, _ :: rest => occurrencesFrom delimiter skip rest
  | 0, c :: rest =>
    if delimiter.isPrefixOf (c :: rest) then
      occurrencesFrom delimiter (delimiter.length - 1) rest + 1
    else occurrencesFrom delimiter 0 rest

def arrows (text : String) : Nat := occurrencesFrom Rule.fallbackDelimiter 0 text.toList

section Occurrences

variable {delimiter : List Char}

theorem occurrencesFrom_eq_drop (skip : Nat) (text : List Char) :
    occurrencesFrom delimiter skip text = occurrencesFrom delimiter 0 (text.drop skip) := by
  induction text generalizing skip with
  | nil => cases skip <;> rfl
  | cons c rest ih =>
    cases skip with
    | zero => rfl
    | succ skip => rw [occurrencesFrom, ih, List.drop_succ_cons]

theorem occurrencesFrom_le_length (skip : Nat) (text : List Char) :
    occurrencesFrom delimiter skip text ≤ text.length := by
  fun_induction occurrencesFrom delimiter skip text with
  | case1 => exact Nat.le_refl 0
  | case2 skip c rest ih => exact Nat.le_succ_of_le ih
  | case3 c rest _ ih => exact Nat.succ_le_succ ih
  | case4 c rest _ ih => exact Nat.le_succ_of_le ih

theorem occurrencesFrom_eq_zero {text : List Char} (h : splitFirst? delimiter text = none) :
    occurrencesFrom delimiter 0 text = 0 := by
  induction text with
  | nil => rfl
  | cons c rest ih =>
    unfold splitFirst? at h
    split at h
    next => cases h
    next hinitial =>
      rw [occurrencesFrom, if_neg hinitial]
      exact ih (Option.map_eq_none_iff.mp h)

theorem occurrencesFrom_eq_succ (hne : delimiter ≠ []) {text before after : List Char}
    (h : splitFirst? delimiter text = some (before, after)) :
    occurrencesFrom delimiter 0 text = occurrencesFrom delimiter 0 after + 1 := by
  induction text generalizing before with
  | nil => simp [splitFirst?, hne] at h
  | cons c rest ih =>
    unfold splitFirst? at h
    split at h
    next hinitial =>
      cases Option.some.inj h
      have hlength : delimiter.length = delimiter.length - 1 + 1 :=
        (Nat.sub_add_cancel (List.length_pos_iff.mpr hne)).symm
      rw [occurrencesFrom, if_pos hinitial, occurrencesFrom_eq_drop]
      conv_rhs => rw [hlength, List.drop_succ_cons]
    next hinitial =>
      obtain ⟨parts, hparts, heq⟩ := Option.map_eq_some_iff.mp h
      cases heq
      rw [occurrencesFrom, if_neg hinitial]
      exact ih hparts

end Occurrences

namespace Rule

variable {text : List Char} {rule : Rule} {shape : Composite String}

theorem Reads.operator_isInfix (h : Reads text rule) : rule.kind.operator <:+: text := by
  cases h with
  | fallback hsplit =>
    rw [splitFirst?_eq_append hsplit]
    exact List.infix_append _ fallbackDelimiter _
  | sequence _ hsequence => exact occursIn_iff_isInfix.mp hsequence
  | select _ _ hselect _ _ => exact occursIn_iff_isInfix.mp hselect
  | repetition _ _ _ hsplit _ =>
    rw [splitFirst?_eq_append hsplit]
    exact List.infix_append _ repetitionDelimiter _
  | bare _ _ _ _ => exact List.nil_infix

/-- No operator that is weaker than the one that decided occurs in the text. -/
theorem Reads.not_isInfix (h : Reads text rule) {kind : RuleKind}
    (hweaker : rule.kind.priority < kind.priority) : ¬kind.operator <:+: text := by
  have hnone : ∀ {delimiter}, splitFirst? delimiter text = none → ¬delimiter <:+: text :=
    splitFirst?_eq_none_iff.mp
  have hnot : ∀ {delimiter}, ¬occursIn delimiter text = true → ¬delimiter <:+: text :=
    fun h hwithin => h (occursIn_iff_isInfix.mpr hwithin)
  cases h with
  | fallback _ =>
    change 4 < kind.priority at hweaker
    cases kind <;> exact absurd hweaker (by decide)
  | sequence hfallback _ =>
    change 3 < kind.priority at hweaker
    cases kind with
    | fallback => exact hnone hfallback
    | _ => exact absurd hweaker (by decide)
  | select hfallback hsequence _ _ _ =>
    change 2 < kind.priority at hweaker
    cases kind with
    | fallback => exact hnone hfallback
    | sequence => exact hnot hsequence
    | _ => exact absurd hweaker (by decide)
  | repetition hfallback hsequence hselect _ _ =>
    change 1 < kind.priority at hweaker
    cases kind with
    | fallback => exact hnone hfallback
    | sequence => exact hnot hsequence
    | select => exact hnot hselect
    | _ => exact absurd hweaker (by decide)
  | bare hfallback hsequence hselect hrepetition =>
    change 0 < kind.priority at hweaker
    cases kind with
    | fallback => exact hnone hfallback
    | sequence => exact hnot hsequence
    | select => exact hnot hselect
    | repetition => exact hnone hrepetition
    | reference => exact absurd hweaker (by decide)

/-- Operands are parts of the text, and hold no operator of the rule except for the alternate of a
fallback. -/
theorem Reads.isInfix_operand (h : Reads text (.composite shape)) {place : Nat}
    {reference : String} (hplace : shape.operands[place]? = some reference) :
    reference.toList <:+: text ∧
      (shape.kind.operator <:+: reference.toList → shape.kind = .fallback ∧ place = 1) := by
  have hmem : reference ∈ shape.operands := List.mem_of_getElem? hplace
  cases h with
  | @fallback primary alternate hsplit =>
    have happend := splitFirst?_eq_append hsplit
    cases place with
    | zero =>
      obtain rfl := Option.some.inj hplace
      have hnowhere := not_isInfix_of_splitFirst? (by decide) hsplit
      rw [String.toList_ofList]
      refine ⟨?_, fun hoperator => absurd hoperator hnowhere⟩
      rw [happend, List.append_assoc]
      exact (List.prefix_append _ _).isInfix
    | succ place =>
      cases place with
      | zero =>
        obtain rfl := Option.some.inj hplace
        rw [String.toList_ofList, happend]
        exact ⟨(List.suffix_append _ alternate).isInfix, fun _ => ⟨rfl, rfl⟩⟩
      | succ place => cases hplace
  | sequence _ _ =>
    obtain ⟨operand, hoperand, rfl⟩ := List.mem_map.mp hmem
    obtain ⟨hwithin, hnowhere⟩ := isInfix_of_mem_operands (by decide) hoperand
    rw [String.toList_ofList]
    exact ⟨hwithin, fun hoperator => absurd hoperator hnowhere⟩
  | select _ _ _ hoptions _ =>
    obtain ⟨option, hoption, rfl⟩ := List.mem_map.mp hmem
    obtain ⟨operand, hoperand, hread⟩ := (mem_iff_of_mapM hoptions).mp hoption
    obtain ⟨hwithin, hnowhere⟩ := isInfix_of_mem_operands (by decide) hoperand
    have hname := (readOption_eq_ok hread).2.isInfix
    exact ⟨hname.trans hwithin, fun hoperator => absurd (hoperator.trans hname) hnowhere⟩
  | repetition _ _ _ hsplit _ =>
    obtain rfl := List.mem_singleton.mp hmem
    have hnowhere := not_isInfix_of_splitFirst? (by decide) hsplit
    rw [String.toList_ofList]
    refine ⟨?_, fun hoperator => absurd hoperator hnowhere⟩
    rw [splitFirst?_eq_append hsplit, List.append_assoc]
    exact (List.prefix_append _ _).isInfix

/-- What an operand denotes binds more strongly than the rule, unless it is the alternate of a
fallback and a fallback itself. -/
theorem Reads.priority_lt (h : Reads text (.composite shape)) {place : Nat} {reference : String}
    (hplace : shape.operands[place]? = some reference) {operand : Rule}
    (hoperand : Reads reference.toList operand) :
    operand.kind.priority < shape.kind.priority ∨
      (shape.kind = .fallback ∧ place = 1 ∧ operand.kind = .fallback) := by
  obtain ⟨hwithin, hown⟩ := h.isInfix_operand hplace
  have hoperator := hoperand.operator_isInfix
  rcases Nat.lt_trichotomy operand.kind.priority shape.kind.priority with hless | heq | hmore
  · exact .inl hless
  · have hkind := RuleKind.eq_of_priority_eq heq
    obtain ⟨hshape, hlast⟩ := hown (hkind ▸ hoperator)
    exact .inr ⟨hshape, hlast, hkind.trans hshape⟩
  · exact absurd (hoperator.trans hwithin) (h.not_isInfix hmore)

theorem arrows_eq_zero {text : String} (h : Reads text.toList rule) (hkind : rule.kind ≠ .fallback) :
    arrows text = 0 :=
  occurrencesFrom_eq_zero
    (splitFirst?_eq_none_iff.mpr (h.not_isInfix (RuleKind.priority_lt_of_ne hkind)))

/-- The first arrow is the one that the alternate of a fallback comes after. -/
theorem exists_alternate {text : String} (h : Reads text.toList (.composite shape))
    (hshape : shape.kind = .fallback) :
    ∃ alternate, shape.operands[1]? = some alternate ∧ arrows text = arrows alternate + 1 ∧
      alternate.length + 4 ≤ text.length := by
  cases h with
  | @fallback primary alternate hsplit =>
    refine ⟨String.ofList alternate, rfl, ?_, ?_⟩
    · unfold arrows
      rw [String.toList_ofList]
      exact occurrencesFrom_eq_succ (by decide) hsplit
    · have hlength := congrArg List.length (splitFirst?_eq_append hsplit)
      simp only [fallbackDelimiter, List.length_append, List.length_cons, List.length_nil,
        String.length_toList] at hlength
      rw [String.length_ofList]
      omega
  | sequence _ _ => cases hshape
  | select _ _ _ _ _ => cases hshape
  | repetition _ _ _ _ _ => cases hshape

end Rule

end StochasticGrammar
