import StochasticGrammar.Proofs.OperandText

namespace StochasticGrammar

/-- A text as gaps and operands in turn: an opening gap, then operands, each with the gap after
it. -/
structure Factorisation where
  opening : List Char
  parts : List (List Char × List Char)

/-- Operands and their gaps, one after the other. -/
def textOf (parts : List (List Char × List Char)) : List Char :=
  parts.flatMap fun part => part.1 ++ part.2

theorem textOf_cons (operand gap : List Char) (later : List (List Char × List Char)) :
    textOf ((operand, gap) :: later) = operand ++ (gap ++ textOf later) := by
  rw [textOf, List.flatMap_cons, List.append_assoc]
  rfl

/-- An operand with the gap after it, followed by later ones. The first delimiter from the start of
the operand on stands at its end, and without any it reaches the end of the text. -/
structure IsCut (delimiter operand gap : List Char) (later : List (List Char × List Char)) :
    Prop where
  starts : ∃ c rest, operand = c :: rest ∧ c ∉ delimiter
  gap_subset : gap ⊆ delimiter
  ends : (delimiter <+: gap ∧ ∀ place < operand.length,
      ¬delimiter <+: (operand ++ (gap ++ textOf later)).drop place) ∨
    (gap = [] ∧ later = [] ∧ ¬delimiter <:+: operand)

namespace Factorisation

def operands (factors : Factorisation) : List (List Char) := factors.parts.map Prod.fst

/-- The factors are those of a text, and every operand is cut where it should be. -/
structure Fits (delimiter text : List Char) (factors : Factorisation) : Prop where
  text_eq : factors.opening ++ textOf factors.parts = text
  opening_subset : factors.opening ⊆ delimiter
  cuts : ∀ operand gap later, (operand, gap) :: later <:+ factors.parts →
    IsCut delimiter operand gap later

end Factorisation

variable {delimiter : List Char}

theorem takeWhile_append_of_subset {skipped rest : List Char} (h : skipped ⊆ delimiter)
    (hrest : ∀ c ∈ rest.head?, c ∉ delimiter) :
    (skipped ++ rest).takeWhile (· ∈ delimiter) = skipped := by
  rw [List.takeWhile_append_of_pos fun c hc => decide_eq_true (h hc)]
  cases rest with
  | nil => exact List.append_nil skipped
  | cons c tail =>
    rw [List.takeWhile_cons_of_neg (by simpa using hrest c rfl), List.append_nil]

theorem IsCut.head?_not_mem {operand gap : List Char} {later : List (List Char × List Char)}
    (h : IsCut delimiter operand gap later) (rest : List Char) :
    ∀ c ∈ (operand ++ rest).head?, c ∉ delimiter := by
  obtain ⟨first, tail, rfl, hfirst⟩ := h.starts
  intro c hc
  obtain rfl := Option.some.inj hc
  exact hfirst

/-- Two operands that begin the same text in the same place are of one length: neither goes past the
delimiter that ends the other. -/
theorem IsCut.length_le {operand gap other space : List Char}
    {later further : List (List Char × List Char)} (h : IsCut delimiter operand gap later)
    (h' : IsCut delimiter other space further)
    (heq : operand ++ (gap ++ textOf later) = other ++ (space ++ textOf further)) :
    operand.length ≤ other.length := by
  rcases h'.ends with ⟨hspace, _⟩ | ⟨rfl, rfl, _⟩
  · have hthere : delimiter <+: (operand ++ (gap ++ textOf later)).drop other.length := by
      rw [heq, List.drop_left]
      exact hspace.trans (List.prefix_append space _)
    rcases h.ends with ⟨_, hfirst⟩ | ⟨rfl, rfl, hnowhere⟩
    · by_contra hshorter
      exact hfirst other.length (Nat.lt_of_not_le hshorter) hthere
    · rw [textOf, List.flatMap_nil, List.append_nil, List.append_nil] at hthere
      exact absurd (hthere.isInfix.trans (List.drop_suffix _ _).isInfix) hnowhere
  · have hlength := congrArg List.length heq
    simp only [textOf, List.flatMap_nil, List.length_append, List.length_nil] at hlength
    omega

namespace Factorisation.Fits

variable {text opening operand gap : List Char} {later : List (List Char × List Char)}
  {factors others : Factorisation}

theorem of_no_operand (h : text ⊆ delimiter) : Fits delimiter text ⟨text, []⟩ :=
  ⟨List.append_nil text, h, fun _ _ _ hsuffix => by simp at hsuffix⟩

/-- Characters of the delimiter in front of a text make its first gap longer. -/
theorem skip {skipped : List Char} (hskipped : skipped ⊆ delimiter)
    (h : factors.Fits delimiter text) :
    Fits delimiter (skipped ++ text) ⟨skipped ++ factors.opening, factors.parts⟩ := by
  refine ⟨?_, List.append_subset.mpr ⟨hskipped, h.opening_subset⟩, h.cuts⟩
  rw [List.append_assoc, h.text_eq]

theorem head (h : Fits delimiter text ⟨opening, (operand, gap) :: later⟩) :
    IsCut delimiter operand gap later :=
  h.cuts operand gap later List.suffix_rfl

/-- The gap after the first operand opens the rest of the text. -/
theorem tail (h : Fits delimiter text ⟨opening, (operand, gap) :: later⟩) :
    Fits delimiter (gap ++ textOf later) ⟨gap, later⟩ :=
  ⟨rfl, h.head.gap_subset, fun next space further hsuffix =>
    h.cuts next space further (hsuffix.trans (List.suffix_cons _ _))⟩

theorem cons (hopening : opening ⊆ delimiter) (hcut : IsCut delimiter operand gap later)
    (h : Fits delimiter text ⟨gap, later⟩) :
    Fits delimiter (opening ++ (operand ++ text)) ⟨opening, (operand, gap) :: later⟩ := by
  refine ⟨?_, hopening, ?_⟩
  · rw [textOf_cons, h.text_eq]
  · intro next space further hsuffix
    rcases List.suffix_cons_iff.mp hsuffix with heq | hlater
    · cases heq
      exact hcut
    · exact h.cuts next space further hlater

theorem opening_eq (h : factors.Fits delimiter text) :
    factors.opening = text.takeWhile (· ∈ delimiter) := by
  rw [← h.text_eq]
  refine (takeWhile_append_of_subset h.opening_subset ?_).symm
  obtain ⟨opening, parts⟩ := factors
  cases parts with
  | nil => simp [textOf]
  | cons part later =>
    rw [textOf_cons]
    exact h.head.head?_not_mem _

theorem unique (h : factors.Fits delimiter text) (h' : others.Fits delimiter text) :
    factors = others := by
  obtain ⟨opening, parts⟩ := factors
  obtain ⟨opening', parts'⟩ := others
  induction parts generalizing opening opening' parts' text with
  | nil =>
    obtain rfl : opening = opening' := h.opening_eq.trans h'.opening_eq.symm
    cases parts' with
    | nil => rfl
    | cons part later =>
      obtain ⟨c, rest, hoperand, _⟩ := h'.head.starts
      have heq := List.append_cancel_left (h.text_eq.trans h'.text_eq.symm)
      simp [textOf, hoperand] at heq
  | cons part later ih =>
    obtain rfl : opening = opening' := h.opening_eq.trans h'.opening_eq.symm
    obtain ⟨operand, gap⟩ := part
    have heq := List.append_cancel_left (h.text_eq.trans h'.text_eq.symm)
    cases parts' with
    | nil =>
      obtain ⟨c, rest, hoperand, _⟩ := h.head.starts
      simp [textOf, hoperand] at heq
    | cons part' later' =>
      obtain ⟨operand', gap'⟩ := part'
      rw [textOf_cons, textOf_cons] at heq
      have hlength := Nat.le_antisymm (h.head.length_le h'.head heq)
        (h'.head.length_le h.head heq.symm)
      obtain ⟨rfl, hrest⟩ := List.append_inj heq hlength
      have hlater : Fits delimiter (gap ++ textOf later) ⟨gap', later'⟩ := by
        rw [hrest]
        exact h'.tail
      cases ih gap h.tail gap' later' hlater
      rfl

end Factorisation.Fits

/-- The first operand that is read ends at the first delimiter. -/
theorem operandsFrom_some (hne : delimiter ≠ []) (current text : List Char) :
    operandsFrom delimiter (some current) text =
      match splitFirst? delimiter text with
      | none => [current.reverse ++ text]
      | some (before, after) => (current.reverse ++ before) :: operands delimiter after := by
  induction text generalizing current with
  | nil =>
    unfold operandsFrom splitFirst?
    simp [hne]
  | cons c rest ih =>
    rw [operandsFrom, splitFirst?]
    split
    next hinitial =>
      obtain ⟨d, tail, rfl⟩ := List.exists_cons_of_ne_nil hne
      obtain ⟨later, hlater⟩ := List.isPrefixOf_iff_prefix.mp hinitial
      obtain ⟨rfl, rfl⟩ := List.cons.inj hlater
      have hskipped : operandsFrom (d :: tail) none (tail ++ later) =
          operandsFrom (d :: tail) none later :=
        operandsFrom_append_of_subset (fun c hc => List.mem_cons_of_mem d hc) later
      simpa [operands] using hskipped
    next hinitial =>
      rw [ih]
      cases splitFirst? delimiter rest with
      | none => simp
      | some parts => simp

theorem operands_cons_of_not_mem (hne : delimiter ≠ []) {c : Char} (hc : c ∉ delimiter)
    (rest : List Char) :
    operands delimiter (c :: rest) =
      match splitFirst? delimiter (c :: rest) with
      | none => [c :: rest]
      | some (before, after) => before :: operands delimiter after := by
  rw [operands, operandsFrom, if_neg hc, operandsFrom_some hne, splitFirst?,
    if_neg (not_isPrefixOf_of_not_mem hne hc rest)]
  cases splitFirst? delimiter rest with
  | none => rfl
  | some parts => rfl

theorem exists_cons_of_splitFirst? (hne : delimiter ≠ []) {c : Char} (hc : c ∉ delimiter)
    {rest operand after : List Char}
    (h : splitFirst? delimiter (c :: rest) = some (operand, after)) :
    ∃ tail, operand = c :: tail ∧ c :: rest = c :: tail ++ (delimiter ++ after) := by
  have happend := splitFirst?_eq_append h
  rw [List.append_assoc] at happend
  cases operand with
  | nil =>
    obtain ⟨d, tail, rfl⟩ := List.exists_cons_of_ne_nil hne
    obtain ⟨rfl, _⟩ := List.cons.inj happend
    exact absurd List.mem_cons_self hc
  | cons first tail =>
    obtain ⟨rfl, _⟩ := List.cons.inj happend
    exact ⟨tail, rfl, happend⟩

/-- The operands that are read are those of a factorisation. -/
theorem exists_fits (hne : delimiter ≠ []) (text : List Char) :
    ∃ factors : Factorisation, factors.Fits delimiter text ∧
      factors.operands = operands delimiter text := by
  induction hlength : text.length using Nat.strongRecOn generalizing text with
  | ind length ih =>
    cases text with
    | nil => exact ⟨⟨[], []⟩, .of_no_operand (List.nil_subset _), rfl⟩
    | cons c rest =>
      by_cases hc : c ∈ delimiter
      · obtain ⟨factors, hfits, hoperands⟩ := ih rest.length (by simp [← hlength]) rest rfl
        refine ⟨_, hfits.skip (List.cons_subset.mpr ⟨hc, List.nil_subset _⟩), ?_⟩
        rw [operands, operandsFrom, if_pos hc]
        exact hoperands
      · rw [operands_cons_of_not_mem hne hc]
        cases hsplit : splitFirst? delimiter (c :: rest) with
        | none =>
          have hnowhere := splitFirst?_eq_none_iff.mp hsplit
          have hcut : IsCut delimiter (c :: rest) [] [] :=
            ⟨⟨c, rest, rfl, hc⟩, List.nil_subset _, .inr ⟨rfl, rfl, hnowhere⟩⟩
          have hfits := Factorisation.Fits.cons (List.nil_subset _) hcut
            (.of_no_operand (List.nil_subset _))
          exact ⟨_, by simpa using hfits, rfl⟩
        | some parts =>
          obtain ⟨operand, after⟩ := parts
          obtain ⟨tail, rfl, happend⟩ := exists_cons_of_splitFirst? hne hc hsplit
          have hshorter : after.length < length := by
            rw [← hlength, happend]
            simp only [List.cons_append, List.length_cons, List.length_append]
            omega
          obtain ⟨factors, hfits, hoperands⟩ := ih after.length hshorter after rfl
          have hgap := hfits.skip (List.Subset.refl delimiter)
          have hcut : IsCut delimiter (c :: tail) (delimiter ++ factors.opening) factors.parts := by
            refine ⟨⟨c, tail, rfl, hc⟩, hgap.opening_subset, .inl ⟨List.prefix_append _ _, ?_⟩⟩
            intro place hplace
            rw [hgap.text_eq, ← happend]
            exact not_isPrefix_drop_of_splitFirst? hsplit hplace
          have hwhole := Factorisation.Fits.cons (List.nil_subset delimiter) hcut hgap
          rw [List.nil_append, ← happend] at hwhole
          exact ⟨_, hwhole, congrArg (List.cons (c :: tail)) hoperands⟩

theorem operands_eq_of_fits (hne : delimiter ≠ []) {text : List Char} {factors : Factorisation}
    (h : factors.Fits delimiter text) : operands delimiter text = factors.operands := by
  obtain ⟨others, hothers, hoperands⟩ := exists_fits hne text
  rw [h.unique hothers, hoperands]

/-- Operands with a whole delimiter after each but the last. -/
def separated (delimiter : List Char) : List (List Char) → List (List Char × List Char)
  | [] => []
  | [operand] => [(operand, [])]
  | operand :: next :: rest => (operand, delimiter) :: separated delimiter (next :: rest)

theorem map_fst_separated (delimiter : List Char) (operands : List (List Char)) :
    (separated delimiter operands).map Prod.fst = operands := by
  fun_induction separated delimiter operands with
  | case1 => rfl
  | case2 operand => rfl
  | case3 operand next rest ih => rw [List.map_cons, ih]

theorem IsCut.not_isInfix {operand gap : List Char} {later : List (List Char × List Char)}
    (h : IsCut delimiter operand gap later) (hne : delimiter ≠ []) : ¬delimiter <:+: operand := by
  rcases h.ends with ⟨_, hfirst⟩ | ⟨_, _, hnowhere⟩
  · exact not_isInfix_of_not_isPrefix_drop hne hfirst
  · exact hnowhere

/-- An operand that is read is a part of the text that holds no delimiter. -/
theorem isInfix_of_mem_operands (hne : delimiter ≠ []) {text operand : List Char}
    (h : operand ∈ operands delimiter text) : operand <:+: text ∧ ¬delimiter <:+: operand := by
  obtain ⟨factors, hfits, hoperands⟩ := exists_fits hne text
  rw [← hoperands] at h
  obtain ⟨⟨found, gap⟩, hpart, rfl⟩ := List.mem_map.mp h
  obtain ⟨before, later, hparts⟩ := List.append_of_mem hpart
  have hcut := hfits.cuts found gap later (hparts ▸ List.suffix_append _ _)
  refine ⟨⟨factors.opening ++ textOf before, gap ++ textOf later, ?_⟩, hcut.not_isInfix hne⟩
  rw [← hfits.text_eq, hparts]
  simp [textOf]

/-- An operand may also reach the end of a text. -/
theorem IsCut.last {operand gap : List Char} {later : List (List Char × List Char)}
    (h : IsCut delimiter operand gap later) (hne : delimiter ≠ []) :
    IsCut delimiter operand [] [] :=
  ⟨h.starts, List.nil_subset _, .inr ⟨rfl, rfl, h.not_isInfix hne⟩⟩

/-- Where an operand ends depends on no more than the one delimiter after it. -/
theorem IsCut.followed {operand gap : List Char} {part : List Char × List Char}
    {later : List (List Char × List Char)} (h : IsCut delimiter operand gap (part :: later))
    (further : List (List Char × List Char)) : IsCut delimiter operand delimiter further := by
  refine ⟨h.starts, List.Subset.refl _, .inl ⟨List.prefix_rfl, fun place hplace hthere => ?_⟩⟩
  rcases h.ends with ⟨⟨rest, rfl⟩, hfirst⟩ | ⟨_, hlater, _⟩
  · rw [List.drop_append_of_le_length (Nat.le_of_lt hplace), ← List.append_assoc] at hthere
    refine hfirst place hplace ?_
    rw [List.drop_append_of_le_length (Nat.le_of_lt hplace), List.append_assoc,
      ← List.append_assoc]
    refine List.IsPrefix.trans ?_ (List.prefix_append _ _)
    exact List.prefix_of_prefix_length_le hthere (List.prefix_append _ _) (by simp)
  · cases hlater

theorem fits_separated (hne : delimiter ≠ []) {text : List Char} {factors : Factorisation}
    (h : factors.Fits delimiter text) :
    Factorisation.Fits delimiter (delimiter.intercalate factors.operands)
      ⟨[], separated delimiter factors.operands⟩ := by
  obtain ⟨opening, parts⟩ := factors
  unfold Factorisation.operands
  induction parts generalizing opening text with
  | nil => exact .of_no_operand (List.nil_subset _)
  | cons part later ih =>
    obtain ⟨operand, gap⟩ := part
    cases later with
    | nil =>
      have hfits := Factorisation.Fits.cons (List.nil_subset _) (h.head.last hne)
        (.of_no_operand (List.nil_subset _))
      simpa [separated] using hfits
    | cons part later =>
      have hrest := (ih gap h.tail).skip (List.Subset.refl delimiter)
      rw [List.append_nil] at hrest
      have hfits := Factorisation.Fits.cons (List.nil_subset _) (h.head.followed _) hrest
      simpa [separated] using hfits

/-- Under a delimiter that is not empty, a text is cut into operands and gaps in one way only, and
the operands are those that are read. Joined by the delimiter they are read again. -/
theorem splitOperands_factorises {delimiter : String} (hne : delimiter ≠ "") (text : String) :
    (∃ factors : Factorisation, factors.Fits delimiter.toList text.toList ∧
      factors.operands.map String.ofList = splitOperands delimiter text ∧
      ∀ others : Factorisation, others.Fits delimiter.toList text.toList → others = factors) ∧
    splitOperands delimiter (delimiter.intercalate (splitOperands delimiter text)) =
      splitOperands delimiter text := by
  have hchars : delimiter.toList ≠ [] := by simpa using hne
  obtain ⟨factors, hfits, hoperands⟩ := exists_fits hchars text.toList
  have hread : factors.operands.map String.ofList = splitOperands delimiter text :=
    congrArg (List.map String.ofList) hoperands
  have hjoined : (delimiter.intercalate (splitOperands delimiter text)).toList =
      delimiter.toList.intercalate factors.operands := by
    have hid : String.toList ∘ String.ofList = id := funext fun _ => String.toList_ofList
    rw [← hread, String.toList_intercalate, List.map_map, hid, List.map_id]
  refine ⟨⟨factors, hfits, hread, fun others hothers => hothers.unique hfits⟩, ?_⟩
  calc splitOperands delimiter (delimiter.intercalate (splitOperands delimiter text))
      = (operands delimiter.toList (delimiter.toList.intercalate factors.operands)).map
          String.ofList :=
        congrArg (fun chars => (operands delimiter.toList chars).map String.ofList) hjoined
    _ = factors.operands.map String.ofList := by
        rw [operands_eq_of_fits hchars (fits_separated hchars hfits), Factorisation.operands,
          map_fst_separated]
    _ = splitOperands delimiter text := hread

/-- A delimiter that overlaps itself, with a part of it in front and after the first operand. -/
theorem splitOperands_factorises_of_overlap :
    "aba" ≠ "" ∧
      (∃ factors : Factorisation, factors.Fits "aba".toList "abxabab yaba".toList ∧
        factors.operands.map String.ofList = ["x", " y"] ∧
        ∀ others : Factorisation, others.Fits "aba".toList "abxabab yaba".toList →
          others = factors) ∧
      splitOperands "aba" "xaba y" = ["x", " y"] := by
  have hne : "aba" ≠ "" := by decide
  have hread : splitOperands "aba" "abxabab yaba" = ["x", " y"] := by decide +kernel
  have hfactors := splitOperands_factorises hne "abxabab yaba"
  rw [hread] at hfactors
  exact ⟨hne, hfactors⟩

end StochasticGrammar
