import StochasticGrammar.Rule.Parse
import StochasticGrammar.Proofs.NumeralText

namespace StochasticGrammar

/-- One double is the nearest to a denoted number and has the sign of the numeral. -/
theorem Denotes.existsUnique_nearest {text : List Char} {negative : Bool} {number : ℚ}
    (h : Denotes text negative number) :
    ∃! value : Binary64, value.IsNearest number ∧ value.HasSign negative := by
  obtain ⟨d, -, rfl, rfl⟩ := h.complete
  refine ⟨d.nearest, ⟨d.nearest_isNearest, d.hasSign_nearest⟩, fun value ⟨hvalue, hsign⟩ => ?_⟩
  exact Binary64.eq_of_exact_eq hsign d.hasSign_nearest (hvalue.exact_eq d.nearest_isNearest)

namespace Rule

variable {role token : String} {value : Binary64}

theorem readNumber_eq_ok_iff :
    readNumber role token = .ok value ↔
      ∃ d, numeral? token.toList = some d ∧ d.nearest = value ∧ value.IsFinite ∧ ¬value < 0 := by
  unfold readNumber
  cases numeral? token.toList with
  | none => simp
  | some d =>
    simp only [Option.some.injEq, exists_eq_left']
    split
    next hamount =>
      rw [Except.ok.injEq]
      exact ⟨fun heq => ⟨heq, heq ▸ hamount⟩, And.left⟩
    next hrefused =>
      refine iff_of_false nofun ?_
      rintro ⟨rfl, hamount⟩
      exact hrefused hamount

theorem readNumber_of_denotes {negative : Bool} {number : ℚ}
    (h : Denotes token.toList negative number) (hnearest : value.IsNearest number)
    (hsign : value.HasSign negative) (hfinite : value.IsFinite) (hnonneg : ¬value < 0) :
    readNumber role token = .ok value := by
  obtain ⟨d, hd, rfl, rfl⟩ := h.complete
  have hsame : d.nearest = value := Binary64.eq_of_exact_eq d.hasSign_nearest hsign
    (d.nearest_isNearest.exact_eq hnearest)
  exact readNumber_eq_ok_iff.mpr ⟨d, hd, hsame, hfinite, hnonneg⟩

theorem denotes_of_readNumber (h : readNumber role token = .ok value) :
    ∃ negative number, Denotes token.toList negative number ∧ value.IsNearest number ∧
      value.HasSign negative ∧ value.IsFinite ∧ ¬value < 0 := by
  obtain ⟨d, hd, rfl, hamount⟩ := readNumber_eq_ok_iff.mp h
  exact ⟨_, _, numeral?_sound hd, d.nearest_isNearest, d.hasSign_nearest, hamount⟩

/-- A token that is not accepted is reported, and what is reported is the token. -/
theorem readNumber_eq_error (h : ∀ value, readNumber role token ≠ .ok value) :
    readNumber role token = .error (.malformedNumber token role) := by
  unfold readNumber at h ⊢
  split
  next => rfl
  next d hd =>
    simp only [hd] at h
    split
    next hamount => exact absurd (if_pos hamount) (h d.nearest)
    next => rfl

theorem readNumber_mono {role' token' : String} {value' : Binary64} {negative negative' : Bool}
    {number number' : ℚ} (h : Denotes token.toList negative number)
    (h' : Denotes token'.toList negative' number') (hle : number ≤ number')
    (hvalue : readNumber role token = .ok value) (hvalue' : readNumber role' token' = .ok value') :
    value ≤ value' := by
  obtain ⟨_, _, hdenotes, hnearest, -⟩ := denotes_of_readNumber hvalue
  obtain ⟨_, _, hdenotes', hnearest', -⟩ := denotes_of_readNumber hvalue'
  rw [← (h.unique hdenotes).2] at hnearest
  rw [← (h'.unique hdenotes').2] at hnearest'
  obtain ⟨place, hplace⟩ := Binary64.exists_rank hnearest.ne_nan
  obtain ⟨place', hplace'⟩ := Binary64.exists_rank hnearest'.ne_nan
  exact (Binary64.le_iff_exact_le hplace hplace').mpr (hnearest.mono hnearest' hle)

/-- Exactly the numerals of doubles that are finite and not below zero are accepted; every other
token is reported. Of two accepted tokens the one of the smaller number has no larger double. -/
theorem readNumber_accepts_numerals (role token : String) :
    (∀ value, readNumber role token = .ok value ↔
      ∃ negative number, Denotes token.toList negative number ∧ value.IsNearest number ∧
        value.HasSign negative ∧ value.IsFinite ∧ ¬value < 0) ∧
    (∀ negative number, Denotes token.toList negative number →
      ∃! value : Binary64, value.IsNearest number ∧ value.HasSign negative) ∧
    ((∀ value, readNumber role token ≠ .ok value) →
      readNumber role token = .error (.malformedNumber token role)) ∧
    ∀ role' token' negative negative' number number' value value',
      Denotes token.toList negative number → Denotes token'.toList negative' number' →
      number ≤ number' → readNumber role token = .ok value →
      readNumber role' token' = .ok value' → value ≤ value' := by
  refine ⟨fun value => ⟨denotes_of_readNumber, ?_⟩, fun _ _ h => h.existsUnique_nearest,
    readNumber_eq_error, ?_⟩
  · rintro ⟨negative, number, hdenotes, hnearest, hsign, hfinite, hnonneg⟩
    exact readNumber_of_denotes hdenotes hnearest hsign hfinite hnonneg
  · intro role' token' negative negative' number number' value value' h h' hle hvalue hvalue'
    exact readNumber_mono h h' hle hvalue hvalue'

theorem readNumber_accepts_numerals_of_tiny :
    (∃! value : Binary64, value.IsNearest (signUnit true * (1 * 10 ^ (-400 : ℤ))) ∧
      value.HasSign true) ∧
    readNumber "weight" "1e400" = .error (.malformedNumber "1e400" "weight") ∧
    Binary64.signedZero true ≤ .half := by
  have htiny : Denotes "-1e-400".toList true (signUnit true * (1 * 10 ^ (-400 : ℤ))) := by
    have hone : IsDigits ['1'] [1] := .cons (by decide) .nil
    have hplaces : IsDigits ['4', '0', '0'] [4, 0, 0] :=
      .cons (by decide) (.cons (by decide) (.cons (by decide) .nil))
    exact .numeral .minus (.whole hone nofun) (.power (.inl rfl) .minus hplaces nofun)
  have hhalf : Denotes ".٥".toList false (signUnit false * ((0 + 5 / 10) * 10 ^ (0 : ℤ))) :=
    have hfive : IsDigits ['٥'] [5] := .cons (by decide) .nil
    .numeral .absent (.pointed .nil hfive (.inr nofun)) .absent
  refine ⟨(readNumber_accepts_numerals "weight" "-1e-400").2.1 _ _ htiny,
    (readNumber_accepts_numerals "weight" "1e400").2.2.1 ?_,
    (readNumber_accepts_numerals "weight" "-1e-400").2.2.2 "weight" ".٥" _ _ _ _ _ _ htiny hhalf
      ?_ (by decide +kernel) (by decide +kernel)⟩
  · have hlarge : readNumber "weight" "1e400" = .error (.malformedNumber "1e400" "weight") := by
      decide +kernel
    rw [hlarge]
    nofun
  · have hpower : (0 : ℚ) < 10 ^ (-400 : ℤ) := zpow_pos (by norm_num) _
    calc
      signUnit true * (1 * 10 ^ (-400 : ℤ)) ≤ 0 := by
        rw [signUnit, if_pos rfl, one_mul, neg_one_mul]
        exact (neg_lt_zero.mpr hpower).le
      _ ≤ signUnit false * ((0 + 5 / 10) * 10 ^ (0 : ℤ)) := by norm_num [signUnit]

end Rule

end StochasticGrammar
