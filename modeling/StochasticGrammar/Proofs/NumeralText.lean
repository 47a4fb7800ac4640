import StochasticGrammar.Text.Number
import StochasticGrammar.Proofs.DecimalRounding

namespace StochasticGrammar

/-- Decimal digits, of any script and in any mix, with their values. -/
def IsDigits (text : List Char) (digits : List Nat) : Prop :=
  List.Forall₂ (fun c value => digitValue? c = some value) text digits

/-- An optional sign, and whether it is a minus. -/
inductive IsSign : List Char → Bool → Prop
  | absent : IsSign [] false
  | plus : IsSign ['+'] false
  | minus : IsSign ['-'] true

/-- Digits, optionally followed by a point and further digits, or a point followed by digits. -/
inductive IsMantissa : List Char → ℚ → Prop
  | whole {text : List Char} {digits : List Nat} (hdigits : IsDigits text digits)
      (hsome : digits ≠ []) : IsMantissa text (ofDigits digits)
  | pointed {text more : List Char} {digits further : List Nat} (hdigits : IsDigits text digits)
      (hfurther : IsDigits more further) (hsome : digits ≠ [] ∨ further ≠ []) :
      IsMantissa (text ++ '.' :: more) (ofDigits digits + ofDigits further / 10 ^ further.length)

/-- Optionally e or E with an optional sign and digits, and the power of ten. -/
inductive IsExponent : List Char → ℤ → Prop
  | absent : IsExponent [] 0
  | power {mark : Char} {sign text : List Char} {negative : Bool} {digits : List Nat}
      (hmark : mark = 'e' ∨ mark = 'E') (hsign : IsSign sign negative)
      (hdigits : IsDigits text digits) (hsome : digits ≠ []) :
      IsExponent (mark :: (sign ++ text))
        (if negative then -(ofDigits digits : ℤ) else ofDigits digits)

/-- A whole text is a numeral of a sign and denotes a number. -/
inductive Denotes : List Char → Bool → ℚ → Prop
  | numeral {sign mantissa exponent : List Char} {negative : Bool} {size : ℚ} {power : ℤ}
      (hsign : IsSign sign negative) (hmantissa : IsMantissa mantissa size)
      (hexponent : IsExponent exponent power) :
      Denotes (sign ++ (mantissa ++ exponent)) negative (signUnit negative * (size * 10 ^ power))

theorem takeDigits_sound {text rest : List Char} {digits : List Nat}
    (h : takeDigits text = (digits, rest)) :
    ∃ taken, text = taken ++ rest ∧ IsDigits taken digits := by
  induction text generalizing digits with
  | nil => cases h; exact ⟨[], rfl, .nil⟩
  | cons c text ih =>
    unfold takeDigits at h
    split at h
    next value hvalue =>
      obtain ⟨rfl, hafter⟩ := Prod.mk.inj h
      obtain ⟨taken, hrest, htaken⟩ := ih (Prod.ext rfl hafter)
      exact ⟨c :: taken, congrArg (c :: ·) hrest, .cons hvalue htaken⟩
    next => cases h; exact ⟨[], rfl, .nil⟩

theorem takeSign_sound {text rest : List Char} {negative : Bool}
    (h : takeSign text = (negative, rest)) : ∃ sign, text = sign ++ rest ∧ IsSign sign negative := by
  unfold takeSign at h
  split at h
  next => cases h; exact ⟨_, rfl, .minus⟩
  next => cases h; exact ⟨_, rfl, .plus⟩
  next => cases h; exact ⟨_, rfl, .absent⟩

theorem mantissa_sound {text after rest : List Char} {digits further : List Nat}
    (hdigits : takeDigits text = (digits, after)) (hfurther : takeFraction after = (further, rest))
    (hsome : digits ≠ [] ∨ further ≠ []) :
    ∃ mantissa, text = mantissa ++ rest ∧
      IsMantissa mantissa (ofDigits digits + ofDigits further / 10 ^ further.length) := by
  obtain ⟨taken, rfl, htaken⟩ := takeDigits_sound hdigits
  unfold takeFraction at hfurther
  split at hfurther
  next after =>
    obtain ⟨more, rfl, hmore⟩ := takeDigits_sound hfurther
    exact ⟨taken ++ '.' :: more, by rw [List.append_assoc, List.cons_append],
      .pointed htaken hmore hsome⟩
  next =>
    cases hfurther
    have hvalue : (ofDigits ([] : List Nat) : ℚ) / 10 ^ ([] : List Nat).length = 0 := by
      simp [ofDigits]
    rw [hvalue, add_zero]
    exact ⟨taken, rfl, .whole htaken (hsome.resolve_right (· rfl))⟩

theorem exponentPart?_sound {text : List Char} {power : ℤ} (h : exponentPart? text = some power) :
    IsExponent text power := by
  unfold exponentPart? at h
  split at h
  next => cases h; exact .absent
  next mark rest =>
    split at h
    next hmark =>
      obtain ⟨negative, unsigned, htake⟩ : ∃ negative unsigned,
          takeSign rest = (negative, unsigned) := ⟨_, _, rfl⟩
      rw [htake] at h
      split at h
      next digit digits hdigits =>
        obtain ⟨sign, rfl, hsign⟩ := takeSign_sound htake
        obtain ⟨taken, rfl, htaken⟩ := takeDigits_sound hdigits
        cases h
        rw [List.append_nil]
        exact .power hmark hsign htaken (List.cons_ne_nil _ _)
      next => cases h
    next => cases h

/-- A run of digits ends where the text after it starts with something else. -/
theorem takeDigits_append {text rest : List Char} {digits : List Nat} (h : IsDigits text digits)
    (hrest : ∀ c ∈ rest.head?, digitValue? c = none) :
    takeDigits (text ++ rest) = (digits, rest) := by
  induction h with
  | nil =>
    cases rest with
    | nil => rfl
    | cons c rest => simp [takeDigits, hrest c rfl]
  | cons hvalue _ ih => simp [takeDigits, hvalue, ih]

theorem takeSign_append {sign rest : List Char} {negative : Bool} (h : IsSign sign negative)
    (hrest : ∀ c ∈ rest.head?, c = '.' ∨ digitValue? c ≠ none) :
    takeSign (sign ++ rest) = (negative, rest) := by
  cases h with
  | plus => rfl
  | minus => rfl
  | absent =>
    rw [List.nil_append]
    unfold takeSign
    split
    next => exact absurd (hrest '-' rfl) (by decide)
    next => exact absurd (hrest '+' rfl) (by decide)
    next => rfl

theorem IsDigits.head {text : List Char} {digits : List Nat} (h : IsDigits text digits)
    (rest : List Char) (hsome : digits ≠ []) :
    ∀ c ∈ (text ++ rest).head?, digitValue? c ≠ none := by
  cases h with
  | nil => exact absurd rfl hsome
  | cons hvalue _ =>
    rintro c ⟨⟩
    exact ne_of_eq_of_ne hvalue nofun

theorem IsMantissa.head {text : List Char} {size : ℚ} (h : IsMantissa text size)
    (rest : List Char) : ∀ c ∈ (text ++ rest).head?, c = '.' ∨ digitValue? c ≠ none := by
  cases h with
  | whole hdigits hsome => exact fun c hc => .inr (hdigits.head rest hsome c hc)
  | pointed hdigits _ _ =>
    cases hdigits with
    | nil =>
      rintro c ⟨⟩
      exact .inl rfl
    | cons hvalue _ =>
      rintro c ⟨⟩
      exact .inr (ne_of_eq_of_ne hvalue nofun)

theorem IsExponent.head {text : List Char} {power : ℤ} (h : IsExponent text power) :
    ∀ c ∈ text.head?, c ≠ '.' ∧ digitValue? c = none := by
  cases h with
  | absent => nofun
  | power hmark _ _ _ =>
    rintro c ⟨⟩
    rcases hmark with rfl | rfl <;> decide

theorem IsExponent.complete {text : List Char} {power : ℤ} (h : IsExponent text power) :
    exponentPart? text = some power := by
  cases h with
  | absent => rfl
  | @power mark sign text negative digits hmark hsign hdigits hsome =>
    have htake : takeDigits (text ++ []) = (digits, []) := takeDigits_append hdigits nofun
    have hhead := hdigits.head [] hsome
    rw [List.append_nil] at htake hhead
    have hrest := takeSign_append hsign fun c hc => .inr (hhead c hc)
    obtain ⟨digit, others, rfl⟩ := List.exists_cons_of_ne_nil hsome
    simp only [exponentPart?, hmark, ↓reduceIte, hrest, htake]

theorem IsMantissa.complete {text rest : List Char} {size : ℚ} (h : IsMantissa text size)
    (hrest : ∀ c ∈ rest.head?, c ≠ '.' ∧ digitValue? c = none) :
    ∃ digits further, (takeDigits (text ++ rest)).1 = digits ∧
      takeFraction (takeDigits (text ++ rest)).2 = (further, rest) ∧
      (digits ≠ [] ∨ further ≠ []) ∧
      size = ofDigits digits + ofDigits further / 10 ^ further.length := by
  have hdigit : ∀ c ∈ rest.head?, digitValue? c = none := fun c hc => (hrest c hc).2
  cases h with
  | whole hdigits hsome =>
    refine ⟨_, [], congrArg Prod.fst (takeDigits_append hdigits hdigit), ?_, .inl hsome, ?_⟩
    · rw [takeDigits_append hdigits hdigit]
      cases rest with
      | nil => rfl
      | cons c rest => simp [takeFraction, (hrest c rfl).1]
    · simp [ofDigits]
  | @pointed text more digits further hdigits hfurther hsome =>
    have htake : takeDigits (text ++ '.' :: (more ++ rest)) = (digits, '.' :: (more ++ rest)) := by
      refine takeDigits_append hdigits ?_
      rintro c ⟨⟩
      decide
    rw [List.append_assoc, List.cons_append, htake]
    exact ⟨_, _, rfl, takeDigits_append hfurther hdigit, hsome, rfl⟩

theorem foldl_digits (start : Nat) (digits : List Nat) :
    digits.foldl (fun value digit => 10 * value + digit) start =
      start * 10 ^ digits.length + ofDigits digits := by
  induction digits generalizing start with
  | nil => simp [ofDigits]
  | cons digit digits ih =>
    unfold ofDigits
    rw [List.foldl_cons, List.foldl_cons, ih, ih (10 * 0 + digit), List.length_cons, Nat.pow_succ]
    ring

theorem ofDigits_append (digits further : List Nat) :
    ofDigits (digits ++ further) = ofDigits digits * 10 ^ further.length + ofDigits further := by
  rw [← foldl_digits]
  exact List.foldl_append

/-- The point is moved behind the last digit by the power of ten. -/
theorem Decimal.value_of_digits (negative : Bool) (digits further : List Nat) (power : ℤ) :
    (⟨negative, ofDigits (digits ++ further), power - further.length⟩ : Decimal).value =
      signUnit negative *
        ((ofDigits digits + ofDigits further / 10 ^ further.length) * 10 ^ power) := by
  have hten : (10 : ℚ) ≠ 0 := by norm_num
  unfold Decimal.value
  rw [ofDigits_append, zpow_sub₀ hten, zpow_natCast]
  push_cast
  field_simp

theorem numeral?_sound {text : List Char} {d : Decimal} (h : numeral? text = some d) :
    Denotes text d.negative d.value := by
  obtain ⟨negative, unsigned, hsign⟩ : ∃ negative unsigned,
      takeSign text = (negative, unsigned) := ⟨_, _, rfl⟩
  obtain ⟨digits, after, hdigits⟩ : ∃ digits after,
      takeDigits unsigned = (digits, after) := ⟨_, _, rfl⟩
  obtain ⟨further, rest, hfurther⟩ : ∃ further rest,
      takeFraction after = (further, rest) := ⟨_, _, rfl⟩
  simp only [numeral?, hsign, hdigits, hfurther] at h
  split at h
  next => cases h
  next hsome =>
    obtain ⟨power, hpower, rfl⟩ := Option.map_eq_some_iff.mp h
    simp only [List.isEmpty_iff, not_and_or] at hsome
    obtain ⟨sign, rfl, htaken⟩ := takeSign_sound hsign
    obtain ⟨mantissa, rfl, hmantissa⟩ := mantissa_sound hdigits hfurther hsome
    rw [Decimal.value_of_digits]
    exact .numeral htaken hmantissa (exponentPart?_sound hpower)

theorem Denotes.complete {text : List Char} {negative : Bool} {number : ℚ}
    (h : Denotes text negative number) :
    ∃ d, numeral? text = some d ∧ d.negative = negative ∧ d.value = number := by
  obtain @⟨sign, mantissa, exponent, negative, size, power, hsign, hmantissa, hexponent⟩ := h
  obtain ⟨digits, further, hdigits, hfurther, hsome, rfl⟩ := hmantissa.complete hexponent.head
  refine ⟨⟨negative, ofDigits (digits ++ further), power - further.length⟩, ?_, rfl,
    Decimal.value_of_digits _ _ _ _⟩
  simp only [numeral?, takeSign_append hsign (hmantissa.head exponent), hdigits, hfurther,
    hexponent.complete, Option.map_some, List.isEmpty_iff, not_and_or.mpr hsome, ↓reduceIte]

/-- A text denotes one number at most. -/
theorem Denotes.unique {text : List Char} {negative other : Bool} {number another : ℚ}
    (h : Denotes text negative number) (h' : Denotes text other another) :
    negative = other ∧ number = another := by
  obtain ⟨d, hd, rfl, rfl⟩ := h.complete
  obtain ⟨d', hd', rfl, rfl⟩ := h'.complete
  obtain rfl := Option.some.inj (hd.symm.trans hd')
  exact ⟨rfl, rfl⟩

end StochasticGrammar
