import StochasticGrammar.Rule.Basic
import Mathlib.Data.List.Basic

namespace StochasticGrammar

theorem run_bind_of_ok {ε σ β γ : Type} {first : EStateM ε σ β} {next : β → EStateM ε σ γ}
    {state between : σ} {value : β} (h : first.run state = .ok value between) :
    (first >>= next).run state = (next value).run between := by
  rw [EStateM.run_bind, h]

theorem run_bind_of_error {ε σ β γ : Type} {first : EStateM ε σ β} {next : β → EStateM ε σ γ}
    {state after : σ} {reason : ε} (h : first.run state = .error reason after) :
    (first >>= next).run state = .error reason after := by
  rw [EStateM.run_bind, h]

theorem run_get_bind {ε σ β : Type} (next : σ → EStateM ε σ β) (state : σ) :
    (get >>= next).run state = (next state).run state :=
  rfl

theorem run_bind_eq_ok {ε σ β γ : Type} {first : EStateM ε σ β} {next : β → EStateM ε σ γ}
    {state after : σ} {result : γ} (h : (first >>= next).run state = .ok result after) :
    ∃ value between, first.run state = .ok value between ∧
      (next value).run between = .ok result after := by
  cases hfirst : first.run state with
  | ok value between => exact ⟨value, between, rfl, (run_bind_of_ok hfirst).symm.trans h⟩
  | error reason between => simp [EStateM.run_bind, hfirst] at h

theorem run_bind_eq_error {ε σ β γ : Type} {first : EStateM ε σ β} {next : β → EStateM ε σ γ}
    {state after : σ} {reason : ε} (h : (first >>= next).run state = .error reason after) :
    first.run state = .error reason after ∨
      ∃ value between, first.run state = .ok value between ∧
        (next value).run between = .error reason after := by
  cases hfirst : first.run state with
  | ok value between =>
    exact .inr ⟨value, between, rfl, (run_bind_of_ok hfirst).symm.trans h⟩
  | error other between =>
    rw [run_bind_of_error hfirst] at h
    cases h
    exact .inl rfl

theorem length_of_mapM_run {ε σ ρ τ : Type} {f : ρ → EStateM ε σ τ} {operands : List ρ}
    {state after : σ} {found : List τ} (h : (operands.mapM f).run state = .ok found after) :
    found.length = operands.length := by
  induction operands generalizing state found with
  | nil => cases h; rfl
  | cons first rest ih =>
    rw [List.mapM_cons] at h
    obtain ⟨_, between, _, hrest⟩ := run_bind_eq_ok h
    obtain ⟨later, last, hlater, hpure⟩ := run_bind_eq_ok hrest
    cases hpure
    simp [ih hlater]

namespace Composite

variable {ρ τ υ : Type}

/-- Equal but for the operands. -/
structure SameForm (first : Composite ρ) (second : Composite τ) : Prop where
  kind_eq : first.kind = second.kind
  weights_eq : first.weights = second.weights
  count_eq : first.count? = second.count?
  length_eq : first.operands.length = second.operands.length

theorem operands_map (f : ρ → τ) (shape : Composite ρ) :
    (shape.map f).operands = shape.operands.map f := by
  cases shape with
  | select options => simp [map, operands]
  | _ => rfl

theorem map_map (f : ρ → τ) (g : τ → υ) (shape : Composite ρ) :
    (shape.map f).map g = shape.map fun operand => g (f operand) := by
  cases shape with
  | sequence elements => simp [map]
  | select options => simp [map]
  | _ => rfl

theorem sameForm_map (f : ρ → τ) (shape : Composite ρ) : shape.SameForm (shape.map f) := by
  refine ⟨?_, ?_, ?_, by simp [operands_map]⟩
  · cases shape <;> rfl
  · cases shape with
    | select options => simp [map, weights]
    | _ => rfl
  · cases shape <;> rfl

theorem SameForm.symm {first : Composite ρ} {second : Composite τ} (h : first.SameForm second) :
    second.SameForm first :=
  ⟨h.kind_eq.symm, h.weights_eq.symm, h.count_eq.symm, h.length_eq.symm⟩

theorem SameForm.trans {first : Composite ρ} {second : Composite τ} {third : Composite υ}
    (h : first.SameForm second) (h' : second.SameForm third) : first.SameForm third :=
  ⟨h.kind_eq.trans h'.kind_eq, h.weights_eq.trans h'.weights_eq, h.count_eq.trans h'.count_eq,
    h.length_eq.trans h'.length_eq⟩

theorem SameForm.eq_of_operands_eq {first second : Composite ρ} (h : first.SameForm second)
    (hoperands : first.operands = second.operands) : first = second := by
  have hkind := h.kind_eq
  have hweights := h.weights_eq
  have hcount := h.count_eq
  cases first with
  | fallback primary alternate => cases second <;> simp_all [kind, operands]
  | sequence elements => cases second <;> simp_all [kind, operands]
  | repetition body count => cases second <;> simp_all [kind, operands, count?]
  | select options =>
    cases second with
    | select others =>
      have hzip : options = others.unzip.1.zip others.unzip.2 :=
        List.zip_of_prod (by simpa [operands] using hoperands) (by simpa [weights] using hweights)
      rw [hzip, List.zip_unzip]
    | _ => simp [kind] at hkind

theorem SameForm.eq_map {first : Composite ρ} {second : Composite τ} {f : ρ → τ}
    (h : first.SameForm second) (hoperands : second.operands = first.operands.map f) :
    second = first.map f := by
  refine (h.symm.trans (first.sameForm_map f)).eq_of_operands_eq ?_
  rw [operands_map, hoperands]

theorem map_eq_self {f : ρ → ρ} (h : ∀ operand, f operand = operand) (shape : Composite ρ) :
    shape.map f = shape := by
  refine (shape.sameForm_map f).symm.eq_of_operands_eq ?_
  rw [operands_map, List.map_congr_left fun operand _ => h operand, List.map_id']

/-- The composite of a form with given operands, where their number is right. -/
def refill : Composite ρ → List τ → Composite τ
  | fallback _ _, [primary, alternate] => fallback primary alternate
  | select options, found => select (found.zip (options.map Prod.snd))
  | repetition _ count, [body] => repetition body count
  | _, found => sequence found

theorem operands_refill {shape : Composite ρ} {found : List τ}
    (h : found.length = shape.operands.length) : (shape.refill found).operands = found := by
  cases shape with
  | fallback primary alternate =>
    obtain ⟨first, second, rfl⟩ := List.length_eq_two.mp h
    rfl
  | sequence elements => rfl
  | select options =>
    have hle : found.length ≤ (options.map Prod.snd).length := by simpa [operands] using Nat.le_of_eq h
    exact List.map_fst_zip hle
  | repetition body count =>
    obtain ⟨only, rfl⟩ := List.length_eq_one_iff.mp h
    rfl

theorem sameForm_refill {shape : Composite ρ} {found : List τ}
    (h : found.length = shape.operands.length) : shape.SameForm (shape.refill found) := by
  have hlength : shape.operands.length = (shape.refill found).operands.length := by
    rw [operands_refill h, h]
  cases shape with
  | fallback primary alternate =>
    obtain ⟨first, second, rfl⟩ := List.length_eq_two.mp h
    exact ⟨rfl, rfl, rfl, hlength⟩
  | sequence elements => exact ⟨rfl, rfl, rfl, hlength⟩
  | select options =>
    have hge : (options.map Prod.snd).length ≤ found.length := by simpa [operands] using Nat.le_of_eq h.symm
    exact ⟨rfl, (List.map_snd_zip hge).symm, rfl, hlength⟩
  | repetition body count =>
    obtain ⟨only, rfl⟩ := List.length_eq_one_iff.mp h
    exact ⟨rfl, rfl, rfl, hlength⟩

theorem mapM_eq_refill {m : Type → Type} [Monad m] [LawfulMonad m] (f : ρ → m τ)
    (shape : Composite ρ) :
    shape.mapM f = shape.operands.mapM f >>= fun found => pure (shape.refill found) := by
  cases shape with
  | fallback primary alternate => simp [mapM, operands, refill]
  | sequence elements => simp [mapM, operands, refill]
  | repetition body count => simp [mapM, operands, refill]
  | select options =>
    have hoptions : (options.mapM fun option => do
        let operand ← f option.1
        return (operand, option.2)) =
        (options.map Prod.fst).mapM f >>= fun found =>
          pure (found.zip (options.map Prod.snd)) := by
      induction options with
      | nil => simp
      | cons option rest ih =>
        simp only [List.mapM_cons, List.map_cons, ih, bind_assoc, pure_bind, List.zip_cons_cons]
    simp only [mapM, operands, refill, hoptions, bind_assoc, pure_bind]

variable {ε σ : Type}

theorem mapM_eq_ok {f : ρ → EStateM ε σ τ} {shape : Composite ρ} {found : Composite τ}
    {state after : σ} (h : (shape.mapM f).run state = .ok found after) :
    (shape.operands.mapM f).run state = .ok found.operands after ∧ shape.SameForm found := by
  rw [mapM_eq_refill] at h
  obtain ⟨operands, between, hoperands, hpure⟩ := run_bind_eq_ok h
  have hlength := length_of_mapM_run hoperands
  cases hpure
  rw [operands_refill hlength]
  exact ⟨hoperands, sameForm_refill hlength⟩

theorem mapM_eq_error {f : ρ → EStateM ε σ τ} {shape : Composite ρ} {reason : ε} {state after : σ}
    (h : (shape.mapM f).run state = .error reason after) :
    (shape.operands.mapM f).run state = .error reason after := by
  rw [mapM_eq_refill] at h
  rcases run_bind_eq_error h with hoperands | ⟨_, _, _, hpure⟩
  · exact hoperands
  · cases hpure

end Composite

end StochasticGrammar
