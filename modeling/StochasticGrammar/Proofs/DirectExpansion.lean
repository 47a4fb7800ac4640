import StochasticGrammar.Expansion
import StochasticGrammar.Proofs.Session

namespace StochasticGrammar

variable {α : Type}

/-- What a definition says: a value, the same as another name, or a composite of names. -/
inductive Meaning (α : Type) where
  | value (value : α)
  | same (reference : String)
  | composite (shape : Composite String)
deriving DecidableEq

/-- The meaning of a name. A bare name that stands for itself is a literal. -/
def Table.meaning? (table : Table α) (literal : String → Option α) (name : String) :
    Option (Meaning α) :=
  match table.latest name with
  | .value value => some (.value value)
  | .text text =>
    match Rule.read text with
    | .ok (.bare reference) =>
      if reference = name then (literal name).map .value else some (.same reference)
    | .ok (.composite shape) => some (.composite shape)
    | .error _ => none

/-- The terminal values of a name at a depth, when at most `limit` definitions may be looked up
inside each other. -/
def Table.expand {σ : Type} [RandomSource σ] (table : Table α) (literal : String → Option α)
    (mode : ExpansionMode) : Nat → Int → String → Sampling σ (List α)
  | 0, _, _ => throw .tooDeep
  | limit + 1, depth, name =>
    match table.meaning? literal name with
    | none => return []
    | some (.value value) => return [value]
    | some (.same reference) => table.expand literal mode limit depth reference
    | some (.composite shape) => shape.expand mode (table.expand literal mode limit) depth

theorem Table.meaning?_cons_of_ne {table : Table α} {literal : String → Option α}
    {first name : String} (source : RuleSource α) (h : name ≠ first) :
    Table.meaning? ((first, source) :: table) literal name = table.meaning? literal name := by
  unfold meaning?
  rw [Table.latest_cons, if_neg h]

theorem Table.meaning?_of_composite {table : Table α} {literal : String → Option α}
    {name text : String} {shape : Composite String} (hlatest : table.latest name = .text text)
    (hread : Rule.read text = .ok (.composite shape)) :
    table.meaning? literal name = some (.composite shape) := by
  unfold meaning?
  rw [hlatest]
  simp only [hread]

theorem Table.latest_of_meaning? {table : Table α} {literal : String → Option α} {name : String}
    {shape : Composite String} (h : table.meaning? literal name = some (.composite shape)) :
    ∃ text, table.latest name = .text text ∧ Rule.read text = .ok (.composite shape) := by
  unfold meaning? at h
  split at h
  next => cases h
  next text hlatest =>
    split at h
    next reference hread =>
      split at h
      next => obtain ⟨value, _, hvalue⟩ := Option.map_eq_some_iff.mp h; cases hvalue
      next => cases h
    next other hread => cases h; exact ⟨text, hlatest, hread⟩
    next => cases h

/-- What a table expands to depends only on what it says of the names. -/
theorem Table.expand_congr {σ : Type} [RandomSource σ] {table other : Table α}
    (h : ∀ name, table.latest name = other.latest name) (literal : String → Option α)
    (mode : ExpansionMode) (limit : Nat) (depth : Int) (name : String) :
    (table.expand literal mode limit depth name : Sampling σ (List α)) =
      other.expand literal mode limit depth name := by
  induction limit generalizing depth name with
  | zero => rfl
  | succ limit ih =>
    have hmeaning : table.meaning? literal name = other.meaning? literal name := by
      unfold meaning?
      rw [h name]
    have hoperands : (table.expand literal mode limit : Int → String → Sampling σ (List α)) =
        other.expand literal mode limit :=
      funext fun depth => funext fun name => ih depth name
    unfold expand
    rw [hmeaning, hoperands]

end StochasticGrammar
