import StochasticGrammar.Settings

namespace StochasticGrammar

namespace Settings

variable {β : Type}

theorem field_eq_error_iff {given : Option FieldValue} {read : FieldValue → Except FieldFault β}
    {default : β} {reason : FieldFault} :
    field given read default = .error reason ↔ ∃ value ∈ given, read value = .error reason := by
  cases given with
  | none => simp [field]
  | some value => simp [field]

theorem mem_faultOf_iff {field : SettingsField} {result : Except FieldFault β}
    {fault : SettingsField × FieldFault} :
    fault ∈ faultOf field result ↔ fault.1 = field ∧ result = .error fault.2 := by
  obtain ⟨place, reason⟩ := fault
  cases result with
  | ok value => simp [faultOf]
  | error found => simp [faultOf, eq_comm]

theorem exists_eq_ok_of_faultOf {field : SettingsField} {result : Except FieldFault β}
    (h : faultOf field result = []) : ∃ value, result = .ok value := by
  cases result with
  | ok value => exact ⟨value, rfl⟩
  | error reason => cases h

theorem paths_faultOf_sublist (field : SettingsField) (result : Except FieldFault β) :
    ((faultOf field result).map fun fault => fault.1.path).Sublist [field.path] := by
  cases result with
  | ok value => exact List.nil_sublist _
  | error reason => exact List.Sublist.refl _

/-- The value that is given for a field is refused for a reason. -/
def Refuses (input : SettingsInput) (reason : FieldFault) : SettingsField → Prop
  | .maxDepth => ∃ value ∈ input.maxDepth, value.depth = .error reason
  | .repetitionMode => ∃ value ∈ input.mode, value.mode = .error reason
  | .seed => ∃ value ∈ input.seed, value.seed = .error reason

/-- Settings are refused for the values of their fields: every fault names a field whose value is
refused for its reason, all such faults are there, and no field is named twice. -/
theorem ofInput_eq_error {input : SettingsInput} {faults : SettingsFaults}
    (h : ofInput input = .error faults) :
    faults ≠ [] ∧ (faults.map fun fault => fault.1.path).Nodup ∧
      ∀ fault, fault ∈ faults ↔ Refuses input fault.2 fault.1 := by
  unfold ofInput at h
  simp only at h
  split at h
  next => cases h
  next hrefused =>
    cases h
    refine ⟨fun hnone => ?_, ?_, fun fault => ?_⟩
    · simp only [List.append_eq_nil_iff] at hnone
      obtain ⟨⟨hdepth, hmode⟩, hseed⟩ := hnone
      obtain ⟨depth, hdepth⟩ := exists_eq_ok_of_faultOf hdepth
      obtain ⟨mode, hmode⟩ := exists_eq_ok_of_faultOf hmode
      obtain ⟨seed, hseed⟩ := exists_eq_ok_of_faultOf hseed
      exact hrefused depth mode seed hdepth hmode hseed
    · have hall := ((paths_faultOf_sublist .maxDepth
        (field input.maxDepth FieldValue.depth ⟨16, by decide⟩)).append
          (paths_faultOf_sublist .repetitionMode (field input.mode FieldValue.mode .fixed))).append
          (paths_faultOf_sublist .seed (field input.seed FieldValue.seed none))
      rw [List.map_append, List.map_append]
      exact hall.nodup (by decide)
    · obtain ⟨place, reason⟩ := fault
      simp only [List.mem_append, mem_faultOf_iff, field_eq_error_iff]
      cases place with
      | maxDepth => simp [Refuses]
      | repetitionMode => simp [Refuses]
      | seed => simp [Refuses]

theorem exists_ofInput_iff {input : SettingsInput} :
    (∃ settings, ofInput input = .ok settings) ↔
      ∀ reason field, ¬Refuses input reason field := by
  constructor
  · rintro ⟨settings, h⟩ reason field hrefuses
    unfold ofInput at h
    simp only at h
    split at h
    next depth mode seed hdepth hmode hseed =>
      cases field with
      | maxDepth =>
        rw [field_eq_error_iff.mpr hrefuses] at hdepth
        cases hdepth
      | repetitionMode =>
        rw [field_eq_error_iff.mpr hrefuses] at hmode
        cases hmode
      | seed =>
        rw [field_eq_error_iff.mpr hrefuses] at hseed
        cases hseed
    next => cases h
  · intro hnone
    cases hinput : ofInput input with
    | ok settings => exact ⟨settings, rfl⟩
    | error faults =>
      obtain ⟨hsome, -, hfaults⟩ := ofInput_eq_error hinput
      obtain ⟨first, hfirst⟩ := List.exists_mem_of_ne_nil faults hsome
      exact absurd ((hfaults first).mp hfirst) (hnone first.2 first.1)

end Settings

end StochasticGrammar
