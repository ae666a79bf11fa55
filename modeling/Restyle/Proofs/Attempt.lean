import Mathlib.Data.List.Forall2
import Restyle.Json

/-!
# Attempts

Attempts that follow one another succeed where each of them does, and fail as the first that fails.
What a document is taken for succeeds on documents of one form.
-/

namespace Restyle

open List

variable {ε α β γ : Type}

variable {inputs : List α} {next : α → Except ε β} {first : Except ε α} {outputs : List β}
  {relation : α → β → Prop}

/-- An attempt and what follows it succeed if both do, one after the other. -/
theorem bind_eq_ok_iff {result : β} :
    first >>= next = .ok result ↔ ∃ value, first = .ok value ∧ next value = .ok result := by
  cases first <;> simp [bind, Except.bind]

/-- An attempt and what follows it fail if one of them does, the first one first. -/
theorem bind_eq_error_iff {error : ε} :
    first >>= next = .error error ↔
      first = .error error ∨ ∃ value, first = .ok value ∧ next value = .error error := by
  cases first <;> simp [bind, Except.bind]

/-- An error that is reported stems from a problem. -/
theorem exists_of_mapError_eq_error {report : ε → γ} {attempt : Except ε α} {error : γ}
    (h : attempt.mapError report = .error error) :
    ∃ problem, report problem = error := by
  cases attempt with
  | error problem => exact ⟨problem, Except.error.inj h⟩
  | ok value => cases h

/-- Every output belongs to an input. -/
theorem exists_of_mem_forall₂ (h : List.Forall₂ relation inputs outputs) {output : β}
    (houtput : output ∈ outputs) : ∃ input ∈ inputs, relation input output := by
  induction h with
  | nil => cases houtput
  | cons hfirst _ ih =>
    rcases mem_cons.mp houtput with rfl | houtput
    · exact ⟨_, mem_cons_self, hfirst⟩
    · obtain ⟨input, hmem, hinput⟩ := ih houtput
      exact ⟨input, mem_cons_of_mem _ hmem, hinput⟩

/-- There are outputs for all inputs if there is one for each. -/
theorem exists_forall₂_iff_forall :
    (∃ outputs, List.Forall₂ relation inputs outputs) ↔
      ∀ input ∈ inputs, ∃ output, relation input output := by
  induction inputs with
  | nil => simp [forall₂_nil_left_iff]
  | cons first rest ih =>
    simp only [forall₂_cons_left_iff, forall_mem_cons, ← ih]
    constructor
    · rintro ⟨_, output, outputs, hfirst, hrest, rfl⟩
      exact ⟨⟨output, hfirst⟩, outputs, hrest⟩
    · rintro ⟨⟨output, hfirst⟩, outputs, hrest⟩
      exact ⟨_, output, outputs, hfirst, hrest, rfl⟩

/-- Two relations one after the other relate lists if they relate their members. -/
theorem exists_forall₂_iff {first : α → β → Prop} {second : β → γ → Prop} {outputs : List γ} :
    (∃ middles, List.Forall₂ first inputs middles ∧ List.Forall₂ second middles outputs) ↔
      List.Forall₂ (fun input output => ∃ middle, first input middle ∧ second middle output)
        inputs outputs := by
  induction inputs generalizing outputs with
  | nil => simp [forall₂_nil_left_iff]
  | cons input rest ih =>
    simp only [forall₂_cons_left_iff, ← ih]
    constructor
    · rintro ⟨_, ⟨middle, middles, hfirst, hrest, rfl⟩, h⟩
      obtain ⟨output, others, hsecond, hothers, rfl⟩ := forall₂_cons_left_iff.mp h
      exact ⟨output, others, ⟨middle, hfirst, hsecond⟩, ⟨middles, hrest, hothers⟩, rfl⟩
    · rintro ⟨output, others, ⟨middle, hfirst, hsecond⟩, ⟨middles, hrest, hothers⟩, rfl⟩
      exact ⟨_, ⟨middle, middles, hfirst, hrest, rfl⟩, .cons hsecond hothers⟩

variable {attempt : α → Except ε β}

/-- A list of attempts gives what each of them gives, in their order. -/
theorem mapM_eq_ok_iff :
    inputs.mapM attempt = .ok outputs ↔
      List.Forall₂ (fun input output => attempt input = .ok output) inputs outputs := by
  induction inputs generalizing outputs with
  | nil =>
    rw [mapM_nil, forall₂_nil_left_iff]
    exact ⟨fun h => (Except.ok.inj h).symm, fun h => congrArg _ h.symm⟩
  | cons first rest ih =>
    simp only [mapM_cons, bind_eq_ok_iff, ih, forall₂_cons_left_iff]
    constructor
    · rintro ⟨given, hgiven, others, hothers, h⟩
      exact ⟨given, others, hgiven, hothers, (Except.ok.inj h).symm⟩
    · rintro ⟨given, others, hgiven, hothers, rfl⟩
      exact ⟨given, hgiven, others, hothers, rfl⟩

/-- A list of readings gives what each of them gives, in their order. -/
theorem mapM_eq_some_iff {read? : α → Option β} :
    inputs.mapM read? = some outputs ↔
      List.Forall₂ (fun input output => read? input = some output) inputs outputs := by
  induction inputs generalizing outputs with
  | nil => simp [forall₂_nil_left_iff, eq_comm]
  | cons first rest ih =>
    simp [mapM_cons, Option.bind_eq_some_iff, ih, forall₂_cons_left_iff, eq_comm (b := outputs)]

/-- A list of attempts fails as the first that fails. -/
theorem exists_of_mapM_eq_error {error : ε} (h : inputs.mapM attempt = .error error) :
    ∃ before input after, inputs = before ++ input :: after ∧
      (∀ earlier ∈ before, ∃ output, attempt earlier = .ok output) ∧
      attempt input = .error error := by
  induction inputs with
  | nil => cases h
  | cons first rest ih =>
    rw [mapM_cons, bind_eq_error_iff] at h
    rcases h with hfirst | ⟨output, hfirst, h⟩
    · exact ⟨[], first, rest, rfl, forall_mem_nil _, hfirst⟩
    · rcases bind_eq_error_iff.mp h with hrest | ⟨outputs, -, h⟩
      · obtain ⟨before, input, after, rfl, hbefore, hinput⟩ := ih hrest
        exact ⟨first :: before, input, after, rfl,
          forall_mem_cons.mpr ⟨⟨output, hfirst⟩, hbefore⟩, hinput⟩
      · cases h

/-! ## Forms of documents -/

namespace Json

variable {document : Json}

/-- A document is taken for a string if it is one. -/
theorem asString?_eq_some_iff {value : String} :
    document.asString? = some value ↔ document = .string value := by
  cases document <;> simp [asString?]

/-- A document is taken for members if it is an object with them. -/
theorem asObject?_eq_some_iff {members : List (String × Json)} :
    document.asObject? = some members ↔ document = .object members := by
  cases document <;> simp [asObject?]

/-- A document is taken for strings if it is an array of just them. -/
theorem asStrings?_eq_some_iff {values : List String} :
    document.asStrings? = some values ↔ document = .array (values.map .string) := by
  cases document with
  | array elements =>
    simp only [asStrings?, asArray?, Option.bind_eq_bind, Option.bind_some, mapM_eq_some_iff,
      asString?_eq_some_iff, array.injEq]
    rw [← forall₂_map_right_iff, forall₂_eq_eq_eq]
  | _ => simp [asStrings?, asArray?]

end Json

end Restyle
