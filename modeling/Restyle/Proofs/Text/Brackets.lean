import Mathlib.Combinatorics.Enumerative.DyckWord
import Restyle.Text

/-!
# Brackets

The brackets of a text lead up where one opens and down where one closes. They are nested if they
make a Dyck word: no prefix closes more of them than it opens, and all that are opened are closed.
Nested brackets may take the place of others in a text whose brackets are nested:
`isDyck_replace`.
-/

namespace Restyle

open List

open DyckStep

/-- The step that a byte makes, if it is a bracket. -/
def bracket? (opening closing byte : UInt8) : Option DyckStep :=
  if byte == opening then some U else if byte == closing then some D else none

/-- The brackets of a text in their order. -/
def brackets (opening closing : UInt8) (text : Text) : List DyckStep :=
  text.filterMap (bracket? opening closing)

/-- No prefix of the steps leads down more often than up, and all of them together lead up as often
as down. -/
def IsDyck (steps : List DyckStep) : Prop :=
  ∃ word : DyckWord, word.toList = steps

variable {opening closing : UInt8} {steps : List DyckStep}

theorem isDyck_iff : IsDyck steps ↔ steps.count U = steps.count D ∧
    ∀ index, (steps.take index).count D ≤ (steps.take index).count U := by
  constructor
  · rintro ⟨word, rfl⟩
    exact ⟨word.count_U_eq_count_D, word.count_D_le_count_U⟩
  · rintro ⟨htotal, hprefix⟩
    exact ⟨⟨steps, htotal, hprefix⟩, rfl⟩

theorem brackets_append (left right : Text) :
    brackets opening closing (left ++ right) =
      brackets opening closing left ++ brackets opening closing right :=
  filterMap_append

theorem brackets_eq_nil {text : Text} (hopening : opening ∉ text) (hclosing : closing ∉ text) :
    brackets opening closing text = [] := by
  refine filterMap_eq_nil_iff.mpr fun byte hmem => ?_
  have hopens : byte ≠ opening := fun h => hopening (h ▸ hmem)
  have hcloses : byte ≠ closing := fun h => hclosing (h ▸ hmem)
  simp [bracket?, hopens, hcloses]

/-- Steps among others may be replaced if both the old and the new ones are a Dyck word. -/
theorem isDyck_replace {before old new after : List DyckStep} (hold : IsDyck old)
    (hnew : IsDyck new) (h : IsDyck (before ++ (old ++ after))) :
    IsDyck (before ++ (new ++ after)) := by
  obtain ⟨holdTotal, -⟩ := isDyck_iff.mp hold
  obtain ⟨hnewTotal, hnewPrefix⟩ := isDyck_iff.mp hnew
  obtain ⟨htotal, hprefix⟩ := isDyck_iff.mp h
  simp only [count_append] at htotal
  refine isDyck_iff.mpr ⟨by simp only [count_append]; omega, fun index => ?_⟩
  have hbefore := hprefix before.length
  rw [take_left] at hbefore
  simp only [take_append, count_append]
  -- A prefix that reaches behind the new steps is compared with one that reaches behind the old.
  rcases Nat.lt_or_ge .. with hlt | hge
  · have := hprefix index
    rw [take_append_of_le_length (Nat.le_of_lt hlt)] at this
    simp [Nat.sub_eq_zero_of_le (Nat.le_of_lt hlt), this]
  · rw [take_of_length_le hge]
    rcases Nat.lt_or_ge (index - before.length) new.length with hlt | hge
    · have := hnewPrefix (index - before.length)
      simp only [Nat.sub_eq_zero_of_le (Nat.le_of_lt hlt), take_zero, count_nil]
      omega
    · rw [take_of_length_le hge]
      have := hprefix (before.length + (old.length + (index - before.length - new.length)))
      rw [take_length_add_append, take_length_add_append, count_append,
        count_append, count_append, count_append] at this
      omega

end Restyle
