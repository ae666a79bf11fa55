import Restyle.Text.Span

/-!
# Offsets around a word

Two texts that differ in one word only have the same places up to the length of the word. `stretch`
takes the offsets of the text with a word of one byte there to those of the text with a longer word.
It keeps the order of offsets (`stretch_le_stretch`), and what is found at a span of the one text
stands at the stretched span of the other, with the word in it or not: `slice_around`.

What a reader finds in the one text it finds at the stretched places of the other, if it takes the
same steps in both: `SameSteps.around`.
-/

namespace Restyle

open List

/-- Where an offset moves when a word of so many bytes takes the place of the byte at a position. -/
def stretch (position length offset : Nat) : Nat :=
  if offset ≤ position then offset else offset + (length - 1)

/-- Where a span moves when a word of so many bytes takes the place of the byte at a position. -/
def Span.stretch (position length : Nat) (span : Span) : Span :=
  ⟨Restyle.stretch position length span.start, Restyle.stretch position length span.stop⟩

section Stretch

variable {position length left right : Nat}

theorem stretch_of_le (h : left ≤ position) : stretch position length left = left :=
  if_pos h

theorem stretch_of_lt (h : position < left) :
    stretch position length left = left + (length - 1) :=
  if_neg (Nat.not_le.mpr h)

theorem stretch_le_stretch :
    stretch position length left ≤ stretch position length right ↔ left ≤ right := by
  unfold stretch
  split <;> split <;> omega

theorem stretch_lt_stretch :
    stretch position length left < stretch position length right ↔ left < right := by
  rw [← Nat.not_le, ← Nat.not_le, stretch_le_stretch]

theorem stretch_inj :
    stretch position length left = stretch position length right ↔ left = right := by
  rw [Nat.le_antisymm_iff, Nat.le_antisymm_iff, stretch_le_stretch, stretch_le_stretch]

theorem stretch_succ (h : left ≠ position) :
    stretch position length (left + 1) = stretch position length left + 1 := by
  unfold stretch
  split <;> split <;> omega

theorem stretch_succ_self (h : 0 < length) :
    stretch position length (position + 1) = position + length := by
  unfold stretch
  split <;> omega

/-- Offsets from a place before the word on move as offsets do. -/
theorem stretch_add {start : Nat} (h : start ≤ position) (offset : Nat) :
    stretch position length (offset + start) =
      stretch (position - start) length offset + start := by
  unfold stretch
  split <;> split <;> omega

theorem stretch_one (offset : Nat) : stretch position 1 offset = offset := by
  unfold stretch
  split <;> rfl

/-- A span around the word was one around the byte. -/
theorem Span.around_of_stretch {span : Span} (hlength : 0 < length)
    (hstart : (span.stretch position length).start ≤ position)
    (hstop : position + length ≤ (span.stretch position length).stop) :
    span.start ≤ position ∧ position < span.stop := by
  simp only [Span.stretch, Restyle.stretch] at hstart hstop
  split at hstart <;> split at hstop <;> omega

theorem Span.stretch_inj {span span' : Span} :
    span.stretch position length = span'.stretch position length ↔ span = span' := by
  cases span
  cases span'
  simp only [Span.stretch, Span.mk.injEq, Restyle.stretch_inj]

end Stretch

/-! ## Slices around a word -/

section Slice

variable {α : Type} {before word after : List α} {start stop : Nat}

theorem slice_before (h : stop ≤ before.length) (rest : List α) :
    ((before ++ rest).drop start).take (stop - start) =
      (before.drop start).take (stop - start) := by
  by_cases hstart : start ≤ before.length
  · rw [drop_append_of_le_length hstart, take_append_of_le_length]
    rw [length_drop]
    omega
  · rw [show stop - start = 0 by omega, take_zero, take_zero]

theorem slice_after (hword : word ≠ []) (h : before.length < start) :
    ((before ++ word ++ after).drop (stretch before.length word.length start)).take
        (stretch before.length word.length stop - stretch before.length word.length start) =
      (after.drop (start - (before.length + 1))).take (stop - start) := by
  have hlength : 0 < word.length := length_pos_iff.mpr hword
  have hdrop : (before ++ word ++ after).drop (stretch before.length word.length start) =
      after.drop (start - (before.length + 1)) := by
    rw [stretch_of_lt h, drop_append, drop_of_length_le (by rw [length_append]; omega), nil_append]
    congr 1
    rw [length_append]
    omega
  have hcount : stretch before.length word.length stop - stretch before.length word.length start =
      stop - start := by
    rw [stretch_of_lt h]
    unfold stretch
    split <;> omega
  rw [hdrop, hcount]

theorem slice_around (hword : word ≠ []) (hstart : start ≤ before.length)
    (hstop : before.length < stop) :
    ((before ++ word ++ after).drop (stretch before.length word.length start)).take
        (stretch before.length word.length stop - stretch before.length word.length start) =
      before.drop start ++ word ++ after.take (stop - (before.length + 1)) := by
  have hlength : 0 < word.length := length_pos_iff.mpr hword
  rw [stretch_of_le hstart, stretch_of_lt hstop, append_assoc, drop_append_of_le_length hstart,
    ← append_assoc, take_append, take_of_length_le (by rw [length_append, length_drop]; omega)]
  congr 2
  rw [length_append, length_drop]
  omega

theorem slice_around_one {one : List α} (hone : one.length = 1) (hstart : start ≤ before.length)
    (hstop : before.length < stop) :
    ((before ++ one ++ after).drop start).take (stop - start) =
      before.drop start ++ one ++ after.take (stop - (before.length + 1)) := by
  have haround := @slice_around _ before one after start stop
    (length_pos_iff.mp (by omega)) hstart hstop
  rwa [hone, stretch_one, stretch_one] at haround

/-- What stands apart from the word does not depend on it. -/
theorem slice_apart {one : List α} (hone : one.length = 1) (hword : word ≠ [])
    (h : stop ≤ before.length ∨ before.length < start) :
    ((before ++ word ++ after).drop (stretch before.length word.length start)).take
        (stretch before.length word.length stop - stretch before.length word.length start) =
      ((before ++ one ++ after).drop start).take (stop - start) := by
  by_cases hafter : before.length < start
  · have hslice := @slice_after _ before one after start stop (length_pos_iff.mp (by omega)) hafter
    rw [hone, stretch_one, stretch_one] at hslice
    rw [hslice, slice_after hword hafter]
  · have hstop : stop ≤ before.length := h.resolve_right hafter
    rw [stretch_of_le (Nat.not_lt.mp hafter), stretch_of_le hstop, append_assoc,
      append_assoc, slice_before hstop, slice_before hstop]

end Slice

/-! ## Readers -/

section Readers

variable {α β σ : Type} {position length : Nat} {sound : σ → Prop} {move : σ → σ} {view : β → β}
  {read read' : Nat → σ → List α → List β}

/-- Two readers take the same step at every item apart from the word and find the same at the end,
up to the places that they remember and find. A reader is given the offset, what it remembers and
what is left of the text. -/
structure SameSteps (position length : Nat) (sound : σ → Prop) (move : σ → σ) (view : β → β)
    (read read' : Nat → σ → List α → List β) : Prop where
  step : ∀ {offset memory}, offset ≠ position → sound memory → ∀ item, ∃ found next, sound next ∧
    ∀ rest, read offset memory (item :: rest) = found ++ read (offset + 1) next rest ∧
      read' (stretch position length offset) (move memory) (item :: rest) =
        found.map view ++ read' (stretch position length offset + 1) (move next) rest
  stop : ∀ offset {memory}, sound memory →
    read' (stretch position length offset) (move memory) [] = (read offset memory []).map view

variable (h : SameSteps position length sound move view read read')
include h

/-- Readers find the same places in a text apart from the word, if they do in what follows. -/
theorem SameSteps.append {items tail tail' : List α} (offset : Nat)
    (hplace : ∀ place, offset ≤ place → place < offset + items.length → place ≠ position)
    (htail : ∀ {memory}, sound memory →
      read' (stretch position length (offset + items.length)) (move memory) tail' =
        (read (offset + items.length) memory tail).map view) {memory : σ} (hmemory : sound memory) :
    read' (stretch position length offset) (move memory) (items ++ tail') =
      (read offset memory (items ++ tail)).map view := by
  -- No item is at the place of the word, so each is taken by a step that both readers share.
  induction items generalizing offset memory with
  | nil => exact htail hmemory
  | cons item items ih =>
    have hne : offset ≠ position := hplace offset (Nat.le_refl _) (by rw [length_cons]; omega)
    obtain ⟨found, next, hnext, hstep⟩ := h.step hne hmemory item
    have hlength : offset + 1 + items.length = offset + (item :: items).length := by
      rw [length_cons]
      omega
    have hlater := ih (offset + 1) (fun place hle hlt => hplace place (by omega) (by omega))
      (by rw [hlength]; exact htail) hnext
    rw [cons_append, cons_append, (hstep _).1, (hstep _).2, map_append, ← stretch_succ hne, hlater]

/-- Readers find the same places in a text apart from the word. -/
theorem SameSteps.apart (items : List α) (offset : Nat)
    (hplace : ∀ place, offset ≤ place → place < offset + items.length → place ≠ position)
    (memory : σ) (hmemory : sound memory) :
    read' (stretch position length offset) (move memory) items =
      (read offset memory items).map view := by
  have happend := h.append offset hplace (fun hmemory => h.stop _ hmemory) hmemory
  rwa [append_nil] at happend

/-- Readers find the same places in a text around the word, if they take the same step there. -/
theorem SameSteps.around {before word word' after : List α} {offset : Nat}
    (hposition : offset + before.length = position) (hlength : 0 < length)
    (hword : ∀ {memory}, sound memory → ∃ found next, sound next ∧ ∀ rest,
      read position memory (word ++ rest) = found ++ read (position + 1) next rest ∧
        read' position (move memory) (word' ++ rest) =
          found.map view ++ read' (position + length) (move next) rest) (memory : σ)
    (hmemory : sound memory) :
    read' offset (move memory) (before ++ word' ++ after) =
      (read offset memory (before ++ word ++ after)).map view := by
  have hbefore : read' (stretch position length offset) (move memory)
      (before ++ (word' ++ after)) = (read offset memory (before ++ (word ++ after))).map view := by
    refine h.append offset (fun place _ hlt => by omega) (fun hmemory => ?_) hmemory
    obtain ⟨found, next, hnext, hstep⟩ := hword hmemory
    have hafter := h.apart after (position + 1) (fun place hle _ => by omega) next hnext
    rw [stretch_succ_self hlength] at hafter
    rw [hposition, stretch_of_le (Nat.le_refl _), (hstep after).1, (hstep after).2, map_append,
      hafter]
  rwa [stretch_of_le (by omega), ← append_assoc, ← append_assoc] at hbefore

/-- Readers find the same places in a text around a word that they pass over. -/
theorem SameSteps.passing {before word word' : List α} {offset : Nat}
    (hposition : offset + before.length = position) (hword : word.length = 1)
    (hword' : word'.length = length) (hlength : 0 < length)
    (hread : ∀ memory rest, read position memory (word ++ rest) =
      read (position + word.length) memory rest)
    (hread' : ∀ memory rest, read' position memory (word' ++ rest) =
      read' (position + word'.length) memory rest) (after : List α) (memory : σ)
    (hmemory : sound memory) :
    read' offset (move memory) (before ++ word' ++ after) =
      (read offset memory (before ++ word ++ after)).map view := by
  refine h.around hposition hlength (fun {memory} hmemory => ?_) memory hmemory
  refine ⟨[], memory, hmemory, fun rest => ⟨?_, ?_⟩⟩
  · rw [hread, hword, nil_append]
  · rw [hread', hword', map_nil, nil_append]

end Readers

end Restyle
