import Restyle.Text.Span

/-!
# Filling spans

`Text.fill` puts new texts in place of spans that follow one another, and keeps every byte between
them. Spans that get back what stood there change nothing: `Text.fill_slices`.
-/

namespace Restyle

open List

/-- The spans follow one another from `offset` on and end at `limit` or before. -/
def Span.Ordered (limit offset : Nat) : List Span → Prop
  | [] => offset ≤ limit
  | span :: later =>
    offset ≤ span.start ∧ span.start ≤ span.stop ∧ Ordered limit span.stop later

variable {limit offset : Nat} {spans : List Span}

/-- Spans that follow one another end at the limit or before. -/
theorem Span.Ordered.offset_le (h : Span.Ordered limit offset spans) : offset ≤ limit := by
  induction spans generalizing offset with
  | nil => exact h
  | cons span later ih =>
    obtain ⟨hstart, horder, hlater⟩ := h
    exact Nat.le_trans hstart (Nat.le_trans horder (ih hlater))

theorem Span.Ordered.of_append {before after : List Span}
    (h : Span.Ordered limit offset (before ++ after)) :
    ∃ start, offset ≤ start ∧ Span.Ordered limit start after := by
  induction before generalizing offset with
  | nil => exact ⟨offset, Nat.le_refl _, h⟩
  | cons span before ih =>
    obtain ⟨hstart, horder, hlater⟩ := h
    obtain ⟨start, hle, hafter⟩ := ih hlater
    exact ⟨start, Nat.le_trans hstart (Nat.le_trans horder hle), hafter⟩

/-- Of spans that follow one another each ends before the next begins. -/
theorem Span.Ordered.pairwise (h : Span.Ordered limit offset spans) :
    spans.Pairwise fun left right => left.stop ≤ right.start := by
  induction spans generalizing offset with
  | nil => exact .nil
  | cons span later ih =>
    refine pairwise_cons.mpr ⟨fun other hmem => ?_, ih h.2.2⟩
    obtain ⟨before, after, rfl⟩ := append_of_mem hmem
    obtain ⟨start, hle, hstart, -⟩ := h.2.2.of_append
    exact Nat.le_trans hle hstart

theorem Span.Ordered.mono {offset' : Nat} (hle : offset' ≤ offset)
    (h : Span.Ordered limit offset spans) : Span.Ordered limit offset' spans := by
  cases spans with
  | nil => exact Nat.le_trans hle h
  | cons span later => exact ⟨Nat.le_trans hle h.1, h.2⟩

theorem Span.ordered_of_pairwise (hoffset : offset ≤ limit)
    (hbounds : ∀ span ∈ spans, offset ≤ span.start ∧ span.start ≤ span.stop ∧ span.stop ≤ limit)
    (hpairwise : spans.Pairwise fun left right => left.stop ≤ right.start) :
    Span.Ordered limit offset spans := by
  induction spans generalizing offset with
  | nil => exact hoffset
  | cons span later ih =>
    obtain ⟨hhead, htail⟩ := pairwise_cons.mp hpairwise
    obtain ⟨hstart, horder, hstop⟩ := hbounds span mem_cons_self
    refine ⟨hstart, horder, ih hstop (fun other hmem => ?_) htail⟩
    exact ⟨hhead other hmem, (hbounds other (mem_cons_of_mem _ hmem)).2⟩

namespace Text

/-- The text from `offset` on, with new texts in place of spans that follow one another. -/
def fill (text : Text) (offset : Nat) : List (Span × Text) → Text
  | [] => text.drop offset
  | (span, new) :: later =>
    (Span.mk offset span.start).slice text ++ new ++ fill text span.stop later

variable {middle : Nat}

theorem slice_append_slice {start stop : Nat} (hstart : start ≤ middle) (hstop : middle ≤ stop)
    (text : Text) :
    (Span.mk start middle).slice text ++ (Span.mk middle stop).slice text =
      (Span.mk start stop).slice text := by
  simp only [Span.slice]
  rw [show stop - start = (middle - start) + (stop - middle) by omega, take_add,
    drop_drop, show start + (middle - start) = middle by omega]

theorem slice_append_drop {start : Nat} (h : start ≤ middle) (text : Text) :
    (Span.mk start middle).slice text ++ text.drop middle = text.drop start := by
  have hsplit := take_append_drop (middle - start) (text.drop start)
  rwa [drop_drop, show start + (middle - start) = middle by omega] at hsplit

/-- What stands before the spans is kept. -/
theorem fill_skip {items : List (Span × Text)} (h : offset ≤ middle)
    (hordered : Span.Ordered limit middle (items.map Prod.fst)) (text : Text) :
    fill text offset items = (Span.mk offset middle).slice text ++ fill text middle items := by
  cases items with
  | nil => rw [fill, fill, slice_append_drop h]
  | cons item later =>
    obtain ⟨hstart, -, -⟩ := hordered
    rw [fill, fill, ← slice_append_slice h hstart]
    simp only [append_assoc]

theorem fill_slices (hordered : Span.Ordered limit offset spans) (text : Text) :
    fill text offset (spans.map fun span => (span, span.slice text)) = text.drop offset := by
  induction spans generalizing offset with
  | nil => rfl
  | cons span later ih =>
    obtain ⟨hstart, horder, hlater⟩ := hordered
    rw [map_cons, fill, ih hlater, append_assoc, slice_append_drop horder, slice_append_drop hstart]

/-- Only the spans whose text is new need be filled. -/
theorem fill_filter {α : Type} {items : List α} (item : α → Span × Text) (isNew : α → Bool)
    (text : Text) (hordered : Span.Ordered limit offset (items.map fun entry => (item entry).1))
    (hold : ∀ entry ∈ items, isNew entry = false → (item entry).2 = (item entry).1.slice text) :
    fill text offset ((items.filter isNew).map item) = fill text offset (items.map item) ∧
      Span.Ordered limit offset ((items.filter isNew).map fun entry => (item entry).1) := by
  induction items generalizing offset with
  | nil => exact ⟨rfl, hordered⟩
  | cons entry later ih =>
    obtain ⟨hstart, horder, hlater⟩ := hordered
    obtain ⟨hfill, hfiltered⟩ := ih hlater fun entry hmem => hold entry (mem_cons_of_mem _ hmem)
    by_cases hnew : isNew entry
    · rw [filter_cons_of_pos hnew, map_cons, fill, hfill]
      exact ⟨rfl, hstart, horder, hfiltered⟩
    · have hslice := hold entry mem_cons_self (by simpa using hnew)
      have hskip : Span.Ordered limit (item entry).1.stop
          (((later.filter isNew).map item).map Prod.fst) := by
        rwa [map_map]
      rw [filter_cons_of_neg hnew, map_cons, fill, ← hfill,
        fill_skip (Nat.le_trans hstart horder) hskip, ← slice_append_slice hstart horder, hslice]
      exact ⟨rfl, hfiltered.mono (Nat.le_trans hstart horder)⟩

end Text

end Restyle
