import Mathlib.Logic.Relation
import Restyle.Proofs.Text.Chars
import Restyle.Proofs.Text.Fill
import Restyle.Proofs.Text.Stretch
import Restyle.Proofs.Token.Occurrences

/-!
# Readings that do not depend on words

A reading finds spans in a text. It is stable if it finds the same spans, up to the length of the
word, whichever word stands at a place inside one of them: `StableReading`. What a stable reading
finds can be filled with texts that have other words in it, any number of them, and the reading
finds these texts: `StableReading.fill`.
-/

namespace Restyle

open List Span

open Token (isIdentifierByte)

/-- A word that begins with a hyphen. -/
structure Token.IsWord (word : Text) : Prop where
  head : word.head? = some Byte.hyphen
  identifier : ∀ byte ∈ word, isIdentifierByte byte

theorem Token.IsWord.ne_nil {word : Text} (h : Token.IsWord word) : word ≠ [] := by
  rintro rfl
  cases h.head

theorem Token.isWord_hyphen : Token.IsWord [Byte.hyphen] :=
  ⟨rfl, forall_mem_singleton.mpr (by decide)⟩

/-- The second text has another word in the place of a word of the first. -/
def Swap (before after : Text) : Prop :=
  ∃ left word other right, Token.IsWord word ∧ Token.IsWord other ∧
    before = left ++ word ++ right ∧ after = left ++ other ++ right

/-- The second text has other words in the places of words of the first. -/
abbrev Swaps : Text → Text → Prop :=
  Relation.ReflTransGen Swap

variable {before : Text}

theorem Swaps.around {after : Text} (h : Swaps before after) (left right : Text) :
    Swaps (left ++ before ++ right) (left ++ after ++ right) := by
  refine h.lift (fun text => left ++ text ++ right) ?_
  rintro _ _ ⟨start, word, other, stop, hword, hother, rfl, rfl⟩
  exact ⟨left ++ start, word, other, stop ++ right, hword, hother, by simp, by simp⟩

theorem Swaps.append {after before' after' : Text} (h : Swaps before after)
    (h' : Swaps before' after') : Swaps (before ++ before') (after ++ after') := by
  have hfirst := h.around [] before'
  have hsecond := h'.around after []
  rw [append_nil, append_nil] at hsecond
  exact hfirst.trans hsecond

namespace Text

theorem swaps_fill {α : Type} {items : List α} {span : α → Span} {old new : α → Text}
    (h : ∀ item ∈ items, Swaps (old item) (new item)) (text : Text) (offset : Nat) :
    Swaps (text.fill offset (items.map fun item => (span item, old item)))
      (text.fill offset (items.map fun item => (span item, new item))) := by
  induction items generalizing offset with
  | nil => exact Relation.ReflTransGen.refl
  | cons item items ih =>
    obtain ⟨hitem, hitems⟩ := forall_mem_cons.mp h
    exact Swaps.append (Swaps.append Relation.ReflTransGen.refl hitem) (ih hitems _)

/-! ## Places of filled texts -/

/-- Where the texts that are filled in stand, if the filling from `offset` on begins at `start`. -/
def places (start offset : Nat) : List (Span × Text) → List Span
  | [] => []
  | (span, new) :: later =>
    ⟨start + (span.start - offset), start + (span.start - offset) + new.length⟩ ::
      places (start + (span.start - offset) + new.length) span.stop later

theorem slice_middle (front new rest : Text) :
    (mk front.length (front ++ new).length).slice (front ++ new ++ rest) = new := by
  simp only [slice, append_assoc, drop_left, length_append, Nat.add_sub_cancel_left, take_left]

variable {offset : Nat}

variable {before items after : List (Span × Text)} {text : Text}

/-- The texts that are filled in stand at their places. -/
theorem slice_places (h : Span.Ordered text.length offset (items.map Prod.fst)) (front : Text) :
    (places front.length offset items).map (slice · (front ++ text.fill offset items)) =
      items.map Prod.snd := by
  induction items generalizing offset front with
  | nil => rfl
  | cons item items ih =>
    obtain ⟨span, new⟩ := item
    obtain ⟨hstart, horder, hlater⟩ := h
    have hgap : ((mk offset span.start).slice text).length = span.start - offset :=
      length_slice (Nat.le_trans horder hlater.offset_le)
    have hfront : front.length + (span.start - offset) =
        (front ++ (mk offset span.start).slice text).length := by
      rw [length_append, hgap]
    have htext : front ++ text.fill offset ((span, new) :: items) =
        front ++ (mk offset span.start).slice text ++ new ++ text.fill span.stop items := by
      rw [fill, append_assoc, append_assoc, append_assoc]
    rw [places, htext, hfront, ← length_append]
    exact congrArg₂ cons (slice_middle ..) (ih hlater _)

theorem places_add (start offset distance : Nat) (items : List (Span × Text)) :
    places (start + distance) offset items =
      (places start offset items).map fun span =>
        ⟨span.start + distance, span.stop + distance⟩ := by
  induction items generalizing start offset with
  | nil => rfl
  | cons item items ih =>
    refine congrArg₂ cons ?_ ?_
    · simp only [mk.injEq]
      omega
    · rw [← ih]
      congr 1
      omega

theorem le_of_mem_places {start : Nat} {place : Span} (h : place ∈ places start offset items) :
    start ≤ place.start ∧ place.start ≤ place.stop := by
  induction items generalizing start offset with
  | nil => cases h
  | cons item items ih =>
    rcases mem_cons.mp h with rfl | hlater
    · exact ⟨Nat.le_add_right _ _, Nat.le_add_right _ _⟩
    · have hbounds := ih hlater
      omega

theorem length_places (start offset : Nat) (items : List (Span × Text)) :
    (places start offset items).length = items.length := by
  induction items generalizing start offset with
  | nil => rfl
  | cons item items ih => rw [places, length_cons, length_cons, ih]

/-- A text that is filled in between others stands behind the same front, whichever text it is. -/
theorem fill_between {span : Span}
    (h : Span.Ordered text.length offset (before.map Prod.fst ++ span :: after.map Prod.fst))
    (start : Nat) :
    ∃ front : Text,
      (∀ place ∈ places start offset before, place.start ≤ place.stop ∧
        place.stop ≤ start + front.length) ∧
      ∀ new, text.fill offset (before ++ (span, new) :: after) =
          front ++ new ++ text.fill span.stop after ∧
        places start offset (before ++ (span, new) :: after) =
          places start offset before ++ ⟨start + front.length, start + front.length + new.length⟩ ::
            places (start + front.length + new.length) span.stop after := by
  induction before generalizing offset start with
  | nil =>
    refine ⟨(mk offset span.start).slice text, by simp [places], fun new => ⟨rfl, ?_⟩⟩
    rw [length_slice (Nat.le_trans h.2.1 h.2.2.offset_le)]
    rfl
  | cons item before ih =>
    obtain ⟨first, old⟩ := item
    obtain ⟨hstart, horder, hlater⟩ := h
    have hgap : ((mk offset first.start).slice text).length = first.start - offset :=
      length_slice (Nat.le_trans horder hlater.offset_le)
    obtain ⟨front, hplaces, hfront⟩ := ih hlater (start + (first.start - offset) + old.length)
    have hlength : start + (first.start - offset) + old.length + front.length = start +
        ((mk offset first.start).slice text ++ old ++ front).length := by
      rw [length_append, length_append]
      omega
    refine ⟨(mk offset first.start).slice text ++ old ++ front, ?_, fun new => ⟨?_, ?_⟩⟩
    · rw [← hlength]
      refine forall_mem_cons.mpr ⟨⟨Nat.le_add_right _ _, by simp only; omega⟩, hplaces⟩
    · rw [cons_append, fill, (hfront new).1]
      simp only [append_assoc]
    · rw [cons_append, places, (hfront new).2, ← hlength]
      rfl

/-- The places of filled texts are the same, up to the length of a word in one of the texts. -/
theorem places_stretch {span : Span} (left right : Text)
    (h : Span.Ordered text.length offset (before.map Prod.fst ++ span :: after.map Prod.fst)) :
    ∃ (front : Text) (places' : List Span), ∀ word, word ≠ [] →
      text.fill offset (before ++ (span, left ++ word ++ right) :: after) =
          front ++ left ++ word ++ (right ++ text.fill span.stop after) ∧
        places 0 offset (before ++ (span, left ++ word ++ right) :: after) =
          places'.map (Span.stretch (front ++ left).length word.length) ∧
        ⟨front.length, front.length + (left ++ word ++ right).length⟩ ∈
          places 0 offset (before ++ (span, left ++ word ++ right) :: after) := by
  obtain ⟨front, hbefore, hfront⟩ := fill_between h 0
  refine ⟨front, places 0 offset before ++
    ⟨front.length, front.length + left.length + right.length + 1⟩ ::
      places (front.length + left.length + right.length + 1) span.stop after, fun word hword => ?_⟩
  have hlength : 0 < word.length := length_pos_iff.mpr hword
  obtain ⟨htext, hplaces⟩ := hfront (left ++ word ++ right)
  have hmoved : front.length + (left ++ word ++ right).length =
      front.length + left.length + right.length + 1 + (word.length - 1) := by
    rw [length_append, length_append]
    omega
  rw [Nat.zero_add] at hplaces
  refine ⟨?_, ?_, ?_⟩
  · rw [htext]
    simp only [append_assoc]
  · rw [hplaces, map_append, hmoved, places_add]
    refine congrArg₂ (· ++ ·) ?_ (congrArg₂ cons ?_ ?_)
    · refine ((map_congr_left fun place hmem => ?_).trans (map_id _)).symm
      have hbounds := hbefore place hmem
      rw [Span.stretch, stretch_of_le, stretch_of_le]
      · rfl
      all_goals
        rw [length_append]
        omega
    · rw [Span.stretch, stretch_of_le, stretch_of_lt]
      all_goals
        simp only [length_append]
        omega
    · refine map_congr_left fun place hmem => ?_
      have hbounds := le_of_mem_places hmem
      rw [Span.stretch, stretch_of_lt, stretch_of_lt]
      all_goals
        rw [length_append]
        omega
  · rw [hplaces]
    exact mem_append_right _ mem_cons_self

end Text

/-! ## Stable readings -/

variable {μ : Type} {reading : Text → List (Span × μ)} {text : Text} {before : List (Span × Text)}
  {marks : List μ}

/-- The reading finds the same spans, up to the length of the word, whichever word stands at a place
inside one of them. -/
def StableReading (reading : Text → List (Span × μ)) : Prop :=
  ∀ left word right, Token.IsWord word →
    (∃ item ∈ reading (left ++ word ++ right),
      item.1.start ≤ left.length ∧ left.length + word.length ≤ item.1.stop) →
    ∃ items : List (Span × μ), ∀ other, Token.IsWord other →
      reading (left ++ other ++ right) =
        items.map fun item => (item.1.stretch left.length other.length, item.2)

/-- The reading finds the texts that are filled in at their places, with the marks. -/
def Finds (reading : Text → List (Span × μ)) (marks : List μ) (text : Text)
    (filled : List (Span × Text)) : Prop :=
  reading (text.fill 0 filled) = (Text.places 0 0 filled).zip marks

section Swapped

variable {old new : Text} {after : List (Span × Text)} {span : Span}
  (hreading : StableReading reading)
  (hordered : Span.Ordered text.length 0 (before.map Prod.fst ++ span :: after.map Prod.fst))
  (hmarks : marks.length = before.length + after.length + 1)
include hreading hordered hmarks

/-- A stable reading finds the texts that are filled in also after a word of one of them has been
swapped. -/
theorem StableReading.swap (hswap : Swap old new)
    (h : Finds reading marks text (before ++ (span, old) :: after)) :
    Finds reading marks text (before ++ (span, new) :: after) := by
  unfold Finds at h ⊢
  obtain ⟨left, word, other, right, hword, hother, rfl, rfl⟩ := hswap
  obtain ⟨front, places', hplaces⟩ := Text.places_stretch left right hordered
  obtain ⟨htext, hstretch, hmem⟩ := hplaces word hword.ne_nil
  obtain ⟨htext', hstretch', -⟩ := hplaces other hother.ne_nil
  have hcount : (Text.places 0 0 (before ++ (span, left ++ word ++ right) :: after)).length ≤
      marks.length := by
    rw [Text.length_places, length_append, length_cons]
    omega
  -- The word stands in one of the spans that are read.
  rw [← map_fst_zip hcount, ← h, htext] at hmem
  obtain ⟨item, hitem, hplace⟩ := mem_map.mp hmem
  obtain ⟨items, hitems⟩ := hreading (front ++ left) word _ hword ⟨item, hitem, by
    rw [hplace]
    simp only [length_append]
    omega⟩
  have hzip : items = places'.zip marks := by
    have hword := hitems word hword
    rw [← htext, h, hstretch, zip_map_left] at hword
    refine (List.map_inj_right fun first second heq => ?_).mp hword.symm
    obtain ⟨hspan, hmark⟩ := Prod.mk.inj heq
    exact Prod.ext (Span.stretch_inj.mp hspan) hmark
  rw [htext', hitems other hother, hzip, hstretch', zip_map_left]
  rfl

/-- A stable reading finds the texts that are filled in also after words of one of them have been
swapped. -/
theorem StableReading.swaps (hswaps : Swaps old new)
    (h : Finds reading marks text (before ++ (span, old) :: after)) :
    Finds reading marks text (before ++ (span, new) :: after) := by
  induction hswaps with
  | refl => exact h
  | tail _ hswap ih => exact hreading.swap hordered hmarks hswap ih

end Swapped

/-- A stable reading finds the texts that are filled in also after words of all of them have been
swapped. -/
theorem StableReading.swaps_all {α : Type} (hreading : StableReading reading) {items : List α}
    {span : α → Span} {old new : α → Text}
    (hordered : Span.Ordered text.length 0 (before.map Prod.fst ++ items.map span))
    (hmarks : marks.length = before.length + items.length)
    (hnew : ∀ item ∈ items, Swaps (old item) (new item))
    (h : Finds reading marks text (before ++ items.map fun item => (span item, old item))) :
    Finds reading marks text (before ++ items.map fun item => (span item, new item)) := by
  induction items generalizing before with
  | nil => exact h
  | cons item items ih =>
    obtain ⟨hitem, hitems⟩ := forall_mem_cons.mp hnew
    have hspans : (items.map fun item => (span item, old item)).map Prod.fst = items.map span := by
      rw [map_map]
      rfl
    have hfirst := hreading.swaps (by rwa [hspans])
      (by rw [hmarks, length_map, length_cons, Nat.add_assoc]) hitem h
    -- The first item now counts as one of those before.
    rw [append_cons] at hfirst
    have hlater := ih (by rwa [map_append, append_assoc])
      (by rw [hmarks, length_append, length_cons, length_singleton]; omega)
      hitems hfirst
    rwa [← append_cons] at hlater

/-- What a reading found in a text stands at its places. -/
theorem Text.places_slices {offset : Nat} {spans : List Span}
    (h : Span.Ordered text.length offset spans) :
    places offset offset (spans.map fun span => (span, span.slice text)) = spans := by
  induction spans generalizing offset with
  | nil => rfl
  | cons span spans ih =>
    obtain ⟨hstart, horder, hlater⟩ := h
    have hbegin : offset + (span.start - offset) = span.start := by omega
    have hend : span.start + (span.slice text).length = span.stop := by
      rw [length_slice hlater.offset_le]
      omega
    rw [map_cons, places, hbegin, hend, ih hlater]

/-- A stable reading finds the texts that are filled in, if they have other words than what it found
there. -/
theorem StableReading.fill {α : Type} (hreading : StableReading reading) {items : List α}
    {span : α → Span} (mark : α → μ) {new : α → Text}
    (hitems : reading text = items.map fun item => (span item, mark item))
    (hordered : Span.Ordered text.length 0 (items.map span))
    (hnew : ∀ item ∈ items, Swaps ((span item).slice text) (new item)) :
    (reading (text.fill 0 (items.map fun item => (span item, new item)))).map
        (fun found => (found.2,
          found.1.slice (text.fill 0 (items.map fun item => (span item, new item))))) =
      items.map fun item => (mark item, new item) := by
  have hslices : (items.map fun item => (span item, (span item).slice text)) =
      (items.map span).map fun span => (span, span.slice text) := by
    rw [map_map]
    rfl
  have hstart : Finds reading (items.map mark) text
      ([] ++ items.map fun item => (span item, (span item).slice text)) := by
    rw [nil_append, hslices, Finds, Text.fill_slices hordered, Text.places_slices hordered,
      drop_zero, hitems, zip_map']
  have hfound := hreading.swaps_all (by exact hordered) (by simp) hnew hstart
  rw [nil_append] at hfound
  have hspans : (items.map fun item => (span item, new item)).map Prod.fst = items.map span := by
    rw [map_map]
    rfl
  have hplaces := Text.slice_places (hspans.symm ▸ hordered) []
  rw [map_map] at hplaces
  rw [hfound]
  calc (((Text.places 0 0 (items.map fun item => (span item, new item))).zip (items.map mark)).map
        fun found => (found.2,
          found.1.slice (text.fill 0 (items.map fun item => (span item, new item)))))
      = ((items.map new).zip (items.map mark)).map Prod.swap := by
        rw [← show _ = items.map new from hplaces, zip_map_left, map_map]
        rfl
    _ = items.map fun item => (mark item, new item) := by
        rw [zip_map', map_map]
        rfl

end Restyle
