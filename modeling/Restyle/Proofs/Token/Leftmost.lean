import Restyle.Proofs.Token.Passes
import Restyle.Proofs.Value.Cuts

/-!
# The leftmost search

The search for a token takes the leftmost occurrence that does not overlap the one before it. Read
`occurrences_leftmost` first: what is found stands alone, between characters, and what stands alone
and is not found begins inside something that is. A replacement puts the new text at the places that
are found and keeps every other byte (`Spliced`).
-/

namespace Restyle.Token

open List

variable {token text new : Text} {width offset limit : Nat} {positions : List Nat}

/-- The spans of a width that begin at positions. -/
def spansAt (width : Nat) (positions : List Nat) : List Span :=
  positions.map fun position => ⟨position, position + width⟩

/-- Read from an offset, the text is cut at the positions, and the result has the replacement for
the `width` bytes at each of them and everything else as it was. -/
inductive Spliced (width : Nat) (new : Text) : Nat → Text → List Nat → Text → Prop
  | rest (offset : Nat) (text : Text) : Spliced width new offset text [] text
  | part {offset : Nat} (gap : Text) {segment text result : Text} {positions : List Nat}
      (size : segment.length = width)
      (later : Spliced width new (offset + gap.length + width) text positions result) :
      Spliced width new offset (gap ++ segment ++ text) ((offset + gap.length) :: positions)
        (gap ++ new ++ result)

/-! ## Splices -/

theorem ordered_cons {position : Nat} {later : List Nat} :
    Span.Ordered limit offset (spansAt width (position :: later)) ↔
      offset ≤ position ∧ Span.Ordered limit (position + width) (spansAt width later) :=
  and_congr_right fun _ => and_iff_right (Nat.le_add_right _ _)

theorem Hits.ordered (hne : token ≠ []) (h : Hits token offset text positions)
    (hlimit : limit = offset + text.length) :
    Span.Ordered limit offset (spansAt token.length positions) := by
  have hpositive : 0 < token.length := length_pos_iff.mpr hne
  induction positions generalizing offset text with
  | nil => exact Nat.le.intro hlimit.symm
  | cons position later ih =>
    obtain ⟨hle, hbegins, hlater⟩ := h
    have hfits := hbegins.length_le
    rw [length_drop] at hfits
    refine ordered_cons.mpr ⟨hle, ih hlater ?_⟩
    rw [length_drop]
    omega

theorem pairwise_of_ordered (h : Span.Ordered limit offset (spansAt width positions)) :
    positions.Pairwise fun first second => first + width ≤ second := by
  have hspans := h.pairwise
  rwa [spansAt, pairwise_map] at hspans

/-- Splicing at positions that are apart replaces what is there and nothing else. -/
theorem spliced_splice (new : Text) (hlimit : limit = offset + text.length)
    (h : Span.Ordered limit offset (spansAt width positions)) :
    Spliced width new offset text positions (splice width new offset text positions) := by
  induction positions generalizing offset text with
  | nil => exact .rest offset text
  | cons position later ih =>
    obtain ⟨hle, hlater⟩ := ordered_cons.mp h
    have hstop := hlater.offset_le
    have hgap : offset + (text.take (position - offset)).length = position := by
      rw [length_take]
      omega
    have hsegment : ((text.drop (position - offset)).take width).length = width := by
      rw [length_take, length_drop]
      omega
    have hrest := @ih (text.drop (position - offset + width)) (position + width)
      (by rw [length_drop]; omega) hlater
    have htext : text.take (position - offset) ++ (text.drop (position - offset)).take width ++
        text.drop (position - offset + width) = text := by
      rw [append_assoc, ← drop_drop, take_append_drop, take_append_drop]
    have hpart := Spliced.part _ hsegment (hgap ▸ hrest)
    rwa [hgap, htext] at hpart

theorem Spliced.length_eq {result : Text} (h : Spliced width new offset text positions result) :
    (result.length : Int) = text.length + positions.length * (new.length - width) := by
  induction h with
  | rest => simp
  | part gap size later ih =>
    simp only [length_append, length_cons, Int.natCast_add, Int.natCast_succ, Int.add_mul,
      Int.one_mul, ih, size]
    omega

/-- In a well-formed text the offsets at which a token occurs increase by its length or more. At
each of them the token stands alone, between characters, and where else it stands alone a found
occurrence has begun before and goes on. Let the text be the mask of another, equally long one in
which these places stand between characters too. Then the replacement has a result, which is well
formed: the replacement in these places, and every other byte kept. -/
theorem occurrences_leftmost {token text : Text} (hne : token ≠ [])
    (htoken : Text.wellFormed token = true) (htext : Text.wellFormed text = true) :
    (occurrences token text).Pairwise
      (fun first second => first < second ∧ first + token.length ≤ second) ∧
    (∀ offset ∈ occurrences token text,
      StandsAlone token text offset ∧ Clean token.length text offset) ∧
    (∀ offset, StandsAlone token text offset → offset ∉ occurrences token text →
      ∃ found ∈ occurrences token text, found < offset ∧ offset < found + token.length) ∧
    ∀ source new, Text.wellFormed source = true → Text.wellFormed new = true →
      source.length = text.length →
      (∀ position ∈ occurrences token text, Clean token.length source position) →
      ∃ result, replaceMasked? source text token new = some result ∧
        replaceMasked source text token new = result ∧ Text.wellFormed result = true ∧
        Spliced token.length new 0 source (occurrences token text) result ∧
        (result.length : Int) = source.length +
          (occurrences token text).length * (new.length - token.length) := by
  have hpositive : 0 < token.length := length_pos_iff.mpr hne
  have hhits := hits_occurrences token text
  have hordered : Span.Ordered text.length 0 (spansAt token.length (occurrences token text)) :=
    hhits.ordered hne (Nat.zero_add _).symm
  refine ⟨(pairwise_of_ordered hordered).imp fun hapart => ⟨by omega, hapart⟩,
    fun offset hmem => ⟨(standsAt_iff hne).mp (standsAt_of_mem_occurrences hmem),
      (clean_of_mem_occurrences htoken htext hmem).2⟩, fun offset halone hmissed => ?_, ?_⟩
  · obtain ⟨found, hmem, hle, hlt⟩ := exists_occurrence hne ((standsAt_iff hne).mpr halone)
    exact ⟨found, hmem, Nat.lt_of_le_of_ne hle fun heq => hmissed (heq ▸ hmem), hlt⟩
  · intro source new hsource hnew hlength hclean
    have hresult : replaceMasked? source text token new =
        some (replaceMasked source text token new) :=
      (spliceFrom?_eq_some_iff hhits).mpr ⟨Text.isBoundary_zero hsource, hclean, rfl⟩
    have hspliced := spliced_splice new (Nat.zero_add _).symm (hlength ▸ hordered)
    exact ⟨_, hresult, rfl, wellFormed_of_spliceFrom? hsource hnew hresult, hspliced,
      hspliced.length_eq⟩

/-- The token `é.é` in `é.é.é` stands alone twice and is found once, and it is replaced there. -/
theorem occurrences_leftmost_overlapping :
    utf8 "é.é" ≠ [] ∧ Text.wellFormed (utf8 "é.é") = true ∧
    Text.wellFormed (utf8 "é.é.é") = true ∧ StandsAlone (utf8 "é.é") (utf8 "é.é.é") 3 ∧
    (∃ found ∈ occurrences (utf8 "é.é") (utf8 "é.é.é"), found < 3 ∧ 3 < found + 5) ∧
    ∃ result, replaceMasked? (utf8 "/* é */") (utf8 "é.é.é") (utf8 "é.é") (utf8 "ü") = some result ∧
      Spliced 5 (utf8 "ü") 0 (utf8 "/* é */") [0] result := by
  have hne : utf8 "é.é" ≠ [] := by decide
  have htoken := Text.wellFormed_utf8 "é.é"
  have htext := Text.wellFormed_utf8 "é.é.é"
  have hfound : occurrences (utf8 "é.é") (utf8 "é.é.é") = [0] := by decide
  have halone : StandsAlone (utf8 "é.é") (utf8 "é.é.é") 3 := (standsAt_iff hne).mp (by decide)
  obtain ⟨-, -, hmissed, hreplaced⟩ := occurrences_leftmost hne htoken htext
  obtain ⟨result, hresult, -, -, hspliced, -⟩ := hreplaced (utf8 "/* é */") (utf8 "ü")
    (Text.wellFormed_utf8 _) (Text.wellFormed_utf8 _) (by decide)
    (by rw [hfound]; exact forall_mem_singleton.mpr ⟨by decide, by decide⟩)
  exact ⟨hne, htoken, htext, halone, hmissed 3 halone (by rw [hfound]; decide), result, hresult,
    hfound ▸ hspliced⟩

end Restyle.Token
