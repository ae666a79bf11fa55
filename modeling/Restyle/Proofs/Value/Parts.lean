import Restyle.Proofs.Dialect.Comments
import Restyle.Proofs.Value.Enclosure
import Restyle.Value.Reference

/-!
# Parts of a value

The parts of a value follow one another (`Value.parts_ordered`), so a value is rebuilt by filling
its parts in: `Value.rebuild_eq_fill`. Without replacements it stays as it is. A part is not empty
and does not begin with a space. It stands at the start of the value or behind a byte below 80, and
it ends with the value or with a byte that is no space and has a space behind it
(`Value.isCut_of_mem_parts`), so parts are cut between characters. What the division knows on its
way through the value is `Value.Division`.
-/

namespace Restyle.Value

open List

theorem parts_ordered (value : Text) : Span.Ordered value.length 0 (parts value) := by
  have h := @Enclosure.partsFrom_ordered .outside 0 none (Nat.le_refl _) value
  rwa [Nat.zero_add] at h

variable {replacements : List (Nat × Text)} (dialect : Dialect)

theorem codeParts_ordered (value : Text) :
    Span.Ordered value.length 0 (codeParts dialect value) := by
  have h := parts_ordered (dialect.stripComments value)
  rwa [Dialect.stripComments, Dialect.length_stripFrom] at h

/-- What takes the place of a part, by the replacements. -/
def fitted (replacements : List (Nat × Text)) (index : Nat) (part : Text) : Text :=
  match replacements.lookup index with
  | some replacement => fitForm part replacement
  | none => part

theorem isReference_and_isBare {left right : Text} (h : left.head? = right.head?) :
    (isReference left && isBare right) = false := by
  rw [Bool.eq_false_iff]
  intro hboth
  obtain ⟨hreference, hbare⟩ := (Bool.and_eq_true _ _).mp hboth
  obtain ⟨hstart, -⟩ := (Bool.and_eq_true _ _).mp hreference
  obtain ⟨rest, rfl⟩ := isPrefixOf_iff_prefix.mp hstart
  obtain ⟨rest', rfl⟩ := isPrefixOf_iff_prefix.mp hbare
  exact absurd (Option.some.inj h) (by decide)

theorem fitForm_of_head {part replacement : Text} (h : part.head? = replacement.head?) :
    fitForm part replacement = replacement := by
  unfold fitForm
  rw [isReference_and_isBare h, if_neg Bool.false_ne_true, Bool.and_comm (isBare _),
    isReference_and_isBare h.symm, Bool.false_and, Bool.false_and, if_neg Bool.false_ne_true]

theorem rebuildFrom_eq_fill {value : Text} {spans : List Span} {index offset : Nat}
    (hordered : Span.Ordered value.length offset spans) :
    rebuildFrom replacements index offset (value.drop offset) spans =
      value.fill offset ((spans.zipIdx index).map fun (span, index) =>
        (span, fitted replacements index (span.slice value))) := by
  induction spans generalizing index offset with
  | nil => rfl
  | cons span later ih =>
    obtain ⟨hstart, horder, hlater⟩ := hordered
    have hrest : (value.drop offset).drop (span.stop - offset) = value.drop span.stop := by
      rw [drop_drop, show offset + (span.stop - offset) = span.stop by omega]
    have hpart : (value.drop offset).drop (span.start - offset) = value.drop span.start := by
      rw [drop_drop, show offset + (span.start - offset) = span.start by omega]
    rw [rebuildFrom, hrest, hpart, ih hlater]
    rfl

theorem rebuild_eq_fill (value : Text) (replacements : List (Nat × Text)) :
    rebuild dialect value replacements =
      value.fill 0 ((codeParts dialect value).zipIdx.map fun (span, index) =>
        (span, fitted replacements index (span.slice value))) :=
  rebuildFrom_eq_fill (codeParts_ordered ..)

theorem rebuild_eq_self {dialect : Dialect} {value : Text} {replacements : List (Nat × Text)}
    (h : ∀ item ∈ (codeParts dialect value).zipIdx,
      fitted replacements item.2 (item.1.slice value) = item.1.slice value) :
    rebuild dialect value replacements = value := by
  have hslices : ((codeParts dialect value).zipIdx.map fun (span, index) =>
      (span, fitted replacements index (span.slice value))) =
      (codeParts dialect value).map fun span => (span, span.slice value) := by
    conv => rhs; rw [← zipIdx_map_fst 0 (codeParts dialect value), map_map]
    exact map_congr_left fun item hitem => congrArg (Prod.mk item.1) (h item hitem)
  rw [rebuild_eq_fill, hslices, Text.fill_slices (codeParts_ordered ..), drop_zero]

theorem rebuild_nil (value : Text) : rebuild dialect value [] = value :=
  rebuild_eq_self fun _ _ => rfl

/-! ## Ends of parts -/

open Byte Enclosure

variable {value : Text} {offset : Nat} {enclosure : Enclosure} {begun : Option Nat} {byte : UInt8}

/-- The byte at an offset is no space. -/
def IsSolid (value : Text) (offset : Nat) : Prop :=
  ∃ byte, value[offset]? = some byte ∧ isSpace byte = false

/-- The value begins at the offset, or a byte below 80 stands before it. -/
def IsFree (value : Text) (offset : Nat) : Prop :=
  offset = 0 ∨ ∃ byte, value[offset - 1]? = some byte ∧ byte < 0x80

/-- How a part is cut out of a value. -/
structure IsCut (value : Text) (span : Span) : Prop where
  lt : span.start < span.stop
  le : span.stop ≤ value.length
  solid : IsSolid value span.start
  free : IsFree value span.start
  ends : span.stop = value.length ∨
    IsSolid value (span.stop - 1) ∧ ∃ byte, value[span.stop]? = some byte ∧ byte < 0x80

/-- What is known where a value has been divided up to an offset: between parts, nothing is open;
and a part in progress that could end here does not end with a space. -/
structure Division (value : Text) (offset : Nat) (enclosure : Enclosure) (begun : Option Nat) :
    Prop where
  waiting : begun = none → enclosure = .outside ∧ IsFree value offset
  going : ∀ start, begun = some start →
    start < offset ∧ IsSolid value start ∧ IsFree value start
  quoted : ∀ mark, enclosure.quote = some mark → isSpace mark = false
  closed : begun.isSome → enclosure = .outside → IsSolid value (offset - 1)

theorem Division.between (h : IsFree value offset) : Division value offset .outside none where
  waiting := fun _ => ⟨rfl, h⟩
  going := nofun
  quoted := nofun
  closed := nofun

/-- A byte that closes what is open and does not divide the value is no space. -/
theorem Division.not_isSpace (h : Division value offset enclosure begun)
    (hdivides : enclosure.divides byte = false) (hnext : enclosure.next byte = .outside) :
    isSpace byte = false := by
  obtain ⟨depth, quote⟩ := enclosure
  cases quote with
  | some mark =>
    obtain ⟨-, rfl⟩ : depth = 0 ∧ byte = mark := by
      simpa [Enclosure.next, outside] using hnext
    exact h.quoted byte rfl
  | none =>
    rw [Bool.eq_false_iff]
    intro hspace
    have hdepth : Scan.depthNext depth byte = depth := by
      simp only [isSpace, Bool.or_eq_true, beq_iff_eq] at hspace
      rcases hspace with (((rfl | rfl) | rfl) | rfl) | rfl <;> rfl
    have hzero : Scan.depthNext depth byte = 0 := congrArg Enclosure.depth hnext
    obtain rfl : depth = 0 := hdepth.symm.trans hzero
    rw [divides, hspace] at hdivides
    cases hdivides

/-- The division goes on with a byte that does not divide the value. -/
theorem Division.next (h : Division value offset enclosure begun)
    (hbyte : value[offset]? = some byte) (hdivides : enclosure.divides byte = false) :
    Division value (offset + 1) (enclosure.next byte) (enclosure.begin offset begun byte) where
  waiting := by
    intro hnone
    cases begun with
    | some start => rw [begin_some] at hnone; cases hnone
    | none =>
      obtain ⟨rfl, -⟩ := h.waiting rfl
      obtain rfl : byte = closeParen := by
        simpa [begin, outside] using hnone
      exact ⟨rfl, .inr ⟨_, hbyte, by decide⟩⟩
  going := by
    intro start hstart
    cases begun with
    | some begun =>
      rw [begin_some] at hstart
      obtain ⟨hlt, hknown⟩ := h.going start hstart
      exact ⟨Nat.lt_succ_of_lt hlt, hknown⟩
    | none =>
      obtain ⟨rfl, hfree⟩ := h.waiting rfl
      simp only [begin, Option.none_or] at hstart
      split at hstart
      · cases hstart
      · obtain rfl := Option.some.inj hstart
        exact ⟨Nat.lt_succ_self _, ⟨byte, hbyte, by simpa [divides] using hdivides⟩, hfree⟩
  quoted := by
    intro mark hmark
    rcases quote_next hmark with hquote | rfl | rfl
    · exact h.quoted mark hquote
    · rfl
    · rfl
  closed := fun _ hnext => ⟨byte, hbyte, h.not_isSpace hdivides hnext⟩

/-- The division of the rest of a value cuts parts out of it. -/
theorem partsFrom_isCut {text : Text} (hdrop : value.drop offset = text)
    (hoffset : offset ≤ value.length) (h : Division value offset enclosure begun) :
    ∀ span ∈ enclosure.partsFrom offset begun text, IsCut value span := by
  induction text generalizing offset enclosure begun with
  | nil =>
    obtain rfl : offset = value.length := Nat.le_antisymm hoffset (drop_eq_nil_iff.mp hdrop)
    intro span hspan
    obtain ⟨start, hstart, rfl⟩ := mem_map.mp hspan
    obtain ⟨hlt, hsolid, hfree⟩ := h.going start (Option.mem_toList.mp hstart)
    exact ⟨hlt, Nat.le_refl _, hsolid, hfree, .inl rfl⟩
  | cons byte rest ih =>
    have hbyte : value[offset]? = some byte := by rw [← head?_drop, hdrop]; rfl
    have hlt := (List.getElem?_eq_some_iff.mp hbyte).1
    have hrest : value.drop (offset + 1) = rest := by
      rw [← drop_drop, hdrop, drop_one, tail_cons]
    rw [partsFrom_cons]
    split
    next hdivides =>
      obtain ⟨houtside, hspace⟩ := Bool.and_eq_true_iff.mp hdivides
      have hlow := (isBlank_of_isSpace hspace).1
      intro span hspan
      rcases mem_append.mp hspan with hspan | hspan
      · obtain ⟨start, hstart, rfl⟩ := mem_map.mp hspan
        rw [Option.mem_toList] at hstart
        obtain ⟨hlt', hsolid, hfree⟩ := h.going start hstart
        have hend := h.closed (by rw [hstart]; rfl) (beq_iff_eq.mp houtside)
        exact ⟨hlt', hoffset, hsolid, hfree, .inr ⟨hend, byte, hbyte, hlow⟩⟩
      · exact ih hrest hlt (.between (.inr ⟨byte, hbyte, hlow⟩)) span hspan
    next hdivides => exact ih hrest hlt (h.next hbyte (by simpa using hdivides))

theorem isCut_of_mem_parts {span : Span} (h : span ∈ parts value) : IsCut value span :=
  partsFrom_isCut rfl (Nat.zero_le _) (.between (.inl rfl)) span h

end Restyle.Value
