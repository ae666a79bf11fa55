import Restyle.Proofs.Migration.Forms
import Restyle.Proofs.Text.Brackets

/-!
# Parentheses of a part that is replaced

A replacement is wrapped in `var()` or taken out of it to have the form of the part that it
replaces. If its parentheses are nested they are so when it is wrapped. When it is taken out they
are so if and only if the first parenthesis is closed by the last one: `Value.fitForm_isNested_iff`.
The last byte of `var(--b)/var(--c)` closes another parenthesis than the first one opens, and what
is left of it is not nested (`fitForm_breaks_nesting`).
-/

namespace Restyle.Value

open List Text

open DyckStep

/-- The parentheses of a text in their order. -/
def parentheses (text : Text) : List DyckStep :=
  brackets Byte.openParen Byte.closeParen text

/-- No prefix of the text closes more parentheses than it opens, and all that are opened are
closed. -/
def IsNested (text : Text) : Prop :=
  IsDyck (parentheses text)

/-- The first parenthesis of the text is open until the last one closes it. -/
def IsEnclosed (text : Text) : Prop :=
  ∃ word : DyckWord, word.toList = parentheses text ∧ word.IsNested

theorem parentheses_append (left right : Text) :
    parentheses (left ++ right) = parentheses left ++ parentheses right :=
  brackets_append ..

/-- A reference adds a pair of parentheses around those of what it refers to. -/
theorem parentheses_reference (name : Text) :
    parentheses (utf8 "var(" ++ (name ++ utf8 ")")) = [U] ++ parentheses name ++ [D] := by
  have hopening : parentheses (utf8 "var(") = [U] := by decide
  have hclosing : parentheses (utf8 ")") = [D] := by decide
  rw [parentheses_append, parentheses_append, hopening, hclosing, append_assoc]

theorem isNested_referTo {name : Text} (h : IsNested name) : IsNested (referTo name) := by
  obtain ⟨word, hword⟩ := h
  refine ⟨word.nest, ?_⟩
  rw [referTo, append_assoc, parentheses_reference, ← hword]
  rfl

/-- What a reference refers to is nested if and only if the reference is nested and its first
parenthesis is closed by the last one. -/
theorem isNested_iff_isEnclosed (name : Text) :
    IsNested name ↔ IsEnclosed (utf8 "var(" ++ (name ++ utf8 ")")) := by
  constructor
  · rintro ⟨word, hword⟩
    refine ⟨word.nest, ?_, .nest⟩
    rw [parentheses_reference, ← hword]
    rfl
  · rintro ⟨word, hword, hnested⟩
    refine ⟨word.denest hnested, ?_⟩
    rw [parentheses_reference] at hword
    show word.toList.dropLast.tail = parentheses name
    rw [hword, dropLast_concat]
    rfl

/-- Trimming a bare name takes no parentheses off it. -/
theorem parentheses_trim {name : Text} (hbare : isBare name)
    (hformed : wellFormed (utf8 "var(" ++ (name ++ utf8 ")"))) :
    parentheses (trim name) = parentheses name := by
  obtain ⟨blanks, hblanks, hname⟩ := trim_of_isBare hbare hformed
  have hnot : ∀ byte : UInt8, byte < 0x80 → isBlank (Char.ofNat byte.toNat) = false →
      byte ∉ ofChars blanks := by
    intro byte hascii hblank hmem
    rw [hblanks _ (mem_of_mem_ofChars hascii hmem)] at hblank
    cases hblank
  have hnone : parentheses (ofChars blanks) = [] :=
    brackets_eq_nil (hnot _ (by decide) (by decide)) (hnot _ (by decide) (by decide))
  conv => rhs; rw [hname, parentheses_append, hnone, append_nil]

/-- A nested replacement in the form of a part is nested, unless it is taken out of parentheses that
do not enclose it. -/
theorem isNested_fitForm_iff {part new : Text} (hformed : wellFormed new) (h : IsNested new) :
    IsNested (fitForm part new) ↔ (isUnwrapped part new → IsEnclosed new) := by
  unfold fitForm
  split
  next hwrapped =>
    refine iff_of_true (isNested_referTo h) fun hunwrapped => ?_
    -- A bare name is no reference.
    simp only [isUnwrapped, Bool.and_eq_true] at hunwrapped hwrapped
    have hboth := @isReference_and_isBare new new rfl
    rw [hunwrapped.1.1.2, hwrapped.2] at hboth
    cases hboth
  · split
    next hunwrapped =>
      have hforms := hunwrapped
      simp only [Bool.and_eq_true] at hforms
      obtain ⟨⟨⟨-, hreference⟩, hbare⟩, -⟩ := hforms
      have hvalue := referTo_referent hreference
      rw [hvalue] at hformed
      have htrim : IsNested (trim (referent new)) ↔ IsNested (referent new) := by
        rw [IsNested, parentheses_trim hbare hformed, IsNested]
      rw [htrim, isNested_iff_isEnclosed, ← hvalue]
      exact ⟨fun henclosed _ => henclosed, fun henclosed => henclosed hunwrapped⟩
    next hkept => exact iff_of_true h fun hunwrapped => absurd hunwrapped hkept

/-- A nested text is nested with other nested texts in place of nested spans. -/
theorem isDyck_fill {limit offset : Nat} {text : Text} {before : List DyckStep}
    {items : List (Span × Text)} (hordered : Span.Ordered limit offset (items.map Prod.fst))
    (hitems : ∀ item ∈ items, item.2 = item.1.slice text ∨
      IsNested (item.1.slice text) ∧ IsNested item.2)
    (h : IsDyck (before ++ parentheses (text.drop offset))) :
    IsDyck (before ++ parentheses (text.fill offset items)) := by
  induction items generalizing offset before with
  | nil => exact h
  | cons item later ih =>
    obtain ⟨hstart, horder, hlater⟩ := hordered
    obtain ⟨hitem, hitems⟩ := forall_mem_cons.mp hitems
    rw [← slice_append_drop hstart, ← slice_append_drop horder, parentheses_append,
      parentheses_append, ← append_assoc] at h
    rw [fill, parentheses_append, parentheses_append, ← append_assoc, ← append_assoc]
    refine ih hlater hitems ?_
    rw [append_assoc]
    rcases hitem with hkept | ⟨hold, hnew⟩
    · rwa [hkept]
    · exact isDyck_replace hold hnew h

/-- A nested replacement takes the form of a part without breaking its nesting if and only if it is
not taken out of parentheses that do not enclose it. A nested value that is rebuilt with such
replacements of nested parts is nested. -/
theorem fitForm_isNested_iff (part replacement : Text) (dialect : Dialect) (value : Text)
    (replacements : List (Nat × Text)) :
    (Text.wellFormed replacement = true → IsNested replacement →
      (IsNested (fitForm part replacement) ↔
        (isUnwrapped part replacement = true → IsEnclosed replacement))) ∧
    (IsNested value →
      (∀ item ∈ (codeParts dialect value).zipIdx, ∀ replacement,
        replacements.lookup item.2 = some replacement →
        IsNested (item.1.slice value) ∧ Text.wellFormed replacement = true ∧
          IsNested replacement ∧
          (isUnwrapped (item.1.slice value) replacement = true → IsEnclosed replacement)) →
      IsNested (rebuild dialect value replacements)) := by
  refine ⟨isNested_fitForm_iff, fun hvalue hreplacements => ?_⟩
  have hordered := codeParts_ordered dialect value
  rw [rebuild_eq_fill]
  refine @isDyck_fill value.length 0 value [] _ ?_ ?_ hvalue
  · rw [map_map]
    exact (zipIdx_map_fst 0 (codeParts dialect value)).symm ▸ hordered
  · rintro ⟨span, new⟩ hmem
    obtain ⟨⟨_, index⟩, hitem, hnew⟩ := mem_map.mp hmem
    obtain ⟨rfl, rfl⟩ := Prod.mk.inj hnew
    simp only [fitted]
    cases hlookup : replacements.lookup index with
    | none => exact .inl rfl
    | some replacement =>
      obtain ⟨hpart, hformed, hnested, hfits⟩ := hreplacements _ hitem replacement hlookup
      exact .inr ⟨hpart, (isNested_fitForm_iff hformed hnested).mpr hfits⟩

/-- A reference in the place of a bare name, and a bare name in that of a reference. -/
def mixedForms : List (Nat × Text) :=
  [(0, utf8 "var(--b)"), (1, utf8 "--d/(2)")]

/-- The reference is unwrapped and the bare name is wrapped, and the value stays nested. -/
theorem fitForm_isNested_mixedForms :
    IsNested (fitForm (utf8 "--a") (utf8 "var(--b)")) ∧
      rebuild .css (utf8 "--a var(--c)") mixedForms = utf8 "--b var(--d/(2))" ∧
      IsNested (rebuild .css (utf8 "--a var(--c)") mixedForms) := by
  have hreference : IsNested (utf8 "var(--b)") ∧ IsEnclosed (utf8 "var(--b)") :=
    ⟨⟨DyckWord.nest 0, by decide⟩, DyckWord.nest 0, by decide, .nest⟩
  obtain ⟨hform, hvalue⟩ := fitForm_isNested_iff (utf8 "--a") (utf8 "var(--b)") .css
    (utf8 "--a var(--c)") mixedForms
  refine ⟨(hform (by decide) hreference.1).mpr fun _ => hreference.2, by decide,
    hvalue ⟨DyckWord.nest 0, by decide⟩ ?_⟩
  have hparts : (codeParts .css (utf8 "--a var(--c)")).zipIdx = [(⟨0, 3⟩, 0), (⟨4, 12⟩, 1)] := by
    decide
  rw [hparts]
  simp only [forall_mem_cons, not_mem_nil, false_implies, implies_true, and_true]
  constructor
  · rintro replacement hlookup
    obtain rfl : utf8 "var(--b)" = replacement := Option.some.inj hlookup
    exact ⟨⟨0, by decide⟩, by decide, hreference.1, fun _ => hreference.2⟩
  · rintro replacement hlookup
    obtain rfl : utf8 "--d/(2)" = replacement := Option.some.inj hlookup
    exact ⟨⟨DyckWord.nest 0, by decide⟩, by decide, ⟨DyckWord.nest 0, by decide⟩,
      fun hunwrapped => absurd hunwrapped (by decide)⟩

/-- Two references with a slash between them begin and end as one does. They are nested, and without
the first and the last parenthesis they are not. -/
theorem fitForm_breaks_nesting :
    IsNested (utf8 "--a") ∧ IsNested (utf8 "var(--b)/var(--c)") ∧
      fitForm (utf8 "--a") (utf8 "var(--b)/var(--c)") = utf8 "--b)/var(--c" ∧
      ¬ IsNested (fitForm (utf8 "--a") (utf8 "var(--b)/var(--c)")) := by
  have hform : fitForm (utf8 "--a") (utf8 "var(--b)/var(--c)") = utf8 "--b)/var(--c" := by decide
  refine ⟨⟨0, by decide⟩, ⟨DyckWord.nest 0 + DyckWord.nest 0, by decide⟩, hform, ?_⟩
  rw [hform]
  rintro ⟨word, hword⟩
  have hfirst := word.count_D_le_count_U 1
  rw [hword] at hfirst
  exact absurd hfirst (by decide)

end Restyle.Value
