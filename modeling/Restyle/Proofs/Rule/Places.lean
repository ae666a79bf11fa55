import Restyle.Migration.Target
import Restyle.Proofs.Declaration.Literals
import Restyle.Proofs.Rule.StyleObjects
import Restyle.Proofs.Text.Position
import Restyle.Proofs.Value.Parts

/-!
# Rules are a view of their text

Whatever the text, the rules that are read from it are a faithful view of it: `Source.rules_isView`.
They come in the order of their opening braces and none is empty. Every declared value, and every
part of one, stands between the braces of its rule, begins and ends at a boundary of characters, and
has the line and column of its start. The parts of a list follow one another in its span, and the
values of different declarations have no byte in common. A list is divided when the file is read, in
the text without comments, and again when it is resolved, in its own source: in plain CSS both
divisions have the same parts (`Stylesheet.rules_codeParts`).
-/

namespace Restyle

open Declaration Declared Dialect List Span Text

/-! ## Where declared values stand -/

/-- A declared value stands in a block, between boundaries, and if it is a text it is what the text
without comments has there. -/
structure Declared.IsFound (dialect : Dialect) (text : Text) (block : Block)
    (declared : Declared) : Prop where
  opening_lt : block.opening < declared.span.start
  order : declared.span.start ≤ declared.span.stop
  le_closing : declared.span.stop ≤ block.closing
  stop_le : declared.span.stop ≤ text.length
  starts : isBoundary text declared.span.start
  stops : isBoundary text declared.span.stop
  raw : ∀ raw, declared.value = .text raw →
    raw = declared.span.slice (dialect.stripComments text)

namespace StyleObject

theorem lt_of_isQuote {byte : UInt8} (h : isQuote byte) : byte < 0x80 := by
  simp only [isQuote, Bool.or_eq_true, beq_iff_eq] at h
  rcases h with (rfl | rfl) | rfl <;> decide

/-- A value without its quotes begins and ends at boundaries. -/
theorem isBoundary_inner {text : Text} {block : Block} {declaration : Declaration}
    (hformed : wellFormed text)
    (hblock : block ∈ Block.scan .script (script.stripComments text))
    (h : declaration ∈ scanVisible .script (script.stripComments text)
      (script.visible (script.stripComments text)) block.interior)
    (hstop : declaration.value.stop ≤ (script.stripComments text).length) :
    isBoundary text (inner (script.stripComments text) declaration.value).start ∧
      isBoundary text
        (inner (script.stripComments text) declaration.value).stop := by
  by_cases hquoted : isQuoted (declaration.value.slice (script.stripComments text))
  · obtain ⟨horder, quote, hquote, hfirst, hlast⟩ := quotes_of_isQuoted hstop hquoted
    have hlow := lt_of_isQuote hquote
    -- The ends of a value are outside comments, so the quotes stand in the text itself.
    have hquotes : ∀ index, index = declaration.value.start ∨ index + 1 = declaration.value.stop →
        (script.stripComments text)[index]? = some quote → text[index]? = some quote := by
      intro index hindex hbyte
      obtain ⟨byte, hmark, -⟩ := marks_of_value hblock h hindex
      obtain ⟨htext, hstripped⟩ := getElem?_of_unmarked hmark
      rw [htext, ← hstripped, hbyte]
    have hend : declaration.value.stop - 1 + 1 = declaration.value.stop :=
      Nat.sub_add_cancel (Nat.le_trans (Nat.le_add_left 1 _) horder)
    rw [inner, if_pos hquoted]
    exact ⟨isBoundary_succ_of_ascii hformed (hquotes _ (.inl rfl) hfirst) hlow,
      isBoundary_of_ascii (hquotes _ (.inr hend) hlast) hlow⟩
  · rw [inner, if_neg hquoted]
    exact isBoundary_value hblock h hformed

end StyleObject

namespace Source

variable {dialect : Dialect} {text : Text} {block : Block} {declared : Declared}

/-- What a declaration declares is the text of its span, in a program without the quotes. -/
theorem declare_span {stripped : Text} {declaration : Declaration}
    (hstop : declaration.value.stop ≤ stripped.length)
    (h : declare? dialect stripped block declaration = some declared) :
    declared.span = (if dialect = .script then StyleObject.inner stripped declaration.value
      else declaration.value) ∧
    ∀ raw, declared.value = .text raw → raw = declared.span.slice stripped := by
  obtain ⟨rfl, _, rfl, rfl⟩ | ⟨hsheet, rfl⟩ := declare_cases h
  · have hspan := StyleObject.readValue_snd stripped declaration.value
    refine ⟨hspan.trans (if_pos rfl).symm, fun raw hraw => ?_⟩
    exact (StyleObject.slice_of_readValue hstop hraw).trans (congrArg (slice · _) hspan.symm)
  · refine ⟨(if_neg hsheet).symm, fun raw hraw => ?_⟩
    exact (DeclaredValue.text.inj hraw).symm

/-- What a block of a well-formed text declares is found in the text. -/
theorem isFound_of_mem (hformed : wellFormed text)
    (hblock : block ∈ Block.scan dialect (dialect.stripComments text))
    (h : declared ∈ declaredIn dialect (dialect.stripComments text)
      (dialect.visible (dialect.stripComments text)) block) :
    declared.IsFound dialect text block := by
  have hmatched := Block.matched_of_mem_scan hblock
  have hlength := dialect.length_visible (dialect.stripComments text)
  obtain ⟨entry, hentry, hwithin, hbound⟩ := (declaredIn_within hmatched hlength).1 declared h
  obtain ⟨declaration, hmem, hdeclare⟩ := mem_filterMap.mp h
  obtain ⟨other, -, -, -, hother, hstop⟩ := (scanVisible_values hmatched hlength).1 declaration hmem
  have hvalue := Nat.le_trans hother hstop
  obtain ⟨hspan, hraw⟩ := declare_span hvalue hdeclare
  have hboundary : isBoundary text declared.span.start ∧
      isBoundary text declared.span.stop := by
    rw [hspan]
    split
    next hscript =>
      subst hscript
      exact StyleObject.isBoundary_inner hformed hblock hmem hvalue
    · exact isBoundary_value hblock hmem hformed
  have hle := Nat.le_trans hwithin.stop_le hbound
  rw [stripComments, length_stripFrom] at hle
  exact {
    opening_lt := Nat.lt_of_lt_of_le hentry.floor_le hwithin.start_le
    order := hwithin.order
    le_closing := Nat.le_trans hwithin.stop_le hentry.le_stop
    stop_le := hle
    starts := hboundary.1
    stops := hboundary.2
    raw := hraw }

end Source

/-! ## Parts of a declared value -/

/-- A property that is no part stands where its value does. -/
structure Property.IsWhole (property : Property) : Prop where
  part : property.part = none
  span : property.place.span = property.valueSpan

/-- Properties that are the parts of one list, in its order. Their spans follow one another in the
span of the list, and each is the text that the list has there. -/
structure Property.AreParts (composite : Text) (valueSpan : Span) (group : List Property) :
    Prop where
  several : 2 ≤ group.length
  valueSpan_eq : ∀ property ∈ group, property.valueSpan = valueSpan
  part_eq : ∀ (index : Nat) (property : Property), group[index]? = some property →
    property.part = some ⟨composite, index⟩
  inside : ∀ property ∈ group, valueSpan.start ≤ property.place.span.start ∧
    property.place.span.start < property.place.span.stop ∧
    property.place.span.stop ≤ valueSpan.stop
  value_eq : ∀ property ∈ group, property.value = .text
    (slice ⟨property.place.span.start - valueSpan.start,
      property.place.span.stop - valueSpan.start⟩ composite)
  ordered : group.Pairwise fun left right => left.place.span.stop ≤ right.place.span.start

/-- The properties of one declaration: a whole value or the parts of a list. -/
def Property.AreDeclared (stripped : Text) (group : List Property) : Prop :=
  (∃ property, group = [property] ∧ property.IsWhole) ∨
    ∃ valueSpan : Span, Property.AreParts (valueSpan.slice stripped) valueSpan group

namespace Declared

variable {dialect : Dialect} {text : Text} {block : Block} {declared : Declared}

section Found

variable (h : declared.IsFound dialect text block)
include h

theorem IsFound.length_raw :
    (declared.span.slice (dialect.stripComments text)).length = declared.span.length := by
  refine length_slice ?_
  rw [stripComments, length_stripFrom]
  exact h.stop_le

/-- The ends of a part of a declared value are boundaries of the text. -/
theorem IsFound.isBoundary_part (hformed : wellFormed text) {span : Span}
    (hcut : Value.IsCut (declared.span.slice (dialect.stripComments text)) span) :
    isBoundary text (span.shift declared.span.start).start ∧
      isBoundary text (span.shift declared.span.start).stop := by
  have hstripped : wellFormed (dialect.stripComments text) := wellFormed_stripComments hformed
  -- A byte that is no space is outside comments.
  have hsolid : ∀ {index}, Value.IsSolid (declared.span.slice (dialect.stripComments text)) index →
      ∃ byte, (dialect.marks text)[declared.span.start + index]? = some (byte, false) := by
    rintro index ⟨byte, hbyte, hspace⟩
    refine ⟨byte, Scan.marks_of_shown (getElem?_of_slice hbyte) ?_ ?_⟩ <;>
      · rintro rfl
        cases hspace
  simp only [shift, Nat.add_comm _ declared.span.start]
  constructor
  · by_cases hzero : span.start = 0
    · rw [hzero]
      exact h.starts
    · obtain ⟨byte, hbyte, hlow⟩ := hcut.free.resolve_left hzero
      obtain ⟨first, hmark⟩ := hsolid hcut.solid
      have hbefore := isBoundary_succ_of_ascii hstripped (getElem?_of_slice hbyte) hlow
      rw [Nat.add_assoc, Nat.sub_add_cancel (Nat.pos_of_ne_zero hzero)] at hbefore
      exact isBoundary_of_unmarked hmark hbefore
  · have hpos := Nat.zero_lt_of_lt hcut.lt
    rcases hcut.ends with hend | ⟨hlast, byte, hbyte, hlow⟩
    · rw [hend, h.length_raw, Span.length, Nat.add_sub_cancel' h.order]
      exact h.stops
    · obtain ⟨last, hmark⟩ := hsolid hlast
      have hbehind := isBoundary_of_ascii (getElem?_of_slice hbyte) hlow
      have hstop : declared.span.start + (span.stop - 1) + 1 = declared.span.start + span.stop := by
        omega
      rw [← hstop] at hbehind ⊢
      exact isBoundary_succ_of_unmarked hmark hbehind

/-- The properties of a declaration are a whole value or the parts of a list. -/
theorem IsFound.areDeclared :
    Property.AreDeclared (dialect.stripComments text) (declared.properties text) := by
  rcases declared.properties_cases text with ⟨hwhole, -⟩ | ⟨raw, hvalue, hlist, hparts⟩
  · exact .inl ⟨_, hwhole, rfl, rfl⟩
  · have hraw := h.raw raw hvalue
    have hcut : ∀ part ∈ (Value.parts raw).zipIdx, Value.IsCut raw part.1 := fun part hpart =>
      Value.isCut_of_mem_parts (fst_mem_of_mem_zipIdx hpart)
    have hmany := Value.one_lt_of_isList hlist
    refine .inr ⟨declared.span, ?_⟩
    rw [hparts, ← hraw]
    refine ⟨by rw [length_map, length_zipIdx]; exact hmany, ?_, ?_, ?_, ?_, ?_⟩
    · intro property hmem
      obtain ⟨part, -, rfl⟩ := mem_map.mp hmem
      rfl
    · intro index property hproperty
      rw [getElem?_map, getElem?_zipIdx, Option.map_map, Option.map_eq_some_iff] at hproperty
      obtain ⟨span, -, rfl⟩ := hproperty
      simp [partOf]
    · intro property hmem
      obtain ⟨part, hpart, rfl⟩ := mem_map.mp hmem
      have hlt := (hcut part hpart).lt
      have hle := (hcut part hpart).le
      rw [hraw, h.length_raw, Span.length] at hle
      simp only [partOf, Place.ofSpan, shift]
      omega
    · intro property hmem
      obtain ⟨part, -, rfl⟩ := mem_map.mp hmem
      simp [partOf, Place.ofSpan, shift]
    · have hordered := (Value.parts_ordered raw).pairwise
      rw [← zipIdx_map_fst 0 (Value.parts raw), pairwise_map] at hordered
      refine pairwise_map.mpr (hordered.imp fun hle => ?_)
      exact Nat.add_le_add_right hle _

/-- Every property of a declaration stands in the declared value. -/
theorem IsFound.inside {property : Property} (hmem : property ∈ declared.properties text) :
    declared.span.start ≤ property.place.span.start ∧
      property.place.span.start ≤ property.place.span.stop ∧
      property.place.span.stop ≤ declared.span.stop := by
  have hspan := valueSpan_of_mem hmem
  rcases h.areDeclared with ⟨whole, hgroup, hwhole⟩ | ⟨valueSpan, hparts⟩
  · rw [hgroup, mem_singleton] at hmem
    rw [hmem] at hspan ⊢
    rw [hwhole.span, hspan]
    exact ⟨Nat.le_refl _, h.order, Nat.le_refl _⟩
  · obtain ⟨hstart, hlt, hstop⟩ := hparts.inside property hmem
    rw [← hspan, hparts.valueSpan_eq property hmem]
    exact ⟨hstart, Nat.le_of_lt hlt, hstop⟩

/-- Every property of a declaration begins and ends at boundaries, and has the position of its
start. -/
theorem IsFound.placed (hformed : wellFormed text) {property : Property}
    (hmem : property ∈ declared.properties text) :
    property.place.position = position text property.place.span.start ∧
      isBoundary text property.place.span.start ∧
      isBoundary text property.place.span.stop := by
  rcases declared.properties_cases text with ⟨hwhole, -⟩ | ⟨raw, hvalue, -, hparts⟩
  · rw [hwhole, mem_singleton] at hmem
    rw [hmem]
    exact ⟨rfl, h.starts, h.stops⟩
  · rw [hparts] at hmem
    obtain ⟨part, hpart, rfl⟩ := mem_map.mp hmem
    have hcut := Value.isCut_of_mem_parts (fst_mem_of_mem_zipIdx hpart)
    rw [h.raw raw hvalue] at hcut
    exact ⟨rfl, h.isBoundary_part hformed hcut⟩

end Found

end Declared

/-! ## Rules -/

/-- A span stands between the braces of a rule, from one boundary to another. -/
structure Rule.Encloses (text : Text) (rule : Rule) (span : Span) : Prop where
  opening_lt : rule.place.span.start < span.start
  order : span.start ≤ span.stop
  lt_stop : span.stop < rule.place.span.stop
  starts : isBoundary text span.start
  stops : isBoundary text span.stop

/-- A place has the position of its start. -/
def Place.IsPositioned (text : Text) (place : Place) : Prop :=
  place.position = Position.after (chars (text.take place.span.start))

/-- Two properties have values that begin at different places and have no byte in common. -/
def Property.Separate (left right : Property) : Prop :=
  left.valueSpan.Apart right.valueSpan ∧ left.valueSpan.start ≠ right.valueSpan.start

/-- A rule that views a block of a text: it stands at the braces of the block, and its properties
stand between them, declaration by declaration. -/
structure Rule.IsView (dialect : Dialect) (text : Text) (rule : Rule) : Prop where
  opens : text[rule.place.span.start]? = some Byte.openBrace
  closes : text[rule.place.span.stop - 1]? = some Byte.closeBrace
  positioned : rule.place.IsPositioned text
  properties_ne : rule.properties ≠ []
  encloses : ∀ property ∈ rule.properties, rule.Encloses text property.valueSpan ∧
    rule.Encloses text property.place.span ∧ property.place.IsPositioned text
  grouped : ∃ groups : List (List Property), rule.properties = groups.flatten ∧
    (∀ group ∈ groups, Property.AreDeclared (dialect.stripComments text) group) ∧
    groups.Pairwise fun left right =>
      ∀ property ∈ left, ∀ other ∈ right, property.Separate other

/-- Rules that view a text, in the order of their opening braces. -/
structure Source.IsView (dialect : Dialect) (text : Text) (rules : List Rule) : Prop where
  ordered : rules.Pairwise fun left right => left.place.span.start < right.place.span.start
  separate : rules.Pairwise fun left right =>
    ∀ property ∈ left.properties, ∀ other ∈ right.properties, property.Separate other
  view : ∀ rule ∈ rules, rule.IsView dialect text

namespace Source

variable {dialect : Dialect} {text : Text} {block : Block}

/-- The braces of a block stand in the text with its comments. -/
theorem braces_of_mem_scan (hblock : block ∈ Block.scan dialect (dialect.stripComments text)) :
    text[block.opening]? = some Byte.openBrace ∧ text[block.closing]? = some Byte.closeBrace := by
  obtain ⟨hopens, hcloses⟩ := (Block.matched_of_mem_scan hblock).braces
  constructor
  · exact (getElem?_of_unmarked (Scan.marks_of_shown hopens (by decide) (by decide))).1
  · exact (getElem?_of_unmarked (Scan.marks_of_shown hcloses (by decide) (by decide))).1

theorem separate_of_mem {left right : Declared} {property other : Property}
    (h : left.Separate right) (hproperty : property ∈ left.properties text)
    (hother : other ∈ right.properties text) : property.Separate other := by
  rw [Property.Separate, valueSpan_of_mem hproperty, valueSpan_of_mem hother]
  exact h

theorem isView_of_ruleOf (hformed : wellFormed text)
    (hblock : block ∈ Block.scan dialect (dialect.stripComments text)) {rule : Rule}
    (h : ruleOf? dialect text (dialect.stripComments text)
      (dialect.visible (dialect.stripComments text)) block = some rule) :
    rule.IsView dialect text := by
  obtain ⟨hne, rfl⟩ := ruleOf_eq_some h
  obtain ⟨hopens, hcloses⟩ := braces_of_mem_scan hblock
  have hfound := fun declared => @isFound_of_mem dialect text block declared hformed hblock
  refine ⟨hopens, hcloses, ?_, ?_, ?_, ?_⟩
  · exact position_eq_after hformed (isBoundary_of_ascii hopens (by decide))
  · obtain ⟨first, others, hcons⟩ := exists_cons_of_ne_nil hne
    intro hnil
    rw [hcons, flatMap_cons, append_eq_nil_iff] at hnil
    exact first.properties_ne_nil text hnil.1
  · intro property hproperty
    obtain ⟨declared, hmem, hproperty⟩ := mem_flatMap.mp hproperty
    have hfound := hfound declared hmem
    obtain ⟨hposition, hstarts, hstops⟩ := hfound.placed hformed hproperty
    obtain ⟨hstart, horder, hstop⟩ := hfound.inside hproperty
    rw [valueSpan_of_mem hproperty]
    refine ⟨⟨hfound.opening_lt, hfound.order, Nat.lt_succ_of_le hfound.le_closing, hfound.starts,
      hfound.stops⟩, ⟨Nat.lt_of_lt_of_le hfound.opening_lt hstart, horder,
      Nat.lt_succ_of_le (Nat.le_trans hstop hfound.le_closing), hstarts, hstops⟩, ?_⟩
    exact hposition.trans (position_eq_after hformed hstarts)
  · refine ⟨_, flatMap_def, ?_, pairwise_map.mpr ?_⟩
    · intro group hgroup
      obtain ⟨declared, hmem, rfl⟩ := mem_map.mp hgroup
      exact (hfound declared hmem).areDeclared
    · have hseparate := (@declaredIn_within dialect _ _ _ (Block.matched_of_mem_scan hblock)
        (dialect.length_visible _)).2
      exact hseparate.imp fun h property hproperty other hother =>
        separate_of_mem h hproperty hother

/-- Reading a well-formed text gives a view of it: rules in the order of their opening braces, none
of them empty, with values and parts that stand in the text where their spans and positions say. -/
theorem rules_isView (path : Text) (hformed : Text.wellFormed text = true) :
    IsView (Dialect.ofPath path) text (rules path text) := by
  rw [rules_eq path text rfl]
  refine ⟨pairwise_filterMap.mpr ?_, pairwise_filterMap.mpr ?_, ?_⟩
  · refine (scan_pairwise_opening _ _).imp ?_
    intro left right hlt rule hrule other hother
    obtain ⟨-, rfl⟩ := ruleOf_eq_some hrule
    obtain ⟨-, rfl⟩ := ruleOf_eq_some hother
    exact hlt
  · have hseparate := (declared_separate (ofPath path) text).2
    rw [declared, pairwise_flatMap] at hseparate
    refine hseparate.2.imp ?_
    intro left right hdeclared rule hrule other hother property hproperty property' hproperty'
    obtain ⟨-, rfl⟩ := ruleOf_eq_some hrule
    obtain ⟨-, rfl⟩ := ruleOf_eq_some hother
    obtain ⟨first, hfirst, hproperty⟩ := mem_flatMap.mp hproperty
    obtain ⟨second, hsecond, hproperty'⟩ := mem_flatMap.mp hproperty'
    exact separate_of_mem (hdeclared first hfirst second hsecond) hproperty hproperty'
  · intro rule hrule
    obtain ⟨block, hblock, hrule⟩ := mem_filterMap.mp hrule
    exact isView_of_ruleOf hformed hblock hrule

/-- Two rules with letters of two bytes before, in and behind their values. -/
def lettered : Text :=
  utf8 ".é \x7bmargin: 1px/* ü */ var(--é) \x7d\nü \x7b color: var(--a)\x7d"

/-- The lettered rules are a view of their text: a list in the first line, a value in the second. -/
theorem rules_isView_lettered :
    Text.wellFormed lettered = true ∧
      IsView (Dialect.ofPath (utf8 "a.scss")) lettered (rules (utf8 "a.scss") lettered) ∧
      (rules (utf8 "a.scss") lettered).map (fun rule => (rule.place.position,
        rule.properties.map fun property => property.place.position)) =
        [(⟨1, 4⟩, [⟨1, 13⟩, ⟨1, 24⟩]), (⟨2, 3⟩, [⟨2, 12⟩])] := by
  have hformed := Text.wellFormed_utf8
    ".é \x7bmargin: 1px/* ü */ var(--é) \x7d\nü \x7b color: var(--a)\x7d"
  refine ⟨hformed, rules_isView _ hformed, ?_⟩
  rw [rules_eq (utf8 "a.scss") lettered (show ofPath (utf8 "a.scss") = .scss from rfl),
    Block.scan_of_closed [⟨4, 35⟩, ⟨40, 57⟩] rfl (by decide)]
  rfl

end Source

/-! ## Parts in a stylesheet -/

/-- The properties of one value are found by its span among those of values that begin at different
places. -/
theorem Declared.filter_properties {text : Text} {items : List Declared} {item : Declared}
    (hseparate : items.Pairwise Declared.Separate) (hmem : item ∈ items) :
    (items.flatMap (properties text)).filter
        (fun property => property.valueSpan = item.span) = item.properties text := by
  obtain ⟨before, after, rfl⟩ := append_of_mem hmem
  rw [pairwise_append, pairwise_cons] at hseparate
  obtain ⟨-, ⟨hafter, -⟩, hbefore⟩ := hseparate
  -- No property of another value has the span.
  have hother : ∀ others : List Declared, (∀ other ∈ others, other.span.start ≠ item.span.start) →
      (others.flatMap (properties text)).filter
        (fun property => property.valueSpan = item.span) = [] := by
    intro others hstarts
    rw [filter_eq_nil_iff]
    intro property hproperty heq
    obtain ⟨other, hmem, hproperty⟩ := mem_flatMap.mp hproperty
    rw [decide_eq_true_eq, valueSpan_of_mem hproperty] at heq
    exact hstarts other hmem (congrArg start heq)
  rw [flatMap_append, flatMap_cons, filter_append, filter_append,
    hother before fun other hmem => (hbefore other hmem item mem_cons_self).2,
    hother after fun other hmem => (hafter other hmem).2.symm, append_nil]
  refine filter_eq_self.mpr fun property hproperty => ?_
  exact decide_eq_true (valueSpan_of_mem hproperty)

namespace Source

variable {text : Text} {declared : Declared}

/-- A value that plain CSS declares lies between boundaries of the text, is read by itself as in the
text, and is what the text without comments has there. -/
theorem reads_of_declared (hformed : wellFormed text)
    (h : declared ∈ Source.declared .css text) :
    css.Reads .css text declared.span ∧
      isBoundary text declared.span.start ∧
      isBoundary text declared.span.stop ∧
      declared.value = .text (declared.span.slice (css.stripComments text)) := by
  obtain ⟨block, hblock, hmem⟩ := mem_flatMap.mp h
  have hfound := isFound_of_mem hformed hblock hmem
  rw [declaredIn_stylesheet (by decide)] at hmem
  obtain ⟨declaration, hdeclaration, rfl⟩ := mem_map.mp hmem
  have hreads := reads_value hblock hdeclaration (by decide) (by simp)
  exact ⟨hreads, hfound.starts, hfound.stops, rfl⟩

end Source

namespace Stylesheet

/-- The properties of some rules that belong to the value of a span. -/
def propertiesOf (rules : List Rule) (span : Span) : List Property :=
  (rules.flatMap Rule.properties).filter fun property => property.valueSpan = span

/-- The property that a part of the source of a value makes, given its span and index there. What it
says of the value is said without comments. -/
def partIn (text : Text) (property : Property) (part : Span × Nat) : Property :=
  let code := css.stripComments (property.valueSpan.slice text)
  { property with
    value := .text (part.1.slice code)
    place := Place.ofSpan text (part.1.shift property.valueSpan.start)
    part := some ⟨code, part.2⟩ }

/-- A value that plain CSS declares is cut out of its text between characters, so that its source is
what a target begins with, and the source has its comments blanked as in the text. The properties of
a list are its parts as they are found in that source: as many, in this order and at these places. A
value that is no list makes one property. -/
theorem rules_codeParts {text : Text} (hformed : Text.wellFormed text = true) {property : Property}
    (h : property ∈ (rules .css text).flatMap Rule.properties) :
    property.valueSpan.start ≤ property.valueSpan.stop ∧
    text.between? property.valueSpan.start property.valueSpan.stop =
      some (Target.ofProperty text property).initial ∧
    Dialect.css.stripComments (property.valueSpan.slice text) =
      property.valueSpan.slice (Dialect.css.stripComments text) ∧
    (property.part.isSome = true → propertiesOf (rules .css text) property.valueSpan =
      (Value.codeParts .css (property.valueSpan.slice text)).zipIdx.map (partIn text property)) ∧
    (property.part = none → propertiesOf (rules .css text) property.valueSpan = [property]) := by
  have hproperties : (rules .css text).flatMap Rule.properties =
      (Source.declared .css text).flatMap (Declared.properties text) :=
    Source.rules_properties (utf8 ".css") text
  rw [hproperties] at h
  obtain ⟨declared, hdeclared, hproperty⟩ := List.mem_flatMap.mp h
  obtain ⟨hreads, hstarts, hstops, hvalue⟩ := Source.reads_of_declared hformed hdeclared
  have hspan := Declared.valueSpan_of_mem hproperty
  have hgroup : propertiesOf (rules .css text) property.valueSpan = declared.properties text := by
    rw [propertiesOf, hproperties, hspan]
    exact Declared.filter_properties (Source.declared_separate .css text).2 hdeclared
  have hcode := hreads.slice_stripComments
  have hsource : text.between? property.valueSpan.start property.valueSpan.stop =
      some (property.valueSpan.slice text) := by
    rw [Text.between?, hspan, hstarts, hstops, decide_eq_true (Nat.le_of_lt hreads.order)]
    rfl
  rw [hgroup, hsource, hspan, hcode]
  refine ⟨Nat.le_of_lt hreads.order, ?_, rfl, ?_⟩
  · -- Plain CSS declares no numbers.
    rcases declared.properties_cases text with ⟨hwhole, -⟩ | ⟨raw, -, -, hparts⟩
    · rw [hwhole, List.mem_singleton] at hproperty
      rw [hproperty, Target.ofProperty, Declared.whole, hvalue]
    · rw [hparts] at hproperty
      obtain ⟨part, -, rfl⟩ := List.mem_map.mp hproperty
      rfl
  · rcases declared.properties_cases text with ⟨hwhole, -⟩ | ⟨raw, hraw, -, hparts⟩
    · rw [hwhole, List.mem_singleton] at hproperty
      subst hproperty
      exact ⟨fun hpart => (by cases hpart), fun _ => hwhole⟩
    · rw [hvalue, hcode] at hraw
      obtain rfl := DeclaredValue.text.inj hraw
      rw [hparts] at hproperty ⊢
      obtain ⟨part, -, rfl⟩ := List.mem_map.mp hproperty
      exact ⟨fun _ => rfl, fun hpart => (by cases hpart)⟩

/-- A list with a comment between its parts, a literal for a part, and letters of two bytes. -/
def letteredList : Text :=
  utf8 ".é \x7b margin: 1px/* ü */'a b' var(--é) \x7d"

/-- The parts of the lettered list in its source are the properties that are read from it. -/
theorem rules_codeParts_letteredList :
    Text.wellFormed letteredList = true ∧
      ∃ property ∈ (rules .css letteredList).flatMap Rule.properties,
        property.valueSpan.slice letteredList = utf8 "1px/* ü */'a b' var(--é)" ∧
        (propertiesOf (rules .css letteredList) property.valueSpan).map
            (fun part => part.place.span) = [⟨14, 17⟩, ⟨25, 30⟩, ⟨31, 40⟩] := by
  have hformed : wellFormed letteredList := wellFormed_utf8 _
  obtain ⟨property, hmem, hpart, hspan⟩ :
      ∃ property ∈ (rules .css letteredList).flatMap Rule.properties,
        property.part.isSome ∧ property.valueSpan = ⟨14, 40⟩ := by
    rw [rules, Block.scan_of_closed [⟨4, 41⟩] rfl (by decide)]
    exact ⟨_, mem_cons_self, rfl, rfl⟩
  obtain ⟨-, -, -, hlist, -⟩ := rules_codeParts hformed hmem
  refine ⟨hformed, property, hmem, by rw [hspan]; rfl, ?_⟩
  rw [hlist hpart, hspan, map_map]
  simp only [Function.comp_def, partIn, hspan]
  rfl

end Stylesheet

end Restyle
