import Restyle.Proofs.Migration.Targets
import Restyle.Proofs.Rule.Selector

/-!
# Targets around a word

Where the targets of a stylesheet stand, what their names are and which of them are lists does not
depend on the words in their values: the reading of these outlines is stable
(`Target.outlines_stable`). The layout of a stylesheet is what can be said of it without the words
of its values: the selectors of its blocks, and of every declaration the name, the number of its
parts if it is a list, and how many values of the text stand before its value. In plain CSS the
layout is the same whichever word stands in a declared value (`Source.layout_word`), so that it may
be read together with the targets of a file: `Target.layout_stable`.
-/

namespace Restyle

open Declaration Dialect List Source

open Dialect (veilWord)
open Token (IsWord)

namespace Source

/-- The values that a stylesheet without comments declares, block by block: where each stands, its
name and whether it is a list. -/
def outlines (dialect : Dialect) (stripped : Text) : List (Span × Text × Bool) :=
  (Block.scan dialect stripped).flatMap fun block =>
    (scan dialect stripped block.interior).map fun declaration =>
      (declaration.value, declaration.name,
        Value.isList declaration.name (declaration.value.slice stripped))

/-- An outline is that of a declaration of a block. -/
theorem exists_of_mem_outlines {dialect : Dialect} {stripped : Text} {item : Span × Text × Bool}
    (h : item ∈ outlines dialect stripped) :
    ∃ block ∈ Block.scan dialect stripped,
      ∃ declaration ∈ scan dialect stripped block.interior,
        item.1 = declaration.value := by
  obtain ⟨block, hblock, hitem⟩ := mem_flatMap.mp h
  obtain ⟨declaration, hmem, rfl⟩ := mem_map.mp hitem
  exact ⟨block, hblock, declaration, hmem, rfl⟩

/-- If a word stands in a declared value, the same values are declared whichever word stands there,
up to the length of the word. -/
theorem outlines_word {dialect : Dialect} {hidden : Bool} {left right word : Text}
    (hword : IsWord word)
    (hdeclared : ∃ item ∈ outlines dialect (left ++ veilWord hidden word ++ right),
      item.1.start ≤ left.length ∧ left.length + word.length ≤ item.1.stop)
    {other : Text} (hother : IsWord other) :
    outlines dialect (left ++ veilWord hidden other ++ right) =
      (outlines dialect (left ++ veilWord hidden [Byte.hyphen] ++ right)).map fun item =>
        (item.1.stretch left.length other.length, item.2) := by
  obtain ⟨item, hitem, hbounds⟩ := hdeclared
  obtain ⟨outer, houter, declaration, hmem, hspan⟩ := exists_of_mem_outlines hitem
  rw [hspan] at hbounds
  -- Block by block: the blocks are the same, and so is what each of them declares.
  rw [outlines, outlines, Block.scan_word dialect hidden left right hother, flatMap_map,
    map_flatMap]
  refine flatMap_congr fun block hblock => ?_
  rw [scan_word hword ⟨outer, houter, declaration, hmem, hbounds⟩ hother hblock, map_map, map_map]
  refine map_congr_left fun declaration _ => ?_
  simp only [Function.comp, moved,
    Value.isList_slice_word declaration.name hidden left right hother]

end Source

namespace Target

/-- Where a target stands, its name and whether it is a list. -/
def outline (target : Target) : Span × Text × Bool :=
  (target.span, target.name, target.isComposite)

theorem declared_outline {dialect : Dialect} (hdialect : dialect ≠ .script) (text : Text) :
    ((declared dialect text).map (Declared.target text)).map outline =
      outlines dialect (dialect.stripComments text) := by
  simp only [declared, outlines, declaredIn_stylesheet hdialect, map_flatMap, map_map]
  rfl

/-- The targets of a stylesheet have the outlines of what it declares, in the order of the file. -/
theorem ofRules_outline {path : Text} (hpath : ofPath path ≠ .script) (text : Text) :
    (ofRules text (rules path text)).map outline =
      (outlines (ofPath path)
        ((ofPath path).stripComments text)).mergeSort
          fun left right => left.1.start ≤ right.1.start := by
  rw [ofRules_eq, ← declared_outline hpath]
  exact map_mergeSort fun _ _ _ _ => rfl

/-- The values of a stylesheet are texts. -/
theorem isNumber_eq_false {path text : Text} (hpath : ofPath path ≠ .script)
    {target : Target} (h : target ∈ ofRules text (rules path text)) :
    target.isNumber = false := by
  rw [ofRules_eq, mem_mergeSort] at h
  obtain ⟨declared, hdeclared, rfl⟩ := mem_map.mp h
  obtain ⟨block, -, hdeclared⟩ := mem_flatMap.mp hdeclared
  rw [declaredIn_stylesheet hpath] at hdeclared
  obtain ⟨declaration, -, rfl⟩ := mem_map.mp hdeclared
  rfl

/-- The reading of the targets of a stylesheet is stable. -/
theorem outlines_stable {path : Text} (hpath : ofPath path ≠ .script) :
    StableReading fun text => (ofRules text (rules path text)).map outline := by
  rintro left word right hword ⟨item, hitem, hbounds⟩
  obtain ⟨left', right', hidden, hleft, hstrip⟩ := (ofPath path).stripComments_word
    left right (by decide : Token.isIdentifierByte Byte.hyphen)
  dsimp only at hitem
  rw [ofRules_outline hpath, mem_mergeSort, hstrip word hword.identifier hword.head] at hitem
  rw [← hleft] at hbounds
  refine ⟨(Source.outlines (ofPath path)
    (left' ++ veilWord hidden [Byte.hyphen] ++ right')).mergeSort
      fun left right => left.1.start ≤ right.1.start, fun other hother => ?_⟩
  dsimp only
  rw [ofRules_outline hpath, hstrip other hother.identifier hother.head,
    Source.outlines_word hword ⟨item, hitem, hbounds⟩ hother, ← hleft]
  refine (map_mergeSort fun first _ second _ => decide_eq_decide.mpr ?_).symm
  exact stretch_le_stretch.symm

end Target

/-! ## The layout -/

open Byte

theorem Dialect.ne_script_of_css {dialect : Dialect} (h : dialect = .css) : dialect ≠ .script := by
  rw [h]
  decide

/-- The number of parts of a value, if it is a list. -/
def Value.partCount? (name raw : Text) : Option Nat :=
  if isList name raw then some (parts raw).length else none

/-- The number of parts in a slice of a text does not depend on a word in the text. -/
theorem Value.partCount_slice_word (name : Text) (hidden : Bool) (left right : Text) {word : Text}
    (hword : IsWord word) (span : Span) :
    partCount? name ((span.stretch left.length word.length).slice
        (left ++ veilWord hidden word ++ right)) =
      partCount? name (span.slice (left ++ veilWord hidden [hyphen] ++ right)) := by
  have hlength : ∀ left right, (parts (left ++ veilWord hidden word ++ right)).length =
      (parts (left ++ veilWord hidden [hyphen] ++ right)).length := by
    intro left right
    rw [parts_word hidden left right hword, length_map]
  have hslice := @Span.slice_word _ (fun raw => (parts raw).length) hidden word hword hlength left
    right span
  rw [partCount?, isList_slice_word name hidden left right hword]
  exact congrArg (fun count => if isList name _ then some count else none) hslice

namespace Source

/-- How many values of a stylesheet without comments begin before an offset. -/
def rank (dialect : Dialect) (stripped : Text) (start : Nat) : Nat :=
  (outlines dialect stripped).countP fun item => item.1.start < start

/-- What is seen of a declaration, the words of its value apart. -/
structure Slot where
  name : Text
  /-- The number of parts, if the value is a list. -/
  parts : Option Nat
  /-- How many values of the text stand before this one. -/
  rank : Nat

/-- The slot of a declaration of a stylesheet without comments. -/
def slot (dialect : Dialect) (stripped : Text) (declaration : Declaration) : Slot where
  name := declaration.name
  parts := Value.partCount? declaration.name (declaration.value.slice stripped)
  rank := rank dialect stripped declaration.value.start

/-- The layout of a stylesheet without comments: the selector and the slots of every block. -/
def layout (dialect : Dialect) (stripped : Text) : List (Text × List Slot) :=
  (Block.scan dialect stripped).map fun block =>
    (Stylesheet.selector dialect stripped block.opening,
      (scan dialect stripped block.interior).map (slot dialect stripped))

/-- If a word stands in a declared value, the layout is the same whichever word stands there. -/
theorem layout_word {hidden : Bool} {left right word : Text} (hword : IsWord word)
    (hdeclared : ∃ item ∈ outlines .css (left ++ veilWord hidden word ++ right),
      item.1.start ≤ left.length ∧ left.length + word.length ≤ item.1.stop)
    {other : Text} (hother : IsWord other) :
    layout .css (left ++ veilWord hidden other ++ right) =
      layout .css (left ++ veilWord hidden [hyphen] ++ right) := by
  have houtlines := fun {other} => @outlines_word .css hidden left right word hword hdeclared other
  have hrank : ∀ start, rank .css (left ++ veilWord hidden other ++ right)
        (stretch left.length other.length start) =
      rank .css (left ++ veilWord hidden [hyphen] ++ right) start := by
    intro start
    rw [rank, houtlines hother, countP_map]
    refine countP_congr fun item _ => ?_
    simp only [Function.comp, Span.stretch, stretch_lt_stretch]
  obtain ⟨item, hitem, hbounds⟩ := hdeclared
  obtain ⟨outer, houter, declaration, hmem, hspan⟩ := exists_of_mem_outlines hitem
  have hdeclaration : Declaration.Covers .css (left ++ veilWord hidden word ++ right) left.length
      (left.length + word.length) :=
    ⟨outer, houter, declaration, hmem, hspan ▸ hbounds⟩
  -- The declaration around the word, in the text with a hyphen in its place.
  rw [houtlines hword] at hitem
  obtain ⟨origin, horigin, rfl⟩ := mem_map.mp hitem
  have haround := Span.around_of_stretch (length_pos_iff.mpr hword.ne_nil) hbounds.1 hbounds.2
  obtain ⟨home, hhome, value, hvalue, hplace⟩ := exists_of_mem_outlines horigin
  rw [hplace] at haround
  rw [layout, Block.scan_word .css hidden left right hother, map_map]
  refine map_congr_left fun block hblock => Prod.ext ?_ ?_
  · exact Stylesheet.selector_word hhome hvalue haround hblock hother
  · show (scan .css _ (block.stretch left.length other.length).interior).map _ = _
    rw [scan_word hword hdeclaration hother hblock, map_map]
    refine map_congr_left fun declaration _ => ?_
    simp only [Function.comp, slot, moved,
      Value.partCount_slice_word declaration.name hidden left right hother]
    exact congrArg _ (hrank _)

end Source

namespace Target

/-- The reading of the targets of a stylesheet with its layout is stable. -/
theorem layout_stable {path : Text} (hpath : ofPath path = .css) :
    StableReading fun text => (ofRules text (rules path text)).map fun target =>
      (target.span, layout .css (css.stripComments text)) := by
  have hsheet := ne_script_of_css hpath
  rintro left word right hword ⟨item, hitem, hbounds⟩
  obtain ⟨target, htarget, rfl⟩ := mem_map.mp hitem
  have houtline := mem_map_of_mem (f := outline) htarget
  obtain ⟨items, hitems⟩ := outlines_stable hsheet left word right hword
    ⟨target.outline, houtline, hbounds⟩
  obtain ⟨left', right', hidden, hleft, hstrip⟩ := css.stripComments_word
    left right (by decide : Token.isIdentifierByte hyphen)
  rw [ofRules_outline hsheet, mem_mergeSort, hpath,
    hstrip word hword.identifier hword.head] at houtline
  refine ⟨items.map fun item =>
    (item.1, layout .css (left' ++ veilWord hidden [hyphen] ++ right')),
    fun other hother => ?_⟩
  have hlayout := layout_word hword ⟨target.outline, houtline, hleft ▸ hbounds⟩ hother
  rw [← hstrip other hother.identifier hother.head] at hlayout
  have hspans := congrArg (map fun item =>
    (item.1, layout .css (css.stripComments (left ++ other ++ right))))
    (hitems other hother)
  simp only [map_map] at hspans ⊢
  refine hspans.trans (map_congr_left fun item _ => ?_)
  simp only [Function.comp, hlayout]

end Target

end Restyle
