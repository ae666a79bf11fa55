import Mathlib.Data.List.Forall2
import Restyle.Proofs.Text.Boundary
import Restyle.Proofs.Token.CustomName
import Restyle.Proofs.Value.Layout

/-!
# Values that are rebuilt

A solid text has no spaces, opens and closes nothing but its own parentheses, and cannot be read as
a piece of a comment. It may take the place of any part: the value stays laid out in cells, with the
gaps that it had (`Value.Laid.of_refits`). The name of a custom property is solid and so is a
reference to it, and a replacement of either kind is brought into a form of either kind. So the
value that is rebuilt has the parts that were put in and the gaps of the value:
`Value.rebuild_parts`.
-/

namespace Restyle

open Byte Dialect List Scan Token

namespace Value

open Enclosure (outside isFiller)

/-! ## Solid texts -/

/-- The text can stand as a part wherever a part stands. -/
structure Solid (dialect : Dialect) (text : Text) : Prop where
  ne : text ≠ []
  balanced : isBalanced 0 text
  passed : ∀ byte ∈ text, isPassed dialect byte
  bytes : ∀ byte ∈ text, byte ≠ slash ∧ byte ≠ asterisk ∧ isSpace byte = false

namespace Solid

variable {dialect : Dialect} {text : Text} (h : Solid dialect text)
include h

/-- A solid text begins as a part and not like a piece of a comment. -/
theorem head : ∃ first more, text = first :: more ∧
    isFiller first = false ∧ first ≠ slash ∧ first ≠ asterisk := by
  obtain ⟨first, more, rfl⟩ := exists_cons_of_ne_nil h.ne
  obtain ⟨hslash, hasterisk, hspace⟩ := h.bytes first mem_cons_self
  have hclose : first ≠ closeParen :=
    (isBalanced_cons.mp h.balanced).1.resolve_right (Nat.lt_irrefl 0)
  exact ⟨first, more, rfl, by simp [isFiller, hspace, hclose], hslash, hasterisk⟩

theorem unmarked (ahead : Option UInt8) :
    ∀ mark ∈ start.marksUntil dialect ahead text, mark.2 = false :=
  unmarked_of_slash_notMem (fun hmem => (h.bytes _ hmem).1 rfl) rfl ahead

theorem run_eq (ahead : Option UInt8) : start.run dialect ahead text = start := by
  rw [(run_unmarked (start_sound dialect) h.ne h.passed (h.unmarked ahead)).2]
  exact congrArg (Scan.mk .code) (foldl_depthNext_of_isBalanced h.balanced 0)

theorem stripUntil_eq (ahead : Option UInt8) : dialect.stripUntil start ahead text = text := by
  have hmap : (start.marksUntil dialect ahead text).map
      (fun mark => if mark.2 then blankByte mark.1 else mark.1) =
        (start.marksUntil dialect ahead text).map Prod.fst := by
    refine map_congr_left fun mark hmark => ?_
    rw [h.unmarked ahead mark hmark]
    rfl
  rw [stripUntil_eq_map, hmap, map_fst_marksUntil]

theorem holds : outside.holds text := by
  rw [Enclosure.holds_iff]
  intro index byte hbyte
  rw [Enclosure.divides, (h.bytes byte (mem_of_getElem? hbyte)).2.2, Bool.and_false]

theorem after_eq (hdialect : dialect ≠ .script) : outside.after text = outside := by
  have hunquoted : ∀ byte ∈ text ++ [], byte ≠ doubleQuote ∧ byte ≠ apostrophe := by
    intro byte hmem
    rw [append_nil] at hmem
    have hpassed := h.passed byte hmem
    simp only [isPassed, isQuote_eq hdialect, Bool.and_eq_true, Bool.not_eq_true',
      Bool.or_eq_false_iff, beq_eq_false_iff_ne] at hpassed
    exact hpassed.1.1
  have hrun := (enclosure_run hdialect start_ne_escape
    (hasPlainLiterals_of_unquoted hdialect start_ne_escape rfl hunquoted)).1
  rw [h.stripUntil_eq, h.run_eq] at hrun
  exact hrun

/-- A solid text is a whole part in front of a space, or of nothing. -/
theorem isWhole (hdialect : dialect ≠ .script) {rest : Text}
    (hrest : (dialect.stripComments rest).head?.all isSpace) :
    IsWhole dialect text rest := by
  refine ⟨⟨?_, ?_, ?_⟩, .inr (h.run_eq _)⟩
  · obtain ⟨first, more, htext, hfirst, -⟩ := h.head
    rw [h.stripUntil_eq, htext]
    simpa using hfirst
  · rw [h.stripUntil_eq]
    exact h.holds
  · rw [h.stripUntil_eq]
    cases hstrip : dialect.stripComments rest with
    | nil => exact .inl rfl
    | cons space more =>
      rw [hstrip] at hrest
      exact .inr ⟨h.after_eq hdialect, hrest⟩

end Solid

/-! ## Cells with new parts -/

variable {dialect : Dialect} {tail : Text} {cells cells' : List Cell}

/-- The cell has the gap of the other one, and its part or a solid text. -/
def Refits (dialect : Dialect) (cell cell' : Cell) : Prop :=
  cell'.gap = cell.gap ∧ (cell'.part = cell.part ∨ Solid dialect cell'.part)

/-- A gap stays a gap in front of a byte that is no piece of a comment. -/
theorem IsGap.of_isHarmless {ahead ahead' : Option UInt8} {gap : Text}
    (h : IsGap dialect ahead gap) (hahead : isHarmless ahead') :
    IsGap dialect ahead' gap ∧
      dialect.stripUntil start ahead' gap = dialect.stripUntil start ahead gap := by
  have houtside : (start.run dialect ahead gap).isOutside := by
    rw [h.run]
    rfl
  have hstrip := stripUntil_of_isHarmless houtside hahead
  exact ⟨⟨hstrip ▸ h.filler, (run_of_isHarmless houtside hahead).1.trans h.run⟩, hstrip⟩

/-- A whole part stays one in front of a rest that begins alike. -/
theorem IsWhole.of_head {part rest rest' : Text} (h : IsWhole dialect part rest)
    (hhead : rest'.head? = rest.head?)
    (hspace : (dialect.stripComments rest').head?.all isSpace) :
    IsWhole dialect part rest' := by
  cases rest with
  | nil =>
    obtain rfl := head?_eq_none_iff.mp hhead
    exact h
  | cons byte rest =>
    obtain ⟨⟨hbegins, hholds, hends⟩, hrun⟩ := h
    rw [← hhead] at hbegins hholds hends hrun
    have hafter := hends.resolve_left (by rw [stripComments, stripFrom_cons]; simp)
    refine ⟨⟨hbegins, hholds, .inr ⟨hafter.1, ?_⟩⟩, .inr (hrun.resolve_left (by simp))⟩
    cases rest' with
    | nil => cases hhead
    | cons byte' rest' =>
      rw [stripComments, stripFrom_cons] at hspace ⊢
      exact hspace

/-- Cells with solid texts for some of their parts are laid out as the cells are, and begin as they
do if they begin with a space. -/
theorem Laid.of_refits (hdialect : dialect ≠ .script) (h : Laid dialect tail cells)
    (hcells : List.Forall₂ (Refits dialect) cells cells') :
    Laid dialect tail cells' ∧
      ((dialect.stripComments (join tail cells)).head?.all isSpace →
        (dialect.stripComments (join tail cells')).head?.all isSpace ∧
          (join tail cells').head? = (join tail cells).head?) := by
  induction h generalizing cells' with
  | nil hfiller =>
    cases hcells
    exact ⟨.nil hfiller, fun hspace => ⟨hspace, rfl⟩⟩
  | @cons cell later hgap hpart _ ih =>
    obtain ⟨cell', later', ⟨hsame, hnew⟩, hlater, rfl⟩ := forall₂_cons_left_iff.mp hcells
    obtain ⟨hlaid, hfront⟩ := ih hlater
    obtain ⟨hspace, hhead⟩ := hfront hpart.stands.isSpace_head
    have hpart' : IsWhole dialect cell'.part (join tail later') := by
      rcases hnew with hpart' | hsolid
      · rw [hpart']
        exact hpart.of_head hhead hspace
      · exact hsolid.isWhole hdialect hspace
    have hgap' : IsGap dialect (cell'.part ++ join tail later').head? cell'.gap ∧
        dialect.stripUntil start (cell'.part ++ join tail later').head? cell'.gap =
          dialect.stripUntil start (cell.part ++ join tail later).head? cell.gap := by
      rw [hsame]
      rcases hnew with hpart' | hsolid
      · rw [hpart', head?_append, hhead, ← head?_append]
        exact ⟨hgap, rfl⟩
      · apply hgap.of_isHarmless
        obtain ⟨first, more, htext, -, hslash, hasterisk⟩ := hsolid.head
        rw [htext]
        simpa [isHarmless] using ⟨hslash, hasterisk⟩
    refine ⟨.cons hgap'.1 hpart' hlaid, fun hbegins => ?_⟩
    rw [join, hgap.stripComments_append, hpart.stripComments_append] at hbegins
    rw [join, join, hgap'.1.stripComments_append, hgap'.2, hsame]
    -- The gap is not empty, since the part behind it does not begin with a space.
    cases hshown : dialect.stripUntil start (cell.part ++ join tail later).head? cell.gap with
    | nil =>
      rw [hshown, nil_append] at hbegins
      exact absurd hbegins (hpart.stands.not_isSpace_head _)
    | cons first more =>
      rw [hshown] at hbegins
      refine ⟨hbegins, ?_⟩
      have hne : cell.gap ≠ [] := by
        intro hnil
        rw [hnil] at hshown
        cases hshown
      rw [head?_append_of_ne_nil _ hne, head?_append_of_ne_nil _ hne]

/-- The cells with what is fitted in for their parts. -/
def refit (replacements : List (Nat × Text)) (index : Nat) (cells : List Cell) : List Cell :=
  (cells.zipIdx index).map fun (cell, index) => ⟨cell.gap, fitted replacements index cell.part⟩

variable (replacements : List (Nat × Text))

/-- The first of some cells is refitted, and then the others. -/
theorem refit_cons (index : Nat) (cell : Cell) (later : List Cell) :
    refit replacements index (cell :: later) =
      ⟨cell.gap, fitted replacements index cell.part⟩ :: refit replacements (index + 1) later := by
  rw [refit, zipIdx_cons, map_cons]
  rfl

/-- A value in cells is rebuilt cell by cell. -/
theorem rebuildFrom_places (index offset : Nat) (tail : Text) (cells : List Cell) :
    rebuildFrom replacements index offset (join tail cells) (places offset cells) =
      join tail (refit replacements index cells) := by
  induction cells generalizing index offset with
  | nil => rfl
  | cons cell later ih =>
    have hstart : offset + cell.gap.length - offset = cell.gap.length := by omega
    have hstop : offset + cell.gap.length + cell.part.length - offset =
        cell.gap.length + cell.part.length := by omega
    have hlength : Span.length ⟨offset + cell.gap.length,
        offset + cell.gap.length + cell.part.length⟩ = cell.part.length :=
      Nat.add_sub_cancel_left _ _
    rw [places, rebuildFrom, join, hstart, hstop, hlength, drop_left, take_left, take_left,
      ← drop_drop, drop_left, drop_left, ih, refit_cons, join, append_assoc]
    rfl

theorem map_gap_refit (index : Nat) (cells : List Cell) :
    (refit replacements index cells).map Cell.gap = cells.map Cell.gap := by
  rw [refit, map_map]
  conv => rhs; rw [← zipIdx_map_fst index cells, map_map]
  rfl

theorem map_part_refit (index : Nat) (cells : List Cell) :
    (refit replacements index cells).map Cell.part =
      ((cells.map Cell.part).zipIdx index).map fun (part, index) =>
        fitted replacements index part := by
  rw [refit, zipIdx_map, map_map, map_map]
  rfl

/-- What stands in a text from an offset on before, between and behind spans. -/
def gaps (text : Text) (offset : Nat) : List Span → List Text
  | [] => [text.drop offset]
  | span :: later => (Span.mk offset span.start).slice text :: gaps text span.stop later

/-- The gaps around the parts of cells are those of the cells and the tail. -/
theorem gaps_places (left tail : Text) (cells : List Cell) :
    gaps (left ++ join tail cells) left.length (places left.length cells) =
      cells.map Cell.gap ++ [tail] := by
  induction cells generalizing left with
  | nil => rw [places, gaps, join, drop_left]; rfl
  | cons cell later ih =>
    have hlater := ih (left ++ (cell.gap ++ cell.part))
    simp only [length_append, append_assoc, ← Nat.add_assoc] at hlater
    rw [places, gaps, join, hlater, Span.slice, drop_left, Nat.add_sub_cancel_left, take_left]
    rfl

/-! ## Names and references -/

/-- The text is the name of a custom property, or a reference to one. -/
def IsMention (text : Text) : Prop :=
  ∃ name, Token.IsCustomName name ∧ (text = name ∨ text = referTo name)

/-- Bytes of identifiers and parentheses are solid. -/
theorem solid_byte {byte : UInt8} (h : isIdentifierByte byte ∨
      byte = openParen ∨ byte = closeParen) (dialect : Dialect) :
    isPassed dialect byte ∧
      byte ≠ slash ∧ byte ≠ asterisk ∧ isSpace byte = false := by
  have hall : ∀ code : Fin 256, (isIdentifierByte (UInt8.ofFin code) ∨
      UInt8.ofFin code = openParen ∨ UInt8.ofFin code = closeParen) →
      isPassed dialect (UInt8.ofFin code) ∧ UInt8.ofFin code ≠ slash ∧
        UInt8.ofFin code ≠ asterisk ∧ isSpace (UInt8.ofFin code) = false := by
    cases dialect <;> decide +kernel
  exact hall byte.toFin h

/-- Bytes of identifiers leave the parentheses behind them balanced or not. -/
theorem isBalanced_of_isIdentifierByte {word : Text}
    (h : ∀ byte ∈ word, isIdentifierByte byte) (depth : Nat) (rest : Text) :
    isBalanced depth (word ++ rest) = isBalanced depth rest := by
  induction word with
  | nil => rfl
  | cons byte word ih =>
    obtain ⟨hbyte, hword⟩ := forall_mem_cons.mp h
    have hopen := beq_eq_false hbyte (by decide : isIdentifierByte openParen = false)
    have hclose := beq_eq_false hbyte (by decide : isIdentifierByte closeParen = false)
    rw [cons_append, isBalanced, depthNext, bne, hopen, hclose, ← ih hword]
    rfl

theorem IsMention.solid {text : Text} (h : IsMention text) (dialect : Dialect) :
    Solid dialect text := by
  obtain ⟨name, hname, htext⟩ := h
  have hname := isCustomName_iff.mpr hname
  have hidentifier := isIdentifierByte_of_isCustomName hname
  have hbalanced := isBalanced_of_isIdentifierByte hidentifier
  have hbytes : ∀ byte ∈ text, isIdentifierByte byte ∨
      byte = openParen ∨ byte = closeParen := by
    intro byte hmem
    rcases htext with rfl | rfl
    · exact .inl (hidentifier byte hmem)
    · rw [referTo, mem_append, mem_append] at hmem
      rcases hmem with (hmem | hmem) | hmem
      · revert hmem
        revert byte
        decide +kernel
      · exact .inl (hidentifier byte hmem)
      · exact .inr (.inr (mem_singleton.mp hmem))
  refine ⟨?_, ?_, fun byte hmem => (solid_byte (hbytes byte hmem) dialect).1,
    fun byte hmem => (solid_byte (hbytes byte hmem) dialect).2⟩
  · rcases htext with rfl | rfl
    · exact ne_nil_of_isCustomName hname
    · rintro ⟨⟩
  · rcases htext with rfl | rfl
    · have hzero := hbalanced 0 []
      rw [append_nil] at hzero
      exact hzero
    · rw [referTo, append_assoc]
      exact hbalanced 1 (utf8 ")")

theorem trim_of_isCustomName {name : Text} (h : isCustomName name) :
    Text.trim name = name := by
  have hbytes := fun byte hmem =>
    char_of_isIdentifierByte (isIdentifierByte_of_isCustomName h byte hmem)
  have hformed : Text.wellFormed name :=
    Text.wellFormed_of_all_ascii fun byte hmem => (hbytes byte hmem).1
  rw [Text.trim, Text.trimChars_eq_self (isBlank_of_mem_chars hbytes)]
  exact beq_iff_eq.mp hformed

theorem IsMention.fitForm {replacement : Text} (h : IsMention replacement) (part : Text) :
    IsMention (fitForm part replacement) := by
  obtain ⟨name, hname, htext⟩ := h
  unfold Value.fitForm
  split
  next hwrapped =>
    -- Only the name begins with hyphens.
    rcases htext with rfl | rfl
    · exact ⟨_, hname, .inr rfl⟩
    · cases (Bool.and_eq_true_iff.mp hwrapped).2
  · split
    next hunwrapped =>
      rcases htext with rfl | rfl
      · obtain ⟨rest, rfl, -⟩ := exists_of_isCustomName (isCustomName_iff.mpr hname)
        simp only [Bool.and_eq_true] at hunwrapped
        cases hunwrapped.1.1.2
      · have hreferent : referent (referTo name) = name := dropLast_concat
        rw [hreferent, trim_of_isCustomName (isCustomName_iff.mpr hname)]
        exact ⟨name, hname, .inl rfl⟩
    · exact ⟨name, hname, htext⟩

/-- What takes the place of a part is a mention, or the part stays. -/
theorem fitted_cases {replacements : List (Nat × Text)}
    (h : ∀ pair ∈ replacements, IsMention pair.2) (index : Nat) (part : Text) :
    fitted replacements index part = part ∨ IsMention (fitted replacements index part) := by
  unfold fitted
  cases hlookup : replacements.lookup index with
  | none => exact .inl rfl
  | some replacement =>
    obtain ⟨front, back, hsplit, -⟩ := lookup_eq_some_iff.mp hlookup
    exact .inr ((h (index, replacement) (by simp [hsplit])).fitForm part)

/-- Cells with mentions for some of their parts refit the cells. -/
theorem forall_refits {replacements : List (Nat × Text)}
    (h : ∀ pair ∈ replacements, IsMention pair.2) (cells : List Cell) (index : Nat) :
    List.Forall₂ (Refits dialect) cells (refit replacements index cells) := by
  induction cells generalizing index with
  | nil => exact .nil
  | cons cell later ih =>
    rw [refit_cons]
    exact .cons ⟨rfl, (fitted_cases h index cell.part).imp id fun hmention =>
      hmention.solid dialect⟩ (ih (index + 1))

/-- A replacement for an index behind the last part is not looked up. -/
theorem fitted_filter {index count : Nat} (h : index < count) (part : Text) :
    fitted (replacements.filter fun pair => pair.1 < count) index part =
      fitted replacements index part := by
  have hlookup : (replacements.filter fun pair => pair.1 < count).lookup index =
      replacements.lookup index := by
    induction replacements with
    | nil => rfl
    | cons pair replacements ih =>
      by_cases hpair : pair.1 < count
      · rw [filter_cons_of_pos (by simpa using hpair), lookup_cons, lookup_cons, ih]
      · have hne : (index == pair.1) = false := by
          rw [beq_eq_false_iff_ne]
          omega
        rw [filter_cons_of_neg (by simpa using hpair), lookup_cons, hne, ih]
  rw [fitted, fitted, hlookup]

/-- A style value without quotation marks is rebuilt with names of custom properties and references
to them for some of its parts. It has as many parts as before, each of them the old one or what was
fitted in for it, and it has the same bytes before, between and behind them. Replacements for parts
that it does not have change nothing. Any value stays as it is if parts are replaced by
themselves. -/
theorem rebuild_parts (dialect : Dialect) (value : Text) (replacements : List (Nat × Text)) :
    (dialect ≠ .script → (∀ byte ∈ value, byte ≠ Byte.doubleQuote ∧ byte ≠ Byte.apostrophe) →
      (∀ pair ∈ replacements, IsMention pair.2) →
      (codeParts dialect (rebuild dialect value replacements)).length =
          (codeParts dialect value).length ∧
        (codeParts dialect (rebuild dialect value replacements)).map
            (fun span => span.slice (rebuild dialect value replacements)) =
          ((codeParts dialect value).zipIdx.map fun (span, index) =>
            fitted replacements index (span.slice value)) ∧
        gaps (rebuild dialect value replacements) 0
            (codeParts dialect (rebuild dialect value replacements)) =
          gaps value 0 (codeParts dialect value)) ∧
    rebuild dialect value
        (replacements.filter fun pair => pair.1 < (codeParts dialect value).length) =
      rebuild dialect value replacements ∧
    ((∀ pair ∈ replacements, ∃ span, (codeParts dialect value)[pair.1]? = some span ∧
        pair.2 = span.slice value) → rebuild dialect value replacements = value) := by
  refine ⟨fun hdialect hunquoted hmentions => ?_, ?_, fun hown => ?_⟩
  · obtain ⟨tail, cells, rfl, hlaid⟩ := exists_laid hdialect value
      (hasPlainLiterals_of_unquoted hdialect start_ne_escape rfl hunquoted)
    obtain ⟨hlaid', -⟩ := hlaid.of_refits hdialect (forall_refits hmentions cells 0)
    have hrebuild : rebuild dialect (join tail cells) replacements =
        join tail (refit replacements 0 cells) := by
      rw [rebuild, hlaid.codeParts_join, rebuildFrom_places]
    have hparts : (places 0 (refit replacements 0 cells)).map
        (fun span => span.slice (join tail (refit replacements 0 cells))) =
        (places 0 cells).zipIdx.map fun (span, index) =>
          fitted replacements index (span.slice (join tail cells)) :=
      calc
        _ = (refit replacements 0 cells).map Cell.part := map_slice_places [] tail _
        _ = (cells.map Cell.part).zipIdx.map fun (part, index) =>
              fitted replacements index part := map_part_refit ..
        _ = ((places 0 cells).map fun span => span.slice (join tail cells)).zipIdx.map
              fun (part, index) => fitted replacements index part := by
            rw [← map_slice_places [] tail cells]
            rfl
        _ = _ := by
            rw [zipIdx_map, map_map]
            rfl
    rw [hrebuild, hlaid'.codeParts_join, hlaid.codeParts_join]
    refine ⟨by simpa using congrArg length hparts, hparts, ?_⟩
    refine (gaps_places [] tail _).trans (Eq.trans ?_ (gaps_places [] tail cells).symm)
    rw [map_gap_refit]
  · rw [rebuild_eq_fill, rebuild_eq_fill]
    congr 1
    refine map_congr_left fun item hitem => congrArg (Prod.mk item.1) ?_
    exact fitted_filter replacements (snd_lt_of_mem_zipIdx hitem) _
  · refine rebuild_eq_self fun item hitem => ?_
    unfold fitted
    cases hlookup : replacements.lookup item.2 with
    | none => rfl
    | some replacement =>
      obtain ⟨front, back, hsplit, -⟩ := lookup_eq_some_iff.mp hlookup
      obtain ⟨span, hspan, rfl⟩ := hown (item.2, replacement) (by simp [hsplit])
      rw [mem_zipIdx_iff_getElem?.mp hitem] at hspan
      obtain rfl := Option.some.inj hspan
      exact fitForm_of_head rfl

/-- A list with a comment right between two parts, a comment that ends with its line, and an open
parenthesis at the end. -/
def mixedList : Text :=
  utf8 ") --a/* c */var(--b)// d\n x(1 / 2"

/-- Replacements for a name and for a reference, each of the other form, and for a part that the
list does not have. -/
def swaps : List (Nat × Text) :=
  [(0, utf8 "var(--new)"), (1, utf8 "--long-2"), (7, utf8 "--none")]

/-- The mixed list has the parts that were fitted in, and the last one as before. -/
theorem rebuild_parts_mixedList :
    (∀ pair ∈ swaps, IsMention pair.2) ∧
      (codeParts .scss (rebuild .scss mixedList swaps)).map
          (fun span => span.slice (rebuild .scss mixedList swaps)) =
        [utf8 "--new", utf8 "var(--long-2)", utf8 "x(1 / 2"] ∧
      gaps (rebuild .scss mixedList swaps) 0 (codeParts .scss (rebuild .scss mixedList swaps)) =
        [utf8 ") ", utf8 "/* c */", utf8 "// d\n ", []] := by
  have hmentions : ∀ pair ∈ swaps, IsMention pair.2 := by
    refine List.forall_mem_cons.mpr ⟨⟨utf8 "--new", by decide, .inr rfl⟩,
      List.forall_mem_cons.mpr ⟨⟨utf8 "--long-2", by decide, .inl rfl⟩,
        List.forall_mem_singleton.mpr ⟨utf8 "--none", by decide, .inl rfl⟩⟩⟩
  obtain ⟨-, hparts, hgaps⟩ := (rebuild_parts .scss mixedList swaps).1 (by decide)
    (by decide +kernel) hmentions
  refine ⟨hmentions, ?_, ?_⟩
  · rw [hparts]
    decide
  · rw [hgaps]
    decide

end Value

end Restyle
