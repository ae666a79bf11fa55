import Restyle.Proofs.Declaration.Placed
import Restyle.Proofs.Rule.Declared

/-!
# Style objects around a word

Which declarations of a program are style depends on their words, and so does which blocks are style
objects. What does not depend on the words of chosen values is where these values stand, with their
names, and what a declaration that is not chosen looks like (`StyleObject.View`): its value, and
whether its block is a template or may refer to a custom property. The reading of both is stable:
`StyleObject.outlines_stable`.
-/

namespace Restyle

open Byte Declaration Dialect List Span

open Dialect (veilWord)
open Token (IsWord)
open Declaration (Placed placed)

/-! ## Texts in a text -/

namespace Text

theorem includes_iff {needle text : Text} : includes needle text ↔ needle <:+: text := by
  induction text with
  | nil => rw [includes, List.isEmpty_iff, infix_nil]
  | cons byte rest ih =>
    rw [includes, Bool.or_eq_true, ih, isPrefixOf_iff_prefix, infix_cons_iff]

theorem isPrefixOf_append_cons {needle : Text} {byte : UInt8} (h : byte ∉ needle)
    (left rest : Text) : needle.isPrefixOf (left ++ byte :: rest) = needle.isPrefixOf left := by
  induction left generalizing needle with
  | nil =>
    cases needle with
    | nil => rfl
    | cons first needle =>
      have hne : (first == byte) = false := by
        rw [beq_eq_false_iff_ne]
        exact fun heq => h (heq ▸ mem_cons_self)
      rw [nil_append, isPrefixOf_cons_cons, hne]
      rfl
  | cons other left ih =>
    cases needle with
    | nil => rfl
    | cons first needle =>
      rw [cons_append, isPrefixOf_cons_cons, isPrefixOf_cons_cons,
        ih fun hmem => h (mem_cons_of_mem _ hmem)]

/-- A text without a byte of a word is found before the word or behind it. -/
theorem includes_around {needle word : Text} (hne : needle ≠ []) (hword : word ≠ [])
    (h : ∀ byte ∈ word, byte ∉ needle) (left right : Text) :
    includes needle (left ++ word ++ right) = (includes needle left || includes needle right) := by
  obtain ⟨head, tail, rfl⟩ := exists_cons_of_ne_nil hne
  induction left with
  | nil =>
    change includes (head :: tail) (word ++ right) = includes (head :: tail) right
    clear hword
    induction word with
    | nil => rfl
    | cons byte word ih =>
      obtain ⟨hbyte, hrest⟩ := forall_mem_cons.mp h
      have hstart : (head :: tail).isPrefixOf (byte :: (word ++ right)) = false :=
        isPrefixOf_append_cons hbyte [] (word ++ right)
      rw [cons_append, includes, hstart, Bool.false_or, ih hrest]
  | cons byte left ih =>
    obtain ⟨first, rest, rfl⟩ := exists_cons_of_ne_nil hword
    have hstart := isPrefixOf_append_cons (h first mem_cons_self) (byte :: left) (rest ++ right)
    rw [cons_append, cons_append, includes, includes, Bool.or_assoc, ih]
    rw [cons_append] at hstart
    rw [append_assoc, cons_append, hstart]

end Text

theorem isPlain_of_getElem_word {hidden : Bool} {left right : Text} {byte : UInt8}
    (h : (left ++ veilWord hidden [hyphen] ++ right)[left.length]? = some byte) :
    isPlain byte := by
  rw [append_assoc, getElem?_append_right (Nat.le_refl _), Nat.sub_self] at h
  cases hidden <;> (obtain rfl := Option.some.inj h; decide)

namespace StyleObject

/-! ## Values without their quotes -/

/-- Whether a value stands between quotes. -/
def isQuoted (raw : Text) : Bool :=
  2 ≤ raw.length && raw.head?.any isQuote && raw.getLast? == raw.head?

/-- The span of a value without its quotes. -/
def inner (stripped : Text) (value : Span) : Span :=
  if isQuoted (value.slice stripped) then ⟨value.start + 1, value.stop - 1⟩ else value

theorem readValue_snd (stripped : Text) (value : Span) :
    (readValue (value.slice stripped) value).2 = inner stripped value := by
  unfold readValue inner isQuoted
  split
  · rfl
  · split <;> rfl

variable {stripped word : Text} {value : Span}

theorem slice_of_readValue {raw : Text} (hstop : value.stop ≤ stripped.length)
    (h : (readValue (value.slice stripped) value).1 = .text raw) :
    raw = (inner stripped value).slice stripped := by
  unfold inner
  unfold readValue at h
  by_cases hquoted : isQuoted (value.slice stripped)
  · have hcondition := hquoted
    unfold isQuoted at hcondition
    rw [if_pos hcondition] at h
    obtain rfl := DeclaredValue.text.inj h
    rw [if_pos hquoted, dropLast_eq_take, length_drop, length_slice hstop]
    simp only [slice, drop_take, drop_drop, take_take]
    congr 1
    omega
  · have hcondition := hquoted
    unfold isQuoted at hcondition
    rw [if_neg hcondition] at h
    rw [if_neg hquoted]
    split at h
    · cases h
    · exact (DeclaredValue.text.inj h).symm

theorem inner_within (hlt : value.start < value.stop) (hstop : value.stop ≤ stripped.length) :
    (inner stripped value).Within value := by
  rw [← readValue_snd]
  exact Source.readValue_within (length_slice hstop) hlt

theorem quotes_of_isQuoted (hstop : value.stop ≤ stripped.length)
    (h : isQuoted (value.slice stripped)) :
    value.start + 2 ≤ value.stop ∧ ∃ quote, isQuote quote ∧
      stripped[value.start]? = some quote ∧ stripped[value.stop - 1]? = some quote := by
  unfold isQuoted at h
  simp only [Bool.and_eq_true, decide_eq_true_eq, beq_iff_eq] at h
  obtain ⟨⟨htwo, hhead⟩, hlast⟩ := h
  have hlength := length_slice hstop
  rw [hlength] at htwo
  obtain ⟨quote, hquote, hisQuote⟩ := (Option.any_eq_true _ _).mp hhead
  refine ⟨by omega, quote, hisQuote, ?_, ?_⟩
  · rw [← hquote, head?_eq_getElem?, slice, getElem?_take_of_lt (by omega),
      getElem?_drop, Nat.add_zero]
  · rw [← hquote, ← hlast, getLast?_eq_getElem?, hlength, slice,
      getElem?_take_of_lt (by omega), getElem?_drop]
    congr 1
    omega

theorem isQuote_of_isPlain {byte : UInt8} (h : isPlain byte) : isQuote byte = false := by
  simp only [isQuote, beq_of_isPlain h (by decide : isPlain doubleQuote = false),
    beq_of_isPlain h (by decide : isPlain apostrophe = false),
    beq_of_isPlain h (by decide : isPlain backtick = false), Bool.or_false]

/-- Whether a value stands between quotes does not depend on a word in it. -/
theorem isQuoted_around (hne : word ≠ []) (hword : ∀ byte ∈ word, isPlain byte)
    (left right : Text) :
    isQuoted (left ++ word ++ right) =
      (left.head?.any isQuote && right.getLast? == left.head?) := by
  obtain ⟨first, hfirst⟩ : ∃ first, word.head? = some first :=
    Option.isSome_iff_exists.mp (isSome_head?.mpr hne)
  obtain ⟨last, hlast⟩ : ∃ last, word.getLast? = some last :=
    Option.isSome_iff_exists.mp (getLast?_isSome.mpr hne)
  have hlength := length_pos_iff.mpr hne
  unfold isQuoted
  cases left with
  | nil =>
    have hplain := isQuote_of_isPlain (hword first (mem_of_head? hfirst))
    simp [head?_append, hfirst, hplain]
  | cons quote left =>
    have htwo : 2 ≤ (quote :: left ++ word ++ right).length := by
      simp only [length_append, length_cons]
      omega
    have hbegin : (quote :: left ++ word ++ right).head? = some quote := rfl
    have hend : (quote :: left ++ word ++ right).getLast? = (right.getLast?).or (some last) := by
      rw [getLast?_append, getLast?_append, hlast]
      rfl
    rw [decide_eq_true htwo, Bool.true_and, hbegin, hend, head?_cons]
    cases hquote : isQuote quote with
    | false => simp [hquote]
    | true =>
      cases hright : right.getLast? with
      | some final => rfl
      | none =>
        -- The word at the end is plain, so it does not end with the quote.
        have hplain := isQuote_of_isPlain (hword last (mem_of_getLast? hlast))
        have hdiffers : (last == quote) = false := by
          rw [beq_eq_false_iff_ne]
          rintro rfl
          rw [hplain] at hquote
          cases hquote
        simp [hdiffers]

/-- Whether a slice of a text stands between quotes does not depend on a word in the text. -/
theorem isQuoted_slice_word {hidden : Bool} {word : Text} (hword : IsWord word) (left right : Text)
    (span : Span) :
    isQuoted ((span.stretch left.length word.length).slice
        (left ++ veilWord hidden word ++ right)) =
      isQuoted (span.slice (left ++ veilWord hidden [hyphen] ++ right)) := by
  refine slice_word hword (fun left right => ?_) left right span
  rw [isQuoted_around (veilWord_ne_nil hword.ne_nil) (isPlain_of_mem_veilWord hword.identifier),
    isQuoted_around (veilWord_ne_nil Token.isWord_hyphen.ne_nil)
      (isPlain_of_mem_veilWord Token.isWord_hyphen.identifier)]

/-- A value without its quotes moves with the value. -/
theorem inner_word {hidden : Bool} (hword : IsWord word) {left right : Text}
    (hstop : value.stop ≤ (left ++ veilWord hidden [hyphen] ++ right).length) :
    inner (left ++ veilWord hidden word ++ right) (value.stretch left.length word.length) =
      (inner (left ++ veilWord hidden [hyphen] ++ right) value).stretch left.length
        word.length := by
  unfold inner
  rw [isQuoted_slice_word hword]
  split
  next hquoted =>
    obtain ⟨htwo, quote, hquote, hstart, hlast⟩ := quotes_of_isQuoted hstop hquoted
    -- The quotes are not plain, so the word stands for neither.
    have hdiffers : ∀ {place}, (left ++ veilWord hidden [hyphen] ++ right)[place]? =
        some quote → place ≠ left.length := by
      rintro place hplace rfl
      rw [isQuote_of_isPlain (isPlain_of_getElem_word hplace)] at hquote
      cases hquote
    have hend : stretch left.length word.length (value.stop - 1 + 1) =
        stretch left.length word.length (value.stop - 1) + 1 := stretch_succ (hdiffers hlast)
    rw [show value.stop - 1 + 1 = value.stop by omega] at hend
    simp only [Span.stretch, stretch_succ (hdiffers hstart), hend, Nat.add_sub_cancel]
  · rfl

/-! ## Blocks -/

/-- Whether what stands in a block is a template with code in it. -/
def isTemplate (inside : Text) : Bool :=
  inside.contains backtick && Text.includes (utf8 "$\x7b") inside

/-- Whether what stands in a block refers to a custom property. -/
def refers (inside : Text) : Bool :=
  Text.includes (utf8 "var(--") inside

/-- Whether the mark of a type stands in front of a block. -/
def isMarked (stripped : Text) (block : Block) : Bool :=
  typeMarks.any fun mark =>
    Text.includes mark (Text.windowBefore stripped block.opening typeWindow)

/-- A style object refers to a custom property, is no template and has no mark of a type in front
of it. -/
theorem isStyleBlock_eq (stripped : Text) (block : Block) :
    isStyleBlock stripped block =
      (refers (block.span.slice stripped) && !isTemplate (block.span.slice stripped)
        && !isMarked stripped block) :=
  rfl

/-- What stands in a block refers to a custom property if what stands in a block inside it does. -/
theorem refers_of_inside {block outer : Block} (h : block.Inside outer)
    (hrefers : refers (block.span.slice stripped) = true) :
    refers (outer.span.slice stripped) = true := by
  refine Text.includes_iff.mpr ((Text.includes_iff.mp hrefers).trans ?_)
  obtain ⟨hopening, hclosing⟩ := h
  have hslice : block.span.slice stripped =
      ((outer.span.slice stripped).drop (block.opening - outer.opening)).take
        (block.closing + 1 - block.opening) := by
    simp only [slice, Block.span, drop_take, drop_drop, take_take]
    congr 1
    · omega
    · congr 1
      omega
  rw [hslice]
  exact (List.take_prefix _ _).isInfix.trans (drop_suffix _ _).isInfix

/-- Whether a text is a template does not depend on a word in it. -/
theorem isTemplate_around (hne : word ≠ []) (hword : ∀ byte ∈ word, isPlain byte = true)
    (left right : Text) :
    isTemplate (left ++ word ++ right) =
      ((left.contains backtick || right.contains backtick) &&
        (Text.includes (utf8 "$\x7b") left || Text.includes (utf8 "$\x7b") right)) := by
  have hbacktick : word.contains backtick = false := by
    refine Bool.eq_false_iff.mpr fun hcontains => ?_
    have hplain := hword _ (contains_iff_mem.mp hcontains)
    exact absurd hplain (by decide)
  have hdollar : ∀ byte ∈ word, byte ∉ utf8 "$\x7b" := by
    intro byte hmem hneedle
    have hplain : ∀ byte ∈ utf8 "$\x7b", isPlain byte = false := by decide +kernel
    have hbyte := hword byte hmem
    rw [hplain byte hneedle] at hbyte
    cases hbyte
  rw [isTemplate, Text.includes_around (by decide) hne hdollar]
  simp only [contains_append, hbacktick, Bool.or_false]

end StyleObject

theorem Block.Matched.braces {dialect : Dialect} {text : Text} {block : Block}
    (h : Block.Matched (dialect.visible text) block) :
    text[block.opening]? = some openBrace ∧ text[block.closing]? = some closeBrace := by
  have hbytes : (dialect.visible text).map Prod.fst = text := Sight.map_fst_visible ..
  rw [← hbytes, getElem?_map, getElem?_map, h.opens, h.closes]
  exact ⟨rfl, rfl⟩

section Word

variable {dialect : Dialect} {hidden : Bool} {left right : Text} {block : Block}

theorem Block.Matched.braces_ne
    (h : Block.Matched (dialect.visible (left ++ veilWord hidden [hyphen] ++ right)) block) :
    block.opening ≠ left.length ∧ block.closing ≠ left.length := by
  obtain ⟨hopening, hclosing⟩ := h.braces
  refine ⟨fun heq => ?_, fun heq => ?_⟩
  · rw [heq] at hopening
    exact absurd (isPlain_of_getElem_word hopening) (by decide)
  · rw [heq] at hclosing
    exact absurd (isPlain_of_getElem_word hclosing) (by decide)

theorem Block.Matched.span_stretch
    (h : Block.Matched (dialect.visible (left ++ veilWord hidden [hyphen] ++ right)) block)
    (length : Nat) : (block.stretch left.length length).span =
      block.span.stretch left.length length :=
  congrArg (Span.mk _) (stretch_succ h.braces_ne.2).symm

end Word

namespace StyleObject

/-! ## Views -/

/-- The items at chosen places of a list. -/
def pick {α : Type} (chosen : Nat → Bool) (items : List α) : List α :=
  (items.zipIdx.filter fun item => chosen item.2).map Prod.fst

theorem mem_pick {α : Type} {chosen : Nat → Bool} {items : List α} {item : α} :
    item ∈ pick chosen items ↔ ∃ place, items[place]? = some item ∧ chosen place := by
  simp only [pick, mem_map, mem_filter, Prod.exists, mk_mem_zipIdx_iff_getElem?]
  constructor
  · rintro ⟨_, place, hmem, rfl⟩
    exact ⟨place, hmem⟩
  · rintro ⟨place, hmem⟩
    exact ⟨item, place, hmem, rfl⟩

theorem pick_map {α β : Type} (chosen : Nat → Bool) (change : α → β) (items : List α) :
    pick chosen (items.map change) = (pick chosen items).map change := by
  rw [pick, pick, zipIdx_map, filter_map, map_map, map_map]
  rfl

theorem pick_filter {α : Type} (keep : α → Bool) (items : List α) :
    pick (fun place => (items[place]?).any keep) items = items.filter keep := by
  have hfilter : (items.zipIdx.filter fun item => (items[item.2]?).any keep) =
      items.zipIdx.filter (keep ∘ Prod.fst) := by
    refine filter_congr fun item hmem => ?_
    rw [mk_mem_zipIdx_iff_getElem?.mp hmem]
    rfl
  rw [pick, hfilter, ← filter_map, zipIdx_map_fst]

/-- What is seen of a declaration, where the words of other values may change. -/
structure View where
  number : Nat
  name : Text
  raw : Text
  isTemplate : Bool
  mayRefer : Bool

/-- Whether a block may refer to a custom property, whichever words stand in the chosen values. -/
def mayRefer (stripped : Text) (chosen : List Placed) (block : Block) : Bool :=
  chosen.any (fun item => decide (item.block.Inside block)) || refers (block.span.slice stripped)

/-- The view of a declaration. -/
def view (stripped : Text) (chosen : List Placed) (item : Placed) : View where
  number := item.number
  name := item.declaration.name
  raw := item.value.slice stripped
  isTemplate := isTemplate (item.block.span.slice stripped)
  mayRefer := mayRefer stripped chosen item.block

/-- Where a declared value stands, its name and whether it is a list. -/
def outline (stripped : Text) (item : Placed) : Span × Text × Bool :=
  (inner stripped item.value, item.declaration.name,
    Value.isList item.declaration.name ((inner stripped item.value).slice stripped))

/-- The outlines of the chosen values of a program without comments, each with the view of the
declaration that is watched. -/
def outlinesIn (chosen : Nat → Bool) (watched : Nat) (stripped : Text) :
    List (Span × Option View × Text × Bool) :=
  let all := placed .script stripped
  (pick chosen all).map fun item =>
    ((outline stripped item).1, (all[watched]?).map (view stripped (pick chosen all)),
      (outline stripped item).2)

/-- The chosen values of a program in their order. -/
def outlines (chosen : Nat → Bool) (watched : Nat) (text : Text) :
    List (Span × Option View × Text × Bool) :=
  (outlinesIn chosen watched (script.stripComments text)).mergeSort fun left right =>
    left.1.start ≤ right.1.start

section Word

variable {hidden : Bool} {left right word : Text} {chosen : Nat → Bool}

/-- Whether a block may refer to a custom property does not depend on a word in a chosen value. -/
theorem mayRefer_word {origin : Placed} {block : Block}
    (horigin : origin ∈ placed .script (left ++ veilWord hidden [hyphen] ++ right))
    {items : List Placed} (hitem : origin ∈ items)
    (hplace : origin.value.start ≤ left.length ∧ left.length < origin.value.stop)
    (hblock : Block.Matched
      (script.visible (left ++ veilWord hidden [hyphen] ++ right)) block) (hword : IsWord word) :
    mayRefer (left ++ veilWord hidden word ++ right)
        (items.map (Placed.stretch left.length word.length))
        (block.stretch left.length word.length) =
      mayRefer (left ++ veilWord hidden [hyphen] ++ right) items block := by
  have hinside : (items.map (Placed.stretch left.length word.length)).any
      (fun item => decide (item.block.Inside (block.stretch left.length word.length))) =
        items.any fun item => decide (item.block.Inside block) := by
    rw [any_map]
    congr 1
    funext item
    refine decide_eq_decide.mpr ?_
    exact and_congr stretch_le_stretch stretch_le_stretch
  unfold mayRefer
  rw [hinside, hblock.span_stretch]
  cases hany : items.any fun item => decide (item.block.Inside block) with
  | true => rfl
  | false =>
    -- The block of the value is not inside, so the word stands apart from this block.
    have hapart : block.span.stop ≤ left.length ∨ left.length < block.span.start := by
      refine Classical.byContradiction fun haround => ?_
      obtain ⟨hopening, hclosing⟩ := hblock.braces_ne
      have hnested : origin.block.Inside block := by
        refine nested_of_place horigin hblock hplace ?_
        simp only [Block.span, not_or] at haround
        omega
      rw [any_eq_false] at hany
      exact hany origin hitem (decide_eq_true hnested)
    have hslice := @slice_apart _ left _ right block.span.start block.span.stop _
      (length_veilWord hidden [hyphen])
      (@Dialect.veilWord_ne_nil hidden _ hword.ne_nil) hapart
    rw [length_veilWord] at hslice
    simp only [slice, Span.stretch, hslice]

/-- The view of a declaration does not depend on a word in a chosen value of another one. -/
theorem view_word {origin item : Placed}
    (horigin : origin ∈ placed .script (left ++ veilWord hidden [hyphen] ++ right))
    (hitem : item ∈ placed .script (left ++ veilWord hidden [hyphen] ++ right))
    {items : List Placed} (hchosen : origin ∈ items)
    (hplace : origin.value.start ≤ left.length ∧ left.length < origin.value.stop)
    (hapart : origin.value.Apart item.value) (hword : IsWord word) :
    view (left ++ veilWord hidden word ++ right)
        (items.map (Placed.stretch left.length word.length))
        (item.stretch left.length word.length) =
      view (left ++ veilWord hidden [hyphen] ++ right) items item := by
  have hblock := (entry_of_placed hitem).1
  have hsides : item.value.stop ≤ left.length ∨ left.length < item.value.start := by
    rcases hapart with hbefore | hafter <;> omega
  have hraw := @slice_apart _ left _ right item.value.start item.value.stop _
    (length_veilWord hidden [hyphen])
    (@Dialect.veilWord_ne_nil hidden _ hword.ne_nil) hsides
  rw [length_veilWord] at hraw
  have htemplate : isTemplate ((item.block.stretch left.length word.length).span.slice
      (left ++ veilWord hidden word ++ right)) =
      isTemplate (item.block.span.slice (left ++ veilWord hidden [hyphen] ++ right)) := by
    rw [hblock.span_stretch]
    refine slice_word hword (fun left right => ?_) left right item.block.span
    rw [isTemplate_around (veilWord_ne_nil hword.ne_nil) (isPlain_of_mem_veilWord hword.identifier),
      isTemplate_around (veilWord_ne_nil Token.isWord_hyphen.ne_nil)
        (isPlain_of_mem_veilWord Token.isWord_hyphen.identifier)]
  have hrefer := mayRefer_word horigin hchosen hplace hblock hword
  unfold view
  simp only [Placed.stretch] at htemplate hrefer ⊢
  rw [htemplate, hrefer]
  refine congrArg₂ (fun name raw => View.mk _ name raw _ _) rfl ?_
  exact hraw

/-- If a word stands in a chosen value, the same outlines are read whichever word stands there, up
to the length of the word. -/
theorem outlinesIn_word {watched : Nat} (hwatched : chosen watched = false) (hword : IsWord word)
    (hplaced : ∃ item ∈ pick chosen (placed .script (left ++ veilWord hidden word ++ right)),
      item.value.start ≤ left.length ∧ left.length + word.length ≤ item.value.stop)
    {other : Text} (hother : IsWord other) :
    outlinesIn chosen watched (left ++ veilWord hidden other ++ right) =
      (outlinesIn chosen watched (left ++ veilWord hidden [hyphen] ++ right)).map fun item =>
        (item.1.stretch left.length other.length, item.2) := by
  obtain ⟨item, hitem, hbounds⟩ := hplaced
  have hall : ∀ {other}, IsWord other →
      placed .script (left ++ veilWord hidden other ++ right) =
        (placed .script (left ++ veilWord hidden [hyphen] ++ right)).map
          (Placed.stretch left.length other.length) := by
    intro other hother
    obtain ⟨place, hplace, -⟩ := mem_pick.mp hitem
    exact placed_word hword ⟨item, mem_of_getElem? hplace, hbounds⟩ hother
  -- The chosen value that the word stands in.
  rw [hall hword, pick_map] at hitem
  obtain ⟨origin, horigin, rfl⟩ := mem_map.mp hitem
  obtain ⟨place, hplace, hchosen⟩ := mem_pick.mp horigin
  have hmem := mem_of_getElem? hplace
  have haround : origin.value.start ≤ left.length ∧ left.length < origin.value.stop :=
    around_of_stretch (length_pos_iff.mpr hword.ne_nil) hbounds.1 hbounds.2
  have hview : ∀ seen, (placed .script
      (left ++ veilWord hidden [hyphen] ++ right))[watched]? = some seen →
      view (left ++ veilWord hidden other ++ right)
          ((pick chosen (placed .script (left ++ veilWord hidden [hyphen] ++ right))).map
            (Placed.stretch left.length other.length))
          (seen.stretch left.length other.length) =
        view (left ++ veilWord hidden [hyphen] ++ right)
          (pick chosen (placed .script (left ++ veilWord hidden [hyphen] ++ right))) seen := by
    intro seen hseen
    have hne : place ≠ watched := by
      rintro rfl
      rw [hchosen] at hwatched
      cases hwatched
    exact view_word hmem (mem_of_getElem? hseen) horigin haround
      (apart_of_ne hplace hseen hne) hother
  have hseen : ((placed .script (left ++ veilWord hidden [hyphen] ++ right)).map
      (Placed.stretch left.length other.length))[watched]?.map
        (view (left ++ veilWord hidden other ++ right)
          ((pick chosen (placed .script (left ++ veilWord hidden [hyphen] ++ right))).map
            (Placed.stretch left.length other.length))) =
      (placed .script (left ++ veilWord hidden [hyphen] ++ right))[watched]?.map
        (view (left ++ veilWord hidden [hyphen] ++ right)
          (pick chosen (placed .script (left ++ veilWord hidden [hyphen] ++ right)))) := by
    rw [getElem?_map, Option.map_map]
    exact Option.map_congr hview
  unfold outlinesIn
  simp only [hall hother, pick_map, map_map]
  refine map_congr_left fun item hitem => ?_
  obtain ⟨place, hplace, -⟩ := mem_pick.mp hitem
  have hinner := inner_word hother (value_le_of_placed (mem_of_getElem? hplace)).2
  have hlist := Value.isList_slice_word item.declaration.name hidden left right hother
    (inner (left ++ veilWord hidden [hyphen] ++ right) item.value)
  rw [← hinner] at hlist
  simp only [Function.comp_apply, hseen]
  refine Prod.ext hinner (Prod.ext rfl (Prod.ext rfl ?_))
  exact hlist

end Word

/-- The reading of chosen values is stable, together with the view of a declaration that is not
chosen. -/
theorem outlines_stable {chosen : Nat → Bool} {watched : Nat} (hwatched : chosen watched = false) :
    StableReading (outlines chosen watched) := by
  rintro left word right hword ⟨item, hitem, hbounds⟩
  obtain ⟨left', right', hidden, hleft, hstrip⟩ := script.stripComments_word
    left right (by decide : Token.isIdentifierByte hyphen)
  rw [outlines, mem_mergeSort, hstrip word hword.identifier hword.head] at hitem
  obtain ⟨origin, horigin, rfl⟩ := mem_map.mp hitem
  have hplaced : ∃ item ∈ pick chosen (placed .script (left' ++ veilWord hidden word ++ right')),
      item.value.start ≤ left'.length ∧ left'.length + word.length ≤ item.value.stop := by
    obtain ⟨place, hplace, -⟩ := mem_pick.mp horigin
    have hvalue := value_le_of_placed (mem_of_getElem? hplace)
    have hwithin := inner_within hvalue.1 hvalue.2
    rw [← hleft] at hbounds
    exact ⟨origin, horigin, Nat.le_trans hwithin.start_le hbounds.1,
      Nat.le_trans hbounds.2 hwithin.stop_le⟩
  refine ⟨(outlinesIn chosen watched (left' ++ veilWord hidden [hyphen] ++ right')).mergeSort
    fun left right => left.1.start ≤ right.1.start, fun other hother => ?_⟩
  rw [outlines, hstrip other hother.identifier hother.head,
    outlinesIn_word hwatched hword hplaced hother, ← hleft]
  refine (map_mergeSort fun first _ second _ => decide_eq_decide.mpr ?_).symm
  exact stretch_le_stretch.symm

/-! ## Style -/

/-- Whether a value of a name looks like style, and is no number. -/
def isStyle (name raw : Text) : Bool :=
  let value := (readValue raw ⟨0, 0⟩).1
  !isCode raw && (PropertyName.isStyle name || Value.looksLikeStyle value.display)
    && !value.isNumber

/-- Whether a declaration of a program without comments is style, and no number. -/
def isStyled (stripped : Text) (item : Placed) : Bool :=
  isStyleBlock stripped item.block && isStyle item.declaration.name (item.value.slice stripped)

theorem readValue_fst (raw : Text) (span other : Span) :
    (readValue raw span).1 = (readValue raw other).1 := by
  unfold readValue
  split
  · rfl
  · split <;> rfl

/-- What a declaration of a program without comments declares. -/
def declare? (stripped : Text) (item : Placed) : Option Declared :=
  Source.declare? .script stripped item.block item.declaration

/-- A declaration is style if a text is declared by it. -/
theorem isStyled_eq (stripped : Text) (item : Placed) :
    isStyled stripped item =
      (declare? stripped item).any fun declared => !declared.value.isNumber := by
  have hvalue := readValue_fst (item.value.slice stripped) ⟨0, 0⟩ item.declaration.value
  simp only [isStyled, isStyle, declare?, Source.declare?, hvalue]
  split
  next hdeclared =>
    simp only [Bool.and_eq_true] at hdeclared
    obtain ⟨⟨hblock, hcode⟩, hlooks⟩ := hdeclared
    simp only [Placed.value, hblock, hcode, hlooks, Bool.true_and, Option.any_some]
  next hdeclared =>
    rw [Option.any_none, Bool.eq_false_iff]
    intro hstyled
    refine hdeclared ?_
    simp only [Placed.value, Bool.and_eq_true] at hstyled ⊢
    exact ⟨⟨hstyled.1, hstyled.2.1.1⟩, hstyled.2.1.2⟩

/-- What a program declares is declared by its declarations, one by one. -/
theorem declared_eq (text : Text) :
    Source.declared .script text =
      (placed .script (script.stripComments text)).filterMap
        (declare? (script.stripComments text)) := by
  unfold Source.declared placed Source.declaredIn
  dsimp only
  rw [filterMap_flatMap]
  conv_lhs => rw [← zipIdx_map_fst 0 (Block.scan .script _), flatMap_map]
  refine flatMap_congr fun item _ => ?_
  rw [filterMap_map]
  rfl

/-- A block that had the mark of a type in front of it is a style object in another text. The blocks
of the two texts are told by their numbers. -/
def Unmarks (text data : Text) : Prop :=
  ∃ (number : Nat) (block block' : Block),
    (Block.scan .script (script.stripComments text))[number]? = some block ∧
    (Block.scan .script (script.stripComments data))[number]? = some block' ∧
    isMarked (script.stripComments text) block ∧
    isStyleBlock (script.stripComments data) block'

/-- A declaration that looks the same in two texts is style in the first if it is in the second,
where no block has lost the mark of a type and all that is chosen in the first is style. -/
theorem isStyled_of_view {text data : Text} (hmarks : ¬ Unmarks text data) {item item' : Placed}
    {chosen chosen' : List Placed} (hitem : item ∈ placed .script (script.stripComments text))
    (hitem' : item' ∈ placed .script (script.stripComments data))
    (hchosen : ∀ other ∈ chosen, isStyled (script.stripComments text) other)
    (hview : view (script.stripComments text) chosen item =
      view (script.stripComments data) chosen' item')
    (hstyled : isStyled (script.stripComments data) item') :
    isStyled (script.stripComments text) item := by
  simp only [view, View.mk.injEq] at hview
  obtain ⟨hnumber, hname, hraw, htemplate, hrefer⟩ := hview
  rw [isStyled, Bool.and_eq_true] at hstyled ⊢
  refine ⟨?_, by rw [hname, hraw]; exact hstyled.2⟩
  have hblock' := hstyled.1
  simp only [isStyleBlock_eq, Bool.and_eq_true] at hblock' ⊢
  refine ⟨⟨?_, by rw [htemplate]; exact hblock'.1.2⟩, ?_⟩
  · -- A chosen value inside the block would have a reference beside it.
    have hmay : mayRefer (script.stripComments text) chosen item.block := by
      rw [hrefer, mayRefer, hblock'.1.1, Bool.or_true]
    rw [mayRefer, Bool.or_eq_true, any_eq_true] at hmay
    rcases hmay with ⟨other, hother, hinside⟩ | hrefers
    · have hstyle := hchosen other hother
      simp only [isStyled, isStyleBlock_eq, Bool.and_eq_true] at hstyle
      exact refers_of_inside (of_decide_eq_true hinside) hstyle.1.1.1
    · exact hrefers
  · rw [Bool.not_eq_true']
    refine Bool.eq_false_iff.mpr fun hmarked => hmarks ?_
    obtain ⟨hscan, -⟩ := mem_placed.mp hitem
    obtain ⟨hscan', -⟩ := mem_placed.mp hitem'
    rw [← hnumber] at hscan'
    exact ⟨item.number, item.block, item'.block, hscan, hscan', hmarked, hstyled.1⟩

end StyleObject

end Restyle
