import Restyle.Proofs.Declaration.Literals
import Restyle.Proofs.Rule.StyleObjects

/-!
# Selectors

In plain CSS the selector of a block is read backwards from the block to a semicolon or a brace
(`Stylesheet.selector_eq`). Behind a declared value there always is one, before the next block
opens: `Stylesheet.stop_of_declared`. So no selector reaches into a declared value, and the
selectors of a stylesheet are the same whichever word stands in one: `Stylesheet.selector_word`.

In general a selector is read backwards over interpolations that have no brace inside. This fixes
where it begins (`Stylesheet.SelectorBegins.unique`), and the reader finds that place
(`Stylesheet.selectorBegins_selectorStart`). Blocks are read forwards, past literals and all closed
interpolations. `Stylesheet.container_eq_iff` says for which rules both readers agree on the
selector.
-/

namespace Restyle.Stylesheet

open Byte Declaration Dialect List

open Dialect (veilWord)
open Token (IsWord)

/-- Whether a selector begins behind the byte. -/
def isStop (byte : UInt8) : Bool :=
  byte == semicolon || isBrace byte

variable {dialect : Dialect} {declaration : Declaration} {block other : Block}

/-- Without interpolations, a selector is as long as the text to the last stop. -/
theorem selectorLength_eq (hdialect : dialect ≠ .scss) (backwards : Text) :
    selectorLength dialect 0 backwards =
      (backwards.takeWhile fun byte => !isStop byte).length := by
  induction backwards with
  | nil => rfl
  | cons byte rest ih =>
    have hplain : (dialect == scss && byte == closeBrace) = false := by
      simp [hdialect]
    rw [selectorLength, hplain, ← isStop, takeWhile_cons]
    by_cases hstop : isStop byte
    · rw [hstop]
      rfl
    · have hgoes : isStop byte = false := Bool.eq_false_iff.mpr hstop
      rw [hgoes, ih]
      rfl

/-- Without interpolations, a selector is what stands behind the last stop before its block. -/
theorem selector_eq (hdialect : dialect ≠ .scss) (text : Text) (opening : Nat) :
    selector dialect text opening =
      Text.squeeze ((text.take opening).reverse.takeWhile fun byte => !isStop byte).reverse := by
  rw [selector, selectorLength_eq hdialect]
  generalize text.take opening = passed
  have hsplit := congrArg reverse
    (@List.takeWhile_append_dropWhile _ (fun byte => !isStop byte) passed.reverse)
  rw [reverse_append, reverse_reverse] at hsplit
  congr 1
  generalize passed.reverse.takeWhile (fun byte => !isStop byte) = last at hsplit ⊢
  rw [← hsplit, length_append, length_reverse, length_reverse, Nat.add_sub_cancel]
  exact drop_left' (length_reverse ..)

/-- A selector reaches back to a stop before its block at most. -/
theorem selector_behind (hdialect : dialect ≠ .scss) {text : Text} {opening : Nat}
    {front between : Text} {stop : UInt8} (hstop : isStop stop)
    (h : text.take opening = front ++ stop :: between) :
    selector dialect text opening =
      Text.squeeze (between.reverse.takeWhile fun byte => !isStop byte).reverse := by
  rw [selector_eq hdialect, h, reverse_append, reverse_cons, append_assoc]
  congr 2
  induction between.reverse with
  | nil => simp [hstop]
  | cons byte rest ih =>
    rw [cons_append, takeWhile_cons, takeWhile_cons, ih]

/-- A selector with a stop before it does not depend on what stands in front of the stop. -/
theorem selector_of_stop (hdialect : dialect ≠ .scss) {rest : Text} {index distance : Nat}
    {stop : UInt8} (hindex : rest[index]? = some stop) (hstop : isStop stop)
    (hlt : index < distance) (front front' : Text) :
    selector dialect (front ++ rest) (front.length + distance) =
      selector dialect (front' ++ rest) (front'.length + distance) := by
  obtain ⟨between, hbetween⟩ : ∃ between,
      rest.take distance = rest.take index ++ stop :: between := by
    have hcut := take_append_drop index (rest.take distance)
    rw [take_take, Nat.min_eq_left (Nat.le_of_lt hlt), drop_take, drop_eq_getElem?_toList_append,
      hindex, Option.toList_some, singleton_append, take_cons (Nat.sub_pos_of_lt hlt)] at hcut
    exact ⟨_, hcut.symm⟩
  have htake : ∀ front : Text, (front ++ rest).take (front.length + distance) =
      (front ++ rest.take index) ++ stop :: between := by
    intro front
    rw [take_length_add_append, hbetween, append_assoc]
  rw [selector_behind hdialect hstop (htake front), selector_behind hdialect hstop (htake front')]

/-- Behind a place in a declared value there is a stop before the next block opens. -/
theorem stop_of_declared {stripped : Text} (hblock : block ∈ Block.scan .css stripped)
    (h : declaration ∈ scan .css stripped block.interior) {place : Nat}
    (hplace : declaration.value.start ≤ place ∧ place < declaration.value.stop)
    (hother : other ∈ Block.scan .css stripped) (hlt : place < other.opening) :
    ∃ index byte, place < index ∧ index < other.opening ∧ stripped[index]? = some byte ∧
      isStop byte := by
  obtain ⟨entry, hread, hbound, -, ⟨byte, hbyte, hends⟩, hentry⟩ :=
    exists_entry_of_mem_scan hblock h
  obtain ⟨hstart, -, hstop⟩ := readIn_bounds hbound hread
  have hmatched := Block.matched_of_mem_scan hother
  have hafter : place < entry.stop := Nat.lt_of_lt_of_le hplace.2 hstop
  have hfrom : entry.start ≤ other.opening := by omega
  have hfloor := hentry.floor_le
  -- No block opens inside an entry, since that would raise the level there.
  have hle : entry.stop ≤ other.opening := by
    by_contra hinside
    have hlevel := Block.levelAt_succ (Nat.le_trans hfloor hfrom) hmatched.opens
    rw [hentry.level_zero _ hfrom (by omega), hentry.level_zero _ (by omega) (by omega)] at hlevel
    cases hlevel
  have hbrace := hmatched.braces.1
  have hne : entry.stop ≠ other.opening := by
    intro heq
    rw [heq, hbrace] at hbyte
    cases hbyte
    cases hends
  refine ⟨entry.stop, byte, hafter, Nat.lt_of_le_of_ne hle hne, hbyte, ?_⟩
  simp only [endsEntry, isSeparator, Bool.or_eq_true, Bool.and_eq_true, beq_iff_eq] at hends
  rcases hends with rfl | rfl | ⟨hscript, -⟩
  · rfl
  · rfl
  · cases hscript

/-- The selector of a block does not depend on a word in a declared value. -/
theorem selector_word {hidden : Bool} {left right : Text} {block other : Block}
    {declaration : Declaration}
    (hblock : block ∈ Block.scan .css (left ++ veilWord hidden [hyphen] ++ right))
    (h : declaration ∈ scan .css (left ++ veilWord hidden [hyphen] ++ right)
      block.interior)
    (hplace : declaration.value.start ≤ left.length ∧ left.length < declaration.value.stop)
    (hother : other ∈ Block.scan .css (left ++ veilWord hidden [hyphen] ++ right))
    {word : Text} (hword : IsWord word) :
    selector .css (left ++ veilWord hidden word ++ right)
        (other.stretch left.length word.length).opening =
      selector .css (left ++ veilWord hidden [hyphen] ++ right) other.opening := by
  by_cases hbefore : other.opening ≤ left.length
  · have htake : ∀ middle : Text, (left ++ middle ++ right).take other.opening =
        left.take other.opening := by
      intro middle
      rw [append_assoc, take_append_of_le_length hbefore]
    rw [selector, selector, Block.stretch, stretch_of_le hbefore, htake, htake]
  · obtain ⟨index, byte, hindex, hopening, hbyte, hstop⟩ :=
      stop_of_declared hblock h hplace hother (Nat.lt_of_not_le hbefore)
    have hone : (left ++ veilWord hidden [hyphen]).length = left.length + 1 := by
      rw [length_append, length_veilWord]
      rfl
    have hlength : (left ++ veilWord hidden word).length = left.length + word.length := by
      rw [length_append, length_veilWord]
    -- The stop stands behind the word, and so does all of the selector.
    rw [getElem?_append_right (by omega), hone] at hbyte
    have hsame := selector_of_stop (by decide : css ≠ .scss) hbyte hstop
      (show index - (left.length + 1) < other.opening - (left.length + 1) by omega)
      (left ++ veilWord hidden word) (left ++ veilWord hidden [hyphen])
    have hplaced : left.length + 1 + (other.opening - (left.length + 1)) = other.opening := by
      omega
    have hmoved : left.length + word.length + (other.opening - (left.length + 1)) =
        (other.stretch left.length word.length).opening := by
      have hpos := length_pos_iff.mpr hword.ne_nil
      show _ = stretch left.length word.length other.opening
      rw [stretch_of_lt (Nat.lt_of_not_le hbefore)]
      omega
    rwa [hone, hlength, hplaced, hmoved] at hsame

end Restyle.Stylesheet

namespace Restyle

open Byte List

/-! ## Blanks -/

/-- The words of a list of characters hold what is no blank. -/
theorem flatten_wordsOf (chars : List Char) :
    (wordsOf chars).flatten = chars.filter fun char => !isBlank char := by
  fun_induction wordsOf chars with
  | case1 => rfl
  | case2 char rest hblank ih => simp [hblank, ih]
  | case3 char hsolid => simp [hsolid]
  | case4 char next rest hsolid hblank ih | case5 char next rest hsolid hnext hwords ih
  | case6 char next rest hsolid hnext word others hwords ih => simp_all

/-- Spaces between words add nothing but blanks. -/
theorem filter_intercalate (words : List (List Char)) :
    (intercalate [' '] words).filter (fun char => !isBlank char) =
      words.flatten.filter fun char => !isBlank char := by
  have hspace : isBlank ' ' := by decide
  induction words with
  | nil => rfl
  | cons word others ih =>
    cases others with
    | nil => simp [intercalate]
    | cons next others => simp_all [intercalate]

namespace Text

/-- Texts that are the same up to blanks have the same characters that are none. -/
theorem filter_of_squeeze_eq {left right : Text} (h : squeeze left = squeeze right) :
    (chars left).filter (fun char => !isBlank char) =
      (chars right).filter fun char => !isBlank char := by
  have hsolid : ∀ text, (chars (squeeze text)).filter (fun char => !isBlank char) =
      (chars text).filter fun char => !isBlank char := by
    intro text
    rw [squeeze, chars_ofChars_self]
    simp [filter_intercalate, flatten_wordsOf]
  rw [← hsolid left, h, hsolid]

end Text

namespace Stylesheet

/-! ## Interpolations -/

/-- A hash with a brace behind it and the next brace, which closes it. -/
structure IsInterpolation (text : Text) (first last : Nat) : Prop where
  hash : text[first]? = some hash
  opens : text[first + 1]? = some openBrace
  order : first + 1 < last
  plain : ∀ index byte, first + 1 < index → index < last → text[index]? = some byte →
    isBrace byte = false
  closes : text[last]? = some closeBrace

namespace IsInterpolation

variable {text : Text} {first last index : Nat}

/-- Nothing in an interpolation closes but its end. -/
theorem eq_last (h : IsInterpolation text first last) (hfirst : first ≤ index)
    (hlast : index ≤ last) (hbrace : text[index]? = some closeBrace) : index = last := by
  rcases Nat.lt_or_ge (first + 1) index with hinside | hbefore
  · rcases Nat.lt_or_eq_of_le hlast with hlt | heq
    · cases h.plain index _ hinside hlt hbrace
    · exact heq
  · rcases (by omega : index = first ∨ index = first + 1) with rfl | rfl
    · cases h.hash.symm.trans hbrace
    · cases h.opens.symm.trans hbrace

/-- No interpolation begins in another. -/
theorem first_le (h : IsInterpolation text first last) {other : Nat}
    (hother : IsInterpolation text other last) : other ≤ first := by
  rcases Nat.lt_or_ge .. with hlt | hle
  · cases h.plain (other + 1) _ (Nat.succ_lt_succ hlt) hother.order hother.opens
  · exact hle

end IsInterpolation

/-- Read backwards, an interpolation is found by its first brace. -/
theorem interpolationBack?_eq_some {backwards : Text} {length : Nat}
    (h : interpolationBack? backwards = some length) :
    ∃ inner more, backwards = inner ++ openBrace :: hash :: more ∧
      (∀ byte ∈ inner, isBrace byte = false) ∧ length = inner.length + 2 := by
  have hcut := take_append_drop (backwards.takeWhile fun byte => !isBrace byte).length backwards
  rw [← prefix_iff_eq_take.mp (List.takeWhile_prefix _)] at hcut
  have hinner : ∀ byte ∈ backwards.takeWhile fun byte => !isBrace byte, isBrace byte = false :=
    fun byte hbyte => by simpa using all_eq_true.mp all_takeWhile byte hbyte
  simp only [interpolationBack?] at h
  split at h
  next brace hash more hdrop =>
    split at h
    next hopens =>
      simp only [Bool.and_eq_true, beq_iff_eq] at hopens
      obtain ⟨rfl, rfl⟩ := hopens
      exact ⟨_, more, by rw [← hdrop, hcut], hinner, (Option.some.inj h).symm⟩
    · cases h
  · cases h

theorem interpolationBack?_append {inner : Text} (h : ∀ byte ∈ inner, isBrace byte = false)
    (more : Text) :
    interpolationBack? (inner ++ openBrace :: hash :: more) = some (inner.length + 2) := by
  have htake : (inner ++ openBrace :: hash :: more).takeWhile
      (fun byte => !isBrace byte) = inner := by
    rw [takeWhile_append_of_pos (by simpa using h), takeWhile_cons_of_neg (by decide), append_nil]
  simp only [interpolationBack?, htake, drop_left]
  rfl

variable {dialect : Dialect} {text : Text} {opening start last : Nat}

/-- The interpolation that a brace closes is found from the brace. -/
theorem isInterpolation_of_back {length : Nat} (hcloses : text[last]? = some closeBrace)
    (h : interpolationBack? (text.take last).reverse = some length) :
    length ≤ last ∧ IsInterpolation text (last - length) last := by
  obtain ⟨inner, more, hback, hplain, rfl⟩ := interpolationBack?_eq_some h
  have htake : text.take last = more.reverse ++ hash :: openBrace :: inner.reverse := by
    rw [← reverse_reverse (text.take last), hback]
    simp
  have hlength : last = more.length + (inner.length + 2) := by
    have hlast := (List.getElem?_eq_some_iff.mp hcloses).1
    have := congrArg length htake
    simp only [length_take, length_append, length_cons, length_reverse] at this
    omega
  have hindex : ∀ index, index < last → text[index]? =
      (more.reverse ++ hash :: openBrace :: inner.reverse)[index]? := by
    intro index hlt
    rw [← htake, getElem?_take_of_lt hlt]
  rw [hlength, Nat.add_sub_cancel]
  refine ⟨Nat.le_add_left .., ?_, ?_, by omega, ?_, hlength ▸ hcloses⟩
  · rw [hindex _ (by omega)]
    simp
  · rw [hindex _ (by omega)]
    simp
  · intro index byte hfirst hlast hbyte
    rw [hindex _ (by omega), getElem?_append_right (by simp; omega)] at hbyte
    obtain ⟨offset, hoffset⟩ := Nat.exists_eq_add_of_lt hfirst
    have hplace : index - more.reverse.length = offset + 1 + 1 := by
      rw [length_reverse]
      omega
    rw [hplace, getElem?_cons_succ, getElem?_cons_succ] at hbyte
    exact hplain byte (mem_reverse.mp (mem_of_getElem? hbyte))

theorem IsInterpolation.back {first : Nat} (h : IsInterpolation text first last) :
    ∃ length, interpolationBack? (text.take last).reverse = some length := by
  have hcut : text.take last = text.take first ++
      Byte.hash :: openBrace :: (text.take last).drop (first + 2) := by
    have horder := h.order
    have hcut := take_append_drop first (text.take last)
    rw [take_take, Nat.min_eq_left (by omega), drop_eq_getElem?_toList_append,
      getElem?_take_of_lt (by omega), h.hash, drop_eq_getElem?_toList_append,
      getElem?_take_of_lt horder, h.opens] at hcut
    exact hcut.symm
  have hplain : ∀ byte ∈ ((text.take last).drop (first + 2)).reverse, isBrace byte = false := by
    intro byte hbyte
    obtain ⟨index, hindex⟩ := getElem?_of_mem (mem_reverse.mp hbyte)
    rw [getElem?_drop, getElem?_take] at hindex
    split at hindex
    next hlt => exact h.plain _ byte (by omega) hlt hindex
    · cases hindex
  rw [hcut, reverse_append, reverse_cons, reverse_cons, append_assoc, append_assoc]
  exact ⟨_, interpolationBack?_append hplain _⟩

/-! ## The start of a selector -/

/-- A selector that ends where its block opens begins at an offset: each semicolon and brace in it
stands in an interpolation, and the one before it does not close an interpolation. -/
structure SelectorBegins (dialect : Dialect) (text : Text) (opening start : Nat) : Prop where
  le : start ≤ opening
  inside : ∀ index byte, start ≤ index → index < opening → text[index]? = some byte →
    isStop byte → dialect = .scss ∧ ∃ first last, start ≤ first ∧ first ≤ index ∧
      index ≤ last ∧ last < opening ∧ IsInterpolation text first last
  behind : ∀ index, start = index + 1 → ∃ byte, text[index]? = some byte ∧ isStop byte ∧
    (dialect = .scss → ∀ first, ¬ IsInterpolation text first index)

/-- A selector begins at one place at most. -/
theorem SelectorBegins.le_of {start' : Nat} (h : SelectorBegins dialect text opening start)
    (h' : SelectorBegins dialect text opening start') : start' ≤ start := by
  cases start' with
  | zero => exact Nat.zero_le _
  | succ index =>
    by_contra hlt
    obtain ⟨byte, hbyte, hstop, hnone⟩ := h'.behind index rfl
    have hopening := h'.le
    obtain ⟨hscss, first, last, hstart, hfirst, hlast, hbefore, hflat⟩ :=
      h.inside index byte (by omega) (by omega) hbyte hstop
    have hne : index ≠ last := fun heq => hnone hscss first (heq ▸ hflat)
    -- The brace that closes the interpolation lies behind the later start.
    obtain ⟨-, first', last', hstart', hfirst', hlast', -, hflat'⟩ :=
      h'.inside last closeBrace (by omega) hbefore hflat.closes (by decide)
    obtain rfl := hflat'.eq_last hfirst' hlast' hflat.closes
    have hle := hflat.first_le hflat'
    omega

theorem SelectorBegins.unique {start' : Nat} (h : SelectorBegins dialect text opening start)
    (h' : SelectorBegins dialect text opening start') : start = start' :=
  Nat.le_antisymm (h'.le_of h) (h.le_of h')

/-! One byte or one interpolation more, read backwards. -/

/-- Behind a stop that closes no interpolation a selector begins. -/
theorem selectorBegins_stop {byte : UInt8} (hbyte : text[opening]? = some byte)
    (hstop : isStop byte)
    (hnone : dialect = .scss → ∀ first, ¬ IsInterpolation text first opening) :
    SelectorBegins dialect text (opening + 1) (opening + 1) where
  le := Nat.le_refl _
  inside := fun index _ hstart hopening => absurd hstart (Nat.not_le_of_gt hopening)
  behind := by
    intro index hindex
    obtain rfl := Nat.succ.inj hindex
    exact ⟨byte, hbyte, hstop, hnone⟩

/-- A byte that is no stop belongs to the selector. -/
theorem SelectorBegins.byte {byte : UInt8} (h : SelectorBegins dialect text opening start)
    (hbyte : text[opening]? = some byte) (hstop : isStop byte = false) :
    SelectorBegins dialect text (opening + 1) start where
  le := Nat.le_succ_of_le h.le
  inside := by
    intro index other hstart hopening hother hstops
    rcases Nat.lt_succ_iff_lt_or_eq.mp hopening with hlt | rfl
    · obtain ⟨hscss, first, last, hfirst, hbefore, hlast, hle, hflat⟩ :=
        h.inside index other hstart hlt hother hstops
      exact ⟨hscss, first, last, hfirst, hbefore, hlast, Nat.lt_succ_of_lt hle, hflat⟩
    · rw [hbyte, Option.some.injEq] at hother
      rw [← hother, hstop] at hstops
      cases hstops
  behind := h.behind

/-- An interpolation belongs to the selector. -/
theorem SelectorBegins.interpolation (h : SelectorBegins .scss text opening start)
    (hflat : IsInterpolation text opening last) : SelectorBegins .scss text (last + 1) start where
  le := by
    have := h.le
    have := hflat.order
    omega
  inside := by
    intro index other hstart hlast hother hstops
    have horder := hflat.order
    rcases Nat.lt_or_ge .. with hlt | hge
    · obtain ⟨hscss, first, last', hfirst, hbefore, hlast', hle, hflat'⟩ :=
        h.inside index other hstart hlt hother hstops
      exact ⟨hscss, first, last', hfirst, hbefore, hlast', by omega, hflat'⟩
    · exact ⟨rfl, opening, last, h.le, hge, Nat.le_of_lt_succ hlast, Nat.lt_succ_self _, hflat⟩
  behind := h.behind

theorem selectorLength_skip {skip : Nat} {backwards : Text} (h : skip ≤ backwards.length) :
    selectorLength dialect skip backwards =
      skip + selectorLength dialect 0 (backwards.drop skip) := by
  induction skip generalizing backwards with
  | zero => exact (Nat.zero_add _).symm
  | succ skip ih =>
    cases backwards with
    | nil => cases h
    | cons byte rest =>
      rw [selectorLength, ih (Nat.le_of_succ_le_succ h), drop_succ_cons]
      omega

/-- Where the selector begins that is read backwards from an offset. -/
def selectorStart (dialect : Dialect) (text : Text) (opening : Nat) : Nat :=
  opening - selectorLength dialect 0 (text.take opening).reverse

theorem selector_eq_slice (h : opening ≤ text.length) :
    selector dialect text opening =
      Text.squeeze ((⟨selectorStart dialect text opening, opening⟩ : Span).slice text) := by
  rw [selector, selectorStart, length_take, Nat.min_eq_left h, drop_take]
  rfl

/-- A selector read backwards begins where a selector does. -/
theorem selectorBegins_selectorStart (dialect : Dialect) (h : opening ≤ text.length) :
    SelectorBegins dialect text opening (selectorStart dialect text opening) := by
  induction opening using Nat.strongRecOn with
  | _ opening ih =>
    cases opening with
    | zero =>
      have hzero : selectorStart dialect text 0 = 0 := rfl
      rw [hzero]
      exact ⟨Nat.le_refl _, fun _ _ _ hlt => absurd hlt (Nat.not_lt_zero _), nofun⟩
    | succ last =>
      have hbyte : text[last]? = some text[last] := getElem?_eq_getElem h
      have hback : (text.take (last + 1)).reverse = text[last] :: (text.take last).reverse := by
        rw [take_add_one, hbyte, reverse_append]
        rfl
      rw [selectorStart, hback, selectorLength]
      split
      next hbrace =>
        simp only [Bool.and_eq_true, beq_iff_eq] at hbrace
        obtain ⟨rfl, hbrace⟩ := hbrace
        rw [hbrace] at hbyte
        split
        next length hlength =>
          obtain ⟨hle, hflat⟩ := isInterpolation_of_back hbyte hlength
          have hrest : ((text.take last).reverse).drop length =
              (text.take (last - length)).reverse := by
            rw [drop_reverse, take_take, length_take,
              Nat.min_eq_left (Nat.le_of_succ_le h), Nat.min_eq_left (Nat.sub_le ..)]
          have hskip : length ≤ (text.take last).reverse.length := by
            rw [length_reverse, length_take]
            omega
          rw [selectorLength_skip hskip, hrest, Nat.add_sub_add_right, Nat.sub_add_eq]
          exact (ih (last - length) (by omega) (by omega)).interpolation hflat
        next hnone =>
          refine selectorBegins_stop hbyte rfl fun _ first hflat => ?_
          obtain ⟨length, hlength⟩ := hflat.back
          rw [hnone] at hlength
          cases hlength
      next hplain =>
        split
        next hstop =>
          refine selectorBegins_stop hbyte hstop fun hscss first hflat => hplain ?_
          simp [hscss, Option.some.inj (hbyte.symm.trans hflat.closes)]
        next hgoes =>
          rw [Nat.add_sub_add_right]
          exact (ih last (Nat.lt_succ_self _) (Nat.le_of_succ_le h)).byte hbyte
            (Bool.eq_false_iff.mpr hgoes)

/-! ## Both readers -/

/-- The offset behind the last stop that can be seen before an offset, or that of the text. -/
def lexicalStart (marks : List (UInt8 × Bool)) : Nat → Nat
  | 0 => 0
  | index + 1 =>
    if marks[index]?.any fun (byte, seen) => seen && isStop byte then index + 1
    else lexicalStart marks index

theorem lexicalStart_le (marks : List (UInt8 × Bool)) (opening : Nat) :
    lexicalStart marks opening ≤ opening := by
  fun_induction lexicalStart marks opening with
  | case1 | case2 => exact Nat.le_refl _
  | case3 index _ ih => exact Nat.le_succ_of_le ih

theorem stop_of_lexicalStart {index : Nat}
    (h : lexicalStart (dialect.visible text) opening = index + 1) :
    ∃ byte, text[index]? = some byte ∧ isStop byte := by
  fun_induction lexicalStart (dialect.visible text) opening with
  | case1 => cases h
  | case2 last hstop =>
    obtain rfl := Nat.succ.inj h
    have hbytes : (dialect.visible text).map Prod.fst = text := Sight.map_fst_visible ..
    rw [← hbytes, getElem?_map]
    cases hmark : (dialect.visible text)[last]? with
    | none =>
      rw [hmark] at hstop
      cases hstop
    | some mark =>
      rw [hmark, Option.any_some, Bool.and_eq_true] at hstop
      exact ⟨mark.1, rfl, hstop.2⟩
  | case3 last _ ih => exact ih h

/-- Two starts of one selector with a stop between them give different texts. -/
theorem squeeze_slice_ne {index : Nat} {byte : UInt8} (hstart : start ≤ index)
    (hopening : index < opening) (hbyte : text[index]? = some byte) (hstop : isStop byte) :
    Text.squeeze ((⟨start, opening⟩ : Span).slice text) ≠
      Text.squeeze ((⟨index + 1, opening⟩ : Span).slice text) := by
  have hcut : (⟨start, opening⟩ : Span).slice text = (⟨start, index⟩ : Span).slice text ++
      byte :: (⟨index + 1, opening⟩ : Span).slice text := by
    have hrest : text.drop index = byte :: text.drop (index + 1) := by
      rw [drop_eq_getElem?_toList_append, hbyte]
      rfl
    rw [← Text.slice_append_slice hstart (Nat.le_of_lt hopening)]
    simp only [Span.slice]
    rw [hrest, take_cons (Nat.sub_pos_of_lt hopening), Nat.sub_sub]
  have hsolid : byte < 0x80 ∧ isBlank (Char.ofNat byte.toNat) = false := by
    simp only [isStop, isBrace, Bool.or_eq_true, beq_iff_eq] at hstop
    rcases hstop with rfl | rfl | rfl <;> decide
  intro heq
  have hlength := congrArg length (Text.filter_of_squeeze_eq heq)
  rw [hcut, Text.chars_around_ascii hsolid.1, filter_append, length_append,
    filter_cons_of_pos (by rw [hsolid.2]; rfl), length_cons] at hlength
  omega

/-- Both readers find one selector if the start of the forward one is that of a selector. -/
theorem selector_eq_iff (h : opening ≤ text.length) :
    selector dialect text opening = Text.squeeze
        ((⟨lexicalStart (dialect.visible text) opening, opening⟩ : Span).slice text) ↔
      SelectorBegins dialect text opening (lexicalStart (dialect.visible text) opening) := by
  have hbegins := selectorBegins_selectorStart dialect h
  rw [selector_eq_slice h]
  constructor
  · intro heq
    -- A stop stands before the later of two starts.
    rcases Nat.lt_trichotomy (selectorStart dialect text opening)
        (lexicalStart (dialect.visible text) opening) with hlt | hsame | hlt
    · obtain ⟨index, hindex⟩ := Nat.exists_eq_add_of_lt hlt
      obtain ⟨byte, hbyte, hstop⟩ := stop_of_lexicalStart hindex
      have hle := lexicalStart_le (dialect.visible text) opening
      rw [hindex] at heq hle
      exact absurd heq (squeeze_slice_ne (Nat.le_add_right ..) hle hbyte hstop)
    · rwa [← hsame]
    · obtain ⟨index, hindex⟩ := Nat.exists_eq_add_of_lt hlt
      obtain ⟨byte, hbyte, hstop, -⟩ := hbegins.behind _ hindex
      have hle := hbegins.le
      rw [hindex] at heq hle
      exact absurd heq.symm (squeeze_slice_ne (Nat.le_add_right ..) hle hbyte hstop)
  · intro hlexical
    rw [hbegins.unique hlexical]

/-- The selector of a rule begins where a selector does. It is the text behind the last stop to be
seen before the block, if the stops in that text stand in interpolations without braces and the stop
before it does not end such an interpolation, and only then. -/
theorem container_eq_iff {rule : Rule} (h : rule ∈ rules dialect text) :
    ∃ block ∈ Block.scan dialect (dialect.stripComments text),
      rule.place = Place.ofSpan text block.span ∧
      (∃ start, SelectorBegins dialect (dialect.stripComments text) block.opening start ∧
        rule.container = Text.squeeze
          ((⟨start, block.opening⟩ : Span).slice (dialect.stripComments text))) ∧
      (rule.container = Text.squeeze
          ((⟨lexicalStart (dialect.visible (dialect.stripComments text)) block.opening,
            block.opening⟩ : Span).slice (dialect.stripComments text)) ↔
        SelectorBegins dialect (dialect.stripComments text) block.opening
          (lexicalStart (dialect.visible (dialect.stripComments text)) block.opening)) := by
  obtain ⟨block, hblock, hrule⟩ := mem_filterMap.mp h
  have hbrace := (Block.matched_of_mem_scan hblock).braces.1
  have hopening : block.opening ≤ (dialect.stripComments text).length :=
    Nat.le_of_lt (List.getElem?_eq_some_iff.mp hbrace).1
  rw [ruleOf?] at hrule
  split at hrule
  · cases hrule
  · obtain rfl := Option.some.inj hrule
    exact ⟨block, hblock, rfl, ⟨_, selectorBegins_selectorStart dialect hopening,
      selector_eq_slice hopening⟩, selector_eq_iff hopening⟩

/-- A rule with an interpolation in its selector. -/
def interpolatedSheet : Text :=
  utf8 "a;.b-#\x7b$k\x7d \x7bc:d\x7d"

/-- The selector of the rule begins behind the semicolon. -/
theorem container_eq_iff_interpolated :
    ∃ rule ∈ rules .scss interpolatedSheet, rule.container = utf8 ".b-#\x7b$k\x7d" ∧
      SelectorBegins .scss (Dialect.scss.stripComments interpolatedSheet) 11 2 := by
  have hblocks : Block.scan .scss (Dialect.scss.stripComments interpolatedSheet) = [⟨11, 15⟩] :=
    Block.scan_of_closed _ rfl (by decide)
  obtain ⟨rule, hrules, hcontainer⟩ : ∃ rule, rules .scss interpolatedSheet = [rule] ∧
      rule.container = utf8 ".b-#\x7b$k\x7d" := by
    rw [rules, hblocks]
    exact ⟨_, rfl, by decide⟩
  have hrule : rule ∈ rules .scss interpolatedSheet := by
    rw [hrules]
    exact mem_singleton_self _
  obtain ⟨block, hblock, -, -, hiff⟩ := container_eq_iff hrule
  rw [hblocks, mem_singleton] at hblock
  subst hblock
  exact ⟨rule, hrule, hcontainer, hiff.mp (hcontainer.trans (by decide))⟩

/-- A rule with an interpolation in an interpolation of its selector. -/
def nestedSheet : Text :=
  utf8 ".a-#\x7bf(#\x7b$k\x7d)\x7d \x7b color: red \x7d"

/-- A rule with a semicolon in a literal of its selector. -/
def quotedSheet : Text :=
  utf8 "a[x=\";\"] \x7b color: red \x7d"

/-- Read backwards, a selector ends at an interpolation in an interpolation and in a literal. -/
theorem container_cuts_selector :
    (rules .scss nestedSheet).map Rule.container = [[]] ∧
      lexicalStart (Dialect.scss.visible (Dialect.scss.stripComments nestedSheet)) 15 = 0 ∧
      Text.squeeze ((⟨0, 15⟩ : Span).slice nestedSheet) = utf8 ".a-#\x7bf(#\x7b$k\x7d)\x7d" ∧
      (rules .css quotedSheet).map Rule.container = [utf8 "\"]"] ∧
      lexicalStart (Dialect.css.visible (Dialect.css.stripComments quotedSheet)) 9 = 0 ∧
      Text.squeeze ((⟨0, 9⟩ : Span).slice quotedSheet) = utf8 "a[x=\";\"]" := by
  rw [rules, rules, Block.scan_of_closed [⟨15, 28⟩] rfl (by decide),
    Block.scan_of_closed [⟨9, 22⟩] rfl (by decide)]
  decide

end Stylesheet

end Restyle
