import Restyle.Proofs.Dialect.Encoding
import Restyle.Proofs.Value.Comments
import Restyle.Value.Cuts

/-!
# Where a replacement cuts a value

A token is looked for in the code of a value and the value is cut where the token begins and ends
there. Outside comments these places are boundaries of the value. Inside a comment the code is
blank, so a cut stands inside a character only if the token has a space on that side:
`Value.replaceToken?` has no result in that case and in no other (`Value.replaceToken_cuts`). The
other results are those of `Value.replaceToken`, and they are well formed.
-/

namespace Restyle

open Byte Dialect List Text Token

namespace Text

variable {text : Text} {offset : Nat}

/-- The text has no space at its ends. -/
def IsFlush (text : Text) : Prop :=
  text.head? ≠ some space ∧ text.getLast? ≠ some space

instance : Decidable (IsFlush text) :=
  inferInstanceAs (Decidable (_ ∧ _))

theorem isFlush_of_notMem (h : space ∉ text) : text.IsFlush :=
  ⟨fun hhead => h (mem_of_head? hhead), fun hlast => h (mem_of_getLast? hlast)⟩

theorem isFlush_of_hasBlank (h : hasBlank text = false) : text.IsFlush := by
  refine isFlush_of_notMem fun hmem => ?_
  rw [hasBlank_of_mem (by decide) (by decide) hmem] at h
  cases h

theorem isBoundary_length (text : Text) : isBoundary text text.length :=
  isBoundary_iff.mpr (.inl rfl)

theorem isBoundary_zero (h : wellFormed text) : isBoundary text 0 :=
  isBoundary_of_wellFormed (Nat.zero_le _) h

/-- An offset inside a text that is no boundary stands before a byte that goes on a character. -/
theorem exists_of_not_isBoundary (hoffset : offset ≤ text.length)
    (h : isBoundary text offset ≠ true) :
    ∃ byte, text[offset]? = some byte ∧ isContinuation byte := by
  rw [ne_eq, isBoundary_iff, not_or, not_exists] at h
  have hlt : offset < text.length := by omega
  refine ⟨text[offset], getElem?_eq_getElem hlt, eq_true_of_ne_false ?_⟩
  intro hbegins
  exact h.2 text[offset] ⟨getElem?_eq_getElem hlt, hbegins⟩

/-- An offset before a byte that goes on a character is no boundary. -/
theorem not_isBoundary {byte : UInt8} (hbyte : text[offset]? = some byte)
    (h : isContinuation byte) : isBoundary text offset ≠ true := by
  rw [ne_eq, isBoundary_iff]
  rintro (rfl | ⟨other, hother, hbegins⟩)
  · rw [getElem?_eq_none (Nat.le_refl _)] at hbyte
    cases hbyte
  · rw [hbyte, Option.some.injEq] at hother
    rw [← hother, h] at hbegins
    cases hbegins

end Text

namespace Token

variable {token mask text new result : Text} {start : Nat} {positions : List Nat}

/-- The cuts at both ends of an occurrence are boundaries. -/
def Clean (width : Nat) (text : Text) (position : Nat) : Prop :=
  isBoundary text position ∧ isBoundary text (position + width)

/-- A splice with checked cuts is the splice, if every cut is a boundary. -/
theorem spliceFrom?_eq_some_iff (h : Hits token start mask positions) :
    spliceFrom? token.length new text start positions = some result ↔ isBoundary text start ∧
        (∀ position ∈ positions, Clean token.length text position) ∧
        splice token.length new start (text.drop start) positions = result := by
  induction positions generalizing start mask result with
  | nil =>
    rw [spliceFrom?, between?_eq_some_iff, Span.slice, splice]
    have hwhole : (text.drop start).take (text.length - start) = text.drop start :=
      take_of_length_le (Nat.le_of_eq length_drop)
    simp only [hwhole, isBoundary_length, not_mem_nil, false_implies, implies_true, true_and,
      and_iff_right_iff_imp, and_imp]
    exact fun hstart _ => le_length_of_isBoundary hstart
  | cons position later ih =>
    obtain ⟨hle, -, hlater⟩ := h
    have hdrop : (text.drop start).drop (position - start + token.length) =
        text.drop (position + token.length) := by
      rw [drop_drop]
      congr 1
      omega
    simp only [spliceFrom?, Option.bind_eq_bind, Option.bind_eq_some_iff, between?_eq_some_iff,
      ih hlater, forall_mem_cons, Option.some.injEq, splice, hdrop]
    constructor
    · rintro ⟨kept, ⟨-, hstart, hposition, rfl⟩, rest, ⟨hstop, hrest, rfl⟩, rfl⟩
      exact ⟨hstart, ⟨⟨hposition, hstop⟩, hrest⟩, rfl⟩
    · rintro ⟨hstart, ⟨⟨hposition, hstop⟩, hrest⟩, rfl⟩
      exact ⟨_, ⟨hle, hstart, hposition, rfl⟩, _, ⟨hstop, hrest, rfl⟩, rfl⟩

/-- What is put together from parts between boundaries is well formed. -/
theorem wellFormed_of_spliceFrom? (htext : wellFormed text) (hnew : wellFormed new) {width : Nat}
    (h : spliceFrom? width new text start positions = some result) :
    wellFormed result := by
  induction positions generalizing start result with
  | nil =>
    obtain ⟨-, hstart, hstop, rfl⟩ := between?_eq_some_iff.mp h
    exact Span.wellFormed_slice htext hstart hstop
  | cons position later ih =>
    simp only [spliceFrom?, Option.bind_eq_bind, Option.bind_eq_some_iff,
      between?_eq_some_iff, Option.some.injEq] at h
    obtain ⟨kept, ⟨-, hstart, hstop, rfl⟩, rest, hrest, rfl⟩ := h
    exact wellFormed_append
      (wellFormed_append (Span.wellFormed_slice htext hstart hstop) hnew) (ih hrest)

variable {position : Nat}

theorem prefix_of_mem_occurrences (h : position ∈ occurrences token text) :
    token ≠ [] ∧ token <+: text.drop position := by
  have hstands := standsAt_of_mem_occurrences h
  simp only [standsAt, Bool.and_eq_true, isPrefixOf_iff_prefix] at hstands
  refine ⟨?_, hstands.1.1⟩
  rintro rfl
  cases h

/-- A token begins and ends at boundaries of a text in which it occurs. -/
theorem clean_of_mem_occurrences (htoken : wellFormed token)
    (htext : wellFormed text) (h : position ∈ occurrences token text) :
    position + token.length ≤ text.length ∧ Clean token.length text position := by
  obtain ⟨hne, rest, hrest⟩ := prefix_of_mem_occurrences h
  have hpositive : 0 < token.length := length_pos_iff.mpr hne
  have hsize := congrArg length hrest
  rw [length_append, length_drop] at hsize
  have hsplit : text = text.take position ++ (token ++ rest) := by
    rw [hrest, take_append_drop]
  have hright := (wellFormed_around hne htoken (hsplit ▸ htext)).2
  refine ⟨by omega, isBoundary_of_wellFormed (by omega) ?_, isBoundary_of_wellFormed (by omega) ?_⟩
  · rw [← hrest]
    exact wellFormed_append htoken hright
  · rwa [← drop_drop, ← hrest, drop_left]

end Token

namespace Value

variable {dialect : Dialect} {value token new : Text}

variable {byte : UInt8} {result : Text}

/-- A byte of a character of more than one byte in a comment is blanked by a space. -/
theorem getElem?_of_marked {offset : Nat}
    (hmark : (dialect.marks value)[offset]? = some (byte, true)) (hbyte : ¬ byte < 0x80) :
    (dialect.stripComments value)[offset]? = some space := by
  have hnewline : byte ≠ newline := by
    rintro rfl
    exact hbyte (by decide)
  rw [stripComments, stripFrom_eq_map, getElem?_map]
  change (dialect.marks value)[offset]?.map _ = _
  rw [hmark]
  simp [blankByte, hnewline]

theorem high_of_isContinuation (h : isContinuation byte) : ¬ byte < 0x80 := by
  intro hascii
  rw [not_isContinuation hascii] at h
  cases h

/-- A place where the token begins or ends in the code of a value, on a side where the token has a
space, stands inside a character of a comment. -/
def SplitsAt (dialect : Dialect) (value token : Text) (position : Nat) : Prop :=
  ∃ cut byte, (cut = position ∧ token.head? = some space ∨
      cut = position + token.length ∧ token.getLast? = some space) ∧
    (dialect.marks value)[cut]? = some (byte, true) ∧ isContinuation byte

theorem exists_mark (dialect : Dialect) {offset : Nat} (h : value[offset]? = some byte) :
    ∃ marked, (dialect.marks value)[offset]? = some (byte, marked) := by
  obtain ⟨hlt, rfl⟩ := List.getElem?_eq_some_iff.mp h
  have hmarks : offset < (dialect.marks value).length := by
    rwa [marks, Scan.length_marks]
  refine ⟨(dialect.marks value)[offset].2, ?_⟩
  rw [getElem?_eq_getElem hmarks, Option.some.injEq]
  refine Prod.ext ?_ rfl
  have hfirst := congrArg (fun text : Text => text[offset]?)
    (Scan.map_fst_marks dialect Scan.start value)
  simp only [getElem?_map, getElem?_eq_getElem hlt] at hfirst
  change (dialect.marks value)[offset]?.map Prod.fst = _ at hfirst
  rw [getElem?_eq_getElem hmarks] at hfirst
  exact Option.some.inj hfirst

section

variable {position : Nat} (hvalue : wellFormed value)
  (htoken : wellFormed token)
  (hposition : position ∈ occurrences token (dialect.stripComments value))

include hvalue htoken hposition

/-- The code of the value has boundaries where the token begins and ends, inside the value. -/
theorem isBoundary_code :
    position + token.length ≤ value.length ∧
      Token.Clean token.length (dialect.stripComments value) position := by
  have hclean := clean_of_mem_occurrences htoken (wellFormed_stripComments hvalue) hposition
  rwa [show (dialect.stripComments value).length = value.length from
    dialect.length_stripFrom Scan.start value] at hclean

/-- A token that does not begin at a boundary of the value begins with a space, inside a character
of a comment. -/
theorem head?_of_not_isBoundary (h : isBoundary value position ≠ true) :
    token.head? = some space ∧ ∃ byte, (dialect.marks value)[position]? = some (byte, true) ∧
      isContinuation byte := by
  obtain ⟨hbound, hfirst, -⟩ := isBoundary_code hvalue htoken hposition
  obtain ⟨byte, hbyte, hgoes⟩ := exists_of_not_isBoundary (by omega) h
  obtain ⟨marked, hmark⟩ := exists_mark dialect hbyte
  cases marked with
  | false => exact absurd (isBoundary_of_unmarked hmark hfirst) h
  | true =>
    refine ⟨?_, byte, hmark, hgoes⟩
    obtain ⟨hne, rest, hrest⟩ := prefix_of_mem_occurrences hposition
    have hshown := getElem?_of_marked hmark (high_of_isContinuation hgoes)
    obtain ⟨first, later, rfl⟩ := exists_cons_of_ne_nil hne
    rw [← hshown, ← head?_drop, ← hrest]
    rfl

/-- A token that does not end at a boundary of the value ends with a space, inside a character of a
comment. -/
theorem getLast?_of_not_isBoundary (h : isBoundary value (position + token.length) ≠ true) :
    token.getLast? = some space ∧
      ∃ byte, (dialect.marks value)[position + token.length]? = some (byte, true) ∧
        isContinuation byte := by
  obtain ⟨hbound, -, hlast⟩ := isBoundary_code hvalue htoken hposition
  obtain ⟨hne, rest, hrest⟩ := prefix_of_mem_occurrences hposition
  have hpositive : 0 < token.length := length_pos_iff.mpr hne
  obtain ⟨byte, hbyte, hgoes⟩ := exists_of_not_isBoundary hbound h
  obtain ⟨marked, hmark⟩ := exists_mark dialect hbyte
  cases marked with
  | false => exact absurd (isBoundary_of_unmarked hmark hlast) h
  | true =>
    refine ⟨?_, byte, hmark, hgoes⟩
    -- The byte in front belongs to the same character, and so to the same comment.
    obtain ⟨place, hplace⟩ : ∃ place, position + token.length = place + 1 :=
      ⟨position + token.length - 1, by omega⟩
    rw [hplace] at h hlast
    have hlt : place < value.length := by omega
    have hbefore := getElem?_eq_getElem hlt
    obtain ⟨marked, hmarked⟩ := exists_mark dialect hbefore
    have hhigh : ¬ value[place] < 0x80 := fun hascii =>
      h (isBoundary_succ_of_ascii hvalue hbefore hascii)
    cases marked with
    | false => exact absurd (isBoundary_succ_of_unmarked hmarked hlast) h
    | true =>
      have hshown := getElem?_of_marked hmarked hhigh
      rw [getLast?_eq_getElem?, ← hshown, show place = position + (token.length - 1) by omega,
        ← getElem?_drop, ← hrest, getElem?_append_left (by omega)]

theorem not_clean_iff :
    ¬ Token.Clean token.length value position ↔ SplitsAt dialect value token position := by
  constructor
  · intro h
    by_cases hfirst : isBoundary value position
    · have hlast : isBoundary value (position + token.length) ≠ true := fun hlast =>
        h ⟨hfirst, hlast⟩
      obtain ⟨hspace, byte, hmark, hgoes⟩ :=
        getLast?_of_not_isBoundary hvalue htoken hposition hlast
      exact ⟨_, byte, .inr ⟨rfl, hspace⟩, hmark, hgoes⟩
    · obtain ⟨hspace, byte, hmark, hgoes⟩ := head?_of_not_isBoundary hvalue htoken hposition hfirst
      exact ⟨_, byte, .inl ⟨rfl, hspace⟩, hmark, hgoes⟩
  · rintro ⟨cut, byte, hcut, hmark, hgoes⟩ ⟨hfirst, hlast⟩
    have hbyte : value[cut]? = some byte := (getElem?_zip_eq_some.mp hmark).1
    rcases hcut with ⟨rfl, -⟩ | ⟨rfl, -⟩
    · exact not_isBoundary hbyte hgoes hfirst
    · exact not_isBoundary hbyte hgoes hlast

end

/-- Replacing a token in the code of a value succeeds unless a character of a comment would be
split. -/
theorem replaceCode?_eq_some_iff (dialect : Dialect) (new : Text)
    (hvalue : wellFormed value) (htoken : wellFormed token) :
    replaceCode? dialect value token new = some result ↔
      (∀ position ∈ occurrences token (dialect.stripComments value),
        ¬ SplitsAt dialect value token position) ∧
      replaceCode dialect value token new = result := by
  have hclean : (∀ position ∈ occurrences token (dialect.stripComments value),
      Token.Clean token.length value position) ↔
      ∀ position ∈ occurrences token (dialect.stripComments value),
        ¬ SplitsAt dialect value token position :=
    forall₂_congr fun position hposition => by
      rw [← not_clean_iff hvalue htoken hposition, Classical.not_not]
  rw [replaceCode?, replaceMasked?,
    spliceFrom?_eq_some_iff (hits_occurrences ..), hclean]
  simp only [isBoundary_zero hvalue, true_and]
  rfl

/-- No character is split by a token without a space at its ends. -/
theorem not_splitsAt (h : token.IsFlush) (position : Nat) :
    ¬ SplitsAt dialect value token position := by
  rintro ⟨cut, byte, ⟨-, hspace⟩ | ⟨-, hspace⟩, -, -⟩
  · exact h.1 hspace
  · exact h.2 hspace

/-- What is replaced is well formed if it is replaced between characters. -/
theorem wellFormed_of_replaceCode? (hvalue : wellFormed value) (hnew : wellFormed new)
    (h : replaceCode? dialect value token new = some result) :
    wellFormed result :=
  wellFormed_of_spliceFrom? hvalue hnew h

/-- The value in which the references to the token are replaced, before the token itself is: the
same value, unless the replacement alone is a reference. -/
def unwrapped (dialect : Dialect) (value token new : Text) : Text :=
  if isReference new && !isReference token then
    replaceCode dialect value (referTo token) new
  else value

/-- References to a well-formed token are replaced without splitting a character. -/
theorem replaceToken?_eq_unwrapped (dialect : Dialect) (hvalue : wellFormed value)
    (htoken : wellFormed token) (hnew : wellFormed new) :
    replaceToken? dialect value token new =
        replaceCode? dialect (unwrapped dialect value token new) token new ∧
      wellFormed (unwrapped dialect value token new) := by
  unfold replaceToken? unwrapped
  split
  · have hformed : wellFormed (referTo token) := wellFormed_append
      (wellFormed_append (wellFormed_utf8 "var(") htoken) (wellFormed_utf8 ")")
    have hflush : (referTo token).IsFlush := by
      refine ⟨by change some 0x76 ≠ some space; decide, ?_⟩
      change (utf8 "var(" ++ token ++ [0x29]).getLast? ≠ _
      rw [getLast?_concat]
      decide
    have hsome := (replaceCode?_eq_some_iff dialect new hvalue hformed).mpr
      ⟨fun position _ => not_splitsAt hflush position, rfl⟩
    exact ⟨by rw [hsome]; rfl, wellFormed_of_replaceCode? hvalue hnew hsome⟩
  · exact ⟨rfl, hvalue⟩

/-- A token is replaced in a well-formed value unless a character of a comment would be split. -/
theorem replaceToken?_eq_some_iff (dialect : Dialect) (hvalue : wellFormed value)
    (htoken : wellFormed token) (hnew : wellFormed new) :
    replaceToken? dialect value token new = some result ↔ (∀ position ∈ occurrences token
          (dialect.stripComments (unwrapped dialect value token new)),
        ¬ SplitsAt dialect (unwrapped dialect value token new) token position) ∧
      replaceToken dialect value token new = result := by
  obtain ⟨hequal, hunwrapped⟩ := replaceToken?_eq_unwrapped dialect hvalue htoken hnew
  rw [hequal, replaceCode?_eq_some_iff dialect new hunwrapped htoken]
  rfl

/-- A token is replaced as without checks, if it is. -/
theorem replaceToken_of_replaceText? (h : replaceText? dialect value token new = some result) :
    replaceToken dialect value token new = result := by
  unfold replaceText? at h
  split at h
  next hformed =>
    simp only [all_cons, all_nil, Bool.and_eq_true, and_true] at hformed
    exact ((replaceToken?_eq_some_iff dialect hformed.1 hformed.2.1 hformed.2.2).mp h).2
  · exact Option.some.inj h

/-- A token without a space at its ends is replaced. -/
theorem replaceText?_eq_some (dialect : Dialect) (value new : Text) (h : token.IsFlush) :
    replaceText? dialect value token new = some (replaceToken dialect value token new) := by
  unfold replaceText?
  split
  next hformed =>
    simp only [all_cons, all_nil, Bool.and_eq_true, and_true] at hformed
    exact (replaceToken?_eq_some_iff dialect hformed.1 hformed.2.1 hformed.2.2).mpr
      ⟨fun position _ => not_splitsAt h position, rfl⟩
  · rfl

/-- A token is replaced in a well-formed value, and the result is well formed, unless a cut stands
inside a character. That is so where a side of the token with a space comes to stand inside a
character of a comment, and so never for a token without a space at its ends. -/
theorem replaceToken_cuts (dialect : Dialect) {value token new : Text}
    (hvalue : Text.wellFormed value = true) (htoken : Text.wellFormed token = true)
    (hnew : Text.wellFormed new = true) :
    (replaceToken? dialect value token new = none ↔
      ∃ position ∈ Token.occurrences token
          (dialect.stripComments (unwrapped dialect value token new)),
        SplitsAt dialect (unwrapped dialect value token new) token position) ∧
    (∀ result, replaceToken? dialect value token new = some result →
      result = replaceToken dialect value token new ∧ Text.wellFormed result = true) ∧
    (token.head? ≠ some Byte.space → token.getLast? ≠ some Byte.space →
      replaceToken? dialect value token new = some (replaceToken dialect value token new)) := by
  have hiff := fun result => @replaceToken?_eq_some_iff value token new result dialect hvalue
    htoken hnew
  refine ⟨?_, fun result hresult => ⟨((hiff result).mp hresult).2.symm, ?_⟩, fun hhead hlast => ?_⟩
  · rw [Option.eq_none_iff_forall_ne_some]
    constructor
    · intro hnone
      refine Classical.byContradiction fun hclean => hnone _ ((hiff _).mpr ⟨?_, rfl⟩)
      intro position hposition hsplits
      exact hclean ⟨position, hposition, hsplits⟩
    · rintro ⟨position, hposition, hsplits⟩ result hresult
      exact ((hiff result).mp hresult).1 position hposition hsplits
  · obtain ⟨hequal, hunwrapped⟩ := replaceToken?_eq_unwrapped dialect hvalue htoken hnew
    exact wellFormed_of_replaceCode? hunwrapped hnew (hequal ▸ hresult)
  · exact (hiff _).mpr ⟨fun position _ => not_splitsAt ⟨hhead, hlast⟩ position, rfl⟩

/-- A comment between two references, with a character of two bytes and the token in it. -/
theorem replaceToken_cuts_comment :
    Text.wellFormed (utf8 "var(--a)/*é --a*/ --a") = true ∧ Text.wellFormed (utf8 "--a") = true ∧
    Text.wellFormed (utf8 "var(--ü)") = true ∧ (utf8 "--a").head? ≠ some Byte.space ∧
    (utf8 "--a").getLast? ≠ some Byte.space ∧
    replaceToken? .css (utf8 "var(--a)/*é --a*/ --a") (utf8 "--a") (utf8 "var(--ü)") =
      some (utf8 "var(--ü)/*é --a*/ var(--ü)") :=
  have hvalue := Text.wellFormed_utf8 "var(--a)/*é --a*/ --a"
  have htoken := wellFormed_utf8 "--a"
  have hnew := Text.wellFormed_utf8 "var(--ü)"
  have hresult := (replaceToken_cuts .css hvalue htoken hnew).2.2 (by decide) (by decide)
  ⟨hvalue, htoken, hnew, by decide, by decide, hresult.trans (by decide)⟩

/-- A space is found in the middle of a character of a comment, and the value would be cut there. -/
theorem replaceToken_splits_character :
    Text.wellFormed (utf8 "/*é*/") = true ∧
    2 ∈ Token.occurrences (utf8 " ") (Dialect.css.stripComments (utf8 "/*é*/")) ∧
    Text.isBoundary (utf8 "/*é*/") (2 + (utf8 " ").length) = false ∧
    replaceToken? .css (utf8 "/*é*/") (utf8 " ") (utf8 "x") = none :=
  ⟨wellFormed_utf8 _, by decide, by decide, by decide⟩

end Value

end Restyle
