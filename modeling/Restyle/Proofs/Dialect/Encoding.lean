import Restyle.Proofs.Dialect.Marks
import Restyle.Proofs.Text.Boundary

/-!
# Comments are whole characters

A comment begins and ends between characters, so blanking comments keeps a text well formed
(`Dialect.wellFormed_stripComments`). A place outside comments is a boundary of the text if it is
one of the text without comments: `Dialect.isBoundary_of_unmarked`. A comment ends with a slash or
before a line feed, so what stands right in front of code is code: `Dialect.isPrefix_stripComments`.
-/

namespace Restyle

open Byte List Text

namespace Scan

variable {dialect : Dialect} {scan : Scan} {byte : UInt8} {ahead : Option UInt8}

/-- Whether the scan stands between the two bytes that open or close a comment. -/
def isHalf (scan : Scan) : Bool :=
  scan.mode == .commentOpening || scan.mode == .commentClosing

/-- Between the two bytes that open or close a comment the second one follows. -/
theorem ahead_of_isHalf (h : (scan.next dialect byte ahead).isHalf) :
    ∃ second, ahead = some second ∧ second < 0x80 := by
  obtain ⟨hopening, hclosing⟩ := ahead_of_next ..
  simp only [isHalf, Bool.or_eq_true, beq_iff_eq] at h
  rcases h with h | h
  · exact ⟨asterisk, (hopening h).2, by decide⟩
  · exact ⟨slash, hclosing h, by decide⟩

/-- A byte that is not below 80 neither opens nor closes a comment. -/
theorem next_of_high (hbyte : ¬ byte < 0x80) (hscan : scan.isHalf = false) (ahead : Option UInt8) :
    (scan.next dialect byte ahead).isHalf = false ∧
      (scan.next dialect byte ahead).isOutside = scan.isOutside ∧
      inComment scan (scan.next dialect byte ahead) = !scan.isOutside := by
  have hne : ∀ other : UInt8, other < 0x80 → (byte == other) = false := by
    intro other hother
    rw [beq_eq_false_iff_ne]
    rintro rfl
    exact hbyte hother
  have hquote : dialect.isQuote byte = false := by
    simp [Dialect.isQuote, hne doubleQuote (by decide), hne apostrophe (by decide),
      hne backtick (by decide)]
  obtain ⟨mode, depth⟩ := scan
  cases mode with
  | code =>
    have hcode : codeNext dialect depth byte ahead = .code := by
      simp [codeNext, hquote, hne slash (by decide)]
    simp [Scan.next, hcode, isHalf, isOutside, inComment]
  | literal quote =>
    rcases literalNext_cases quote byte with hnext | hnext | hnext <;>
      simp [Scan.next, hnext, isHalf, isOutside, inComment]
  | escape quote => exact ⟨rfl, rfl, rfl⟩
  | comment => simp [Scan.next, hne asterisk (by decide), isHalf, isOutside, inComment]
  | lineComment => simp [Scan.next, hne newline (by decide), isHalf, isOutside, inComment]
  | commentOpening | commentClosing => cases hscan

/-- Bytes that are not below 80 stand outside comments or are blanked, all of them. -/
theorem stripFrom_of_high {bytes : Text} (hbytes : ∀ byte ∈ bytes, ¬ byte < 0x80)
    (hscan : scan.isHalf = false) (rest : Text) :
    ∃ scan' : Scan, scan'.isHalf = false ∧ dialect.stripFrom scan (bytes ++ rest) =
      (if scan.isOutside then bytes else bytes.map fun _ => space) ++
        dialect.stripFrom scan' rest := by
  induction bytes generalizing scan with
  | nil => exact ⟨scan, hscan, by split <;> rfl⟩
  | cons byte bytes ih =>
    obtain ⟨hbyte, hbytes⟩ := forall_mem_cons.mp hbytes
    obtain ⟨hnext, houtside, hmark⟩ :=
      @next_of_high dialect scan byte hbyte hscan (bytes ++ rest).head?
    obtain ⟨scan', hscan', hstrip⟩ := ih hbytes hnext
    have hblank : blankByte byte = space := by
      refine if_neg fun hnewline => hbyte ?_
      rw [eq_of_beq hnewline]
      decide
    refine ⟨scan', hscan', ?_⟩
    rw [cons_append, Dialect.stripFrom_cons, hstrip, houtside, hmark]
    cases scan.isOutside <;> simp [hblank]

/-- A comment begins with a slash. -/
theorem slash_of_marks {text : Text} {index : Nat} {first second : UInt8}
    (hfirst : (scan.marks dialect text)[index]? = some (first, false))
    (hsecond : (scan.marks dialect text)[index + 1]? = some (second, true)) :
    second = slash := by
  induction text generalizing scan index with
  | nil => cases hfirst
  | cons byte rest ih =>
    rw [marks_cons] at hfirst hsecond
    cases index with
    | succ index => exact ih hfirst hsecond
    | zero =>
      rw [getElem?_cons_zero, Option.some.injEq, Prod.mk.injEq] at hfirst
      cases rest with
      | nil => cases hsecond
      | cons next rest =>
        rw [marks_cons, getElem?_cons_succ, getElem?_cons_zero, Option.some.injEq,
          Prod.mk.injEq] at hsecond
        exact hsecond.1 ▸ slash_of_inComment (isOutside_next hfirst.2) hsecond.2

/-- A comment ends with a slash or before a line feed. -/
theorem slash_or_newline_of_marks {text : Text} {index : Nat} {first second : UInt8}
    (hscan : scan.mode = .commentClosing → text.head? = some slash)
    (hfirst : (scan.marks dialect text)[index]? = some (first, true))
    (hsecond : (scan.marks dialect text)[index + 1]? = some (second, false)) :
    first = slash ∨ second = newline := by
  induction text generalizing scan index with
  | nil => cases hfirst
  | cons byte rest ih =>
    rw [marks_cons] at hfirst hsecond
    cases index with
    | succ index => exact ih (ahead_of_next ..).2 hfirst hsecond
    | zero =>
      rw [getElem?_cons_zero, Option.some.injEq, Prod.mk.injEq] at hfirst
      obtain ⟨rfl, hmark⟩ := hfirst
      cases rest with
      | nil => cases hsecond
      | cons next rest =>
        rw [marks_cons, getElem?_cons_succ, getElem?_cons_zero, Option.some.injEq,
          Prod.mk.injEq] at hsecond
        obtain ⟨rfl, hunmarked⟩ := hsecond
        cases houtside : (scan.next dialect byte (some next)).isOutside with
        | true => exact .inl (Option.some.inj (hscan (closing_of_inComment hmark houtside)))
        | false => exact .inr (newline_of_unmarked houtside hunmarked)

end Scan

namespace Dialect

variable {dialect : Dialect}

section Before

variable {text word : Text} {place : Nat} {byte : UInt8}
  (hword : ∀ byte ∈ word, byte ≠ slash ∧ byte ≠ newline)
  (hbegins : word <+: text.drop place)
  (hnext : (dialect.marks text)[place + word.length]? = some (byte, false))
  (hbyte : byte ≠ newline)
include hword hbegins hnext hbyte

/-- What stands right in front of code, without slashes and line feeds, is code. -/
theorem unmarked_before :
    ∀ mark ∈ ((dialect.marks text).drop place).take word.length, mark.2 = false := by
  induction word generalizing place with
  | nil => simp
  | cons first word ih =>
    obtain ⟨hfirst, hothers⟩ := forall_mem_cons.mp hword
    obtain ⟨later, hlater⟩ := hbegins
    have hmarks : ((dialect.marks text).drop place).map Prod.fst = first :: (word ++ later) := by
      rw [map_drop, marks, Scan.map_fst_marks, ← hlater]
      rfl
    obtain ⟨⟨byte', mark⟩, rest, hdrop, rfl, hrest⟩ := map_eq_cons_iff.mp hmarks
    have hrest' : (dialect.marks text).drop (place + 1) = rest := by
      rw [← drop_drop, hdrop]
      rfl
    have hbegins : word <+: text.drop (place + 1) := by
      rw [← drop_drop, ← hlater]
      exact prefix_append word later
    rw [length_cons, Nat.add_comm word.length, ← Nat.add_assoc] at hnext
    have hunmarked := ih hothers hbegins hnext
    rw [hrest'] at hunmarked
    -- The next byte is code, so that a comment would end here.
    have hsecond : ∃ second, rest.head? = some (second, false) ∧ second ≠ newline := by
      cases word with
      | nil =>
        refine ⟨byte, ?_, hbyte⟩
        rw [← hrest', head?_drop]
        exact hnext
      | cons second word =>
        obtain ⟨⟨second', mark'⟩, others, rfl, rfl, -⟩ := map_eq_cons_iff.mp hrest
        have hmark' : mark' = false := hunmarked (second', mark') (by simp)
        exact ⟨second', by rw [hmark']; rfl, (hothers second' mem_cons_self).2⟩
    obtain ⟨second, hsecond, hnewline⟩ := hsecond
    have hmark : mark = false := by
      refine Bool.eq_false_iff.mpr fun hmarked => ?_
      subst hmarked
      have hplace : (dialect.marks text)[place]? = some (byte', true) := by
        rw [← head?_drop, hdrop]
        rfl
      rw [← hrest', head?_drop] at hsecond
      rcases Scan.slash_or_newline_of_marks (fun hclosing => by cases hclosing) hplace hsecond
        with h | h
      · exact hfirst.1 h
      · exact hnewline h
    rw [hdrop]
    exact forall_mem_cons.mpr ⟨hmark, hunmarked⟩

/-- What stands right in front of code, without slashes and line feeds, is shown. -/
theorem isPrefix_stripComments : word <+: (dialect.stripComments text).drop place := by
  have hunmarked := unmarked_before hword hbegins hnext hbyte
  have hshown : (((dialect.marks text).drop place).take word.length).map
      (fun mark => if mark.2 then blankByte mark.1 else mark.1) =
      (((dialect.marks text).drop place).take word.length).map Prod.fst := by
    refine map_congr_left fun mark hmem => ?_
    rw [hunmarked mark hmem]
    rfl
  rw [prefix_iff_eq_take] at hbegins ⊢
  rw [stripComments_eq_map, ← map_drop, ← map_take, hshown, map_take, map_drop,
    marks, Scan.map_fst_marks]
  exact hbegins

end Before

/-- Characters are blanked whole or not at all. -/
theorem wellFormed_stripFrom (chars : List Char) {scan : Scan}
    (hscan : scan.isHalf →
      ∃ byte, (ofChars chars).head? = some byte ∧ byte < 0x80) :
    wellFormed (dialect.stripFrom scan (ofChars chars)) := by
  induction chars generalizing scan with
  | nil => rfl
  | cons char later ih =>
    rw [ofChars, flatMap_cons] at hscan ⊢
    change wellFormed (dialect.stripFrom scan (_ ++ ofChars later))
    rcases encode_cases char with ⟨byte, hbyte, hascii, -⟩ | hhigh
    · rw [hbyte, singleton_append, stripFrom_cons]
      refine wellFormed_append (wellFormed_of_ascii ?_) (ih fun hhalf => Scan.ahead_of_isHalf hhalf)
      split
      · unfold blankByte
        split
        · exact hascii
        · decide
      · exact hascii
    · have hwhole : scan.isHalf = false := by
        rw [Bool.eq_false_iff]
        intro hhalf
        obtain ⟨first, rest, hencode, -⟩ := encode_head char
        obtain ⟨byte, hhead, hascii⟩ := hscan hhalf
        rw [hencode, cons_append, head?_cons, Option.some.injEq] at hhead
        exact hhigh first (by rw [hencode]; exact mem_cons_self) (hhead ▸ hascii)
      obtain ⟨scan', hscan', hstrip⟩ :=
        @Scan.stripFrom_of_high dialect scan _ hhigh hwhole (ofChars later)
      rw [hstrip]
      refine wellFormed_append ?_ (ih fun hhalf => by rw [hscan'] at hhalf; cases hhalf)
      split
      · exact wellFormed_iff.mpr ⟨[char], by simp [ofChars]⟩
      · refine wellFormed_of_all_ascii fun byte hmem => ?_
        obtain ⟨-, -, rfl⟩ := mem_map.mp hmem
        decide

theorem wellFormed_stripComments {text : Text} (h : wellFormed text) :
    wellFormed (dialect.stripComments text) := by
  obtain ⟨chars, rfl⟩ := wellFormed_iff.mp h
  exact wellFormed_stripFrom chars nofun

/-! ## Boundaries -/

variable {text : Text} {offset : Nat} {byte : UInt8}

/-- A byte outside comments is in the text what it is without the comments. -/
theorem getElem?_of_unmarked (hmark : (dialect.marks text)[offset]? = some (byte, false)) :
    text[offset]? = some byte ∧ (dialect.stripComments text)[offset]? = some byte := by
  obtain ⟨hbyte, hcomment⟩ := getElem?_zip_eq_some.mp hmark
  refine ⟨hbyte, ?_⟩
  rw [stripComments, stripFrom, getElem?_zipWith]
  simp only [hbyte, hcomment]
  rfl

/-- A byte outside comments begins a character of the text if it does so without the comments. -/
theorem isBoundary_of_unmarked (hmark : (dialect.marks text)[offset]? = some (byte, false))
    (h : isBoundary (dialect.stripComments text) offset) :
    isBoundary text offset := by
  obtain ⟨hbyte, hshown⟩ := getElem?_of_unmarked hmark
  refine isBoundary_iff.mpr (.inr ⟨byte, hbyte, ?_⟩)
  rcases isBoundary_iff.mp h with hend | ⟨other, hother, hbegins⟩
  · have := (List.getElem?_eq_some_iff.mp hshown).1
    omega
  · rw [hshown, Option.some.injEq] at hother
    rwa [hother]

/-- Behind a byte outside comments there is a boundary of the text if there is one without the
comments. -/
theorem isBoundary_succ_of_unmarked (hmark : (dialect.marks text)[offset]? = some (byte, false))
    (h : isBoundary (dialect.stripComments text) (offset + 1)) :
    isBoundary text (offset + 1) := by
  have hbound := (List.getElem?_eq_some_iff.mp (getElem?_of_unmarked hmark).1).1
  cases hnext : (dialect.marks text)[offset + 1]? with
  | none =>
    rw [List.getElem?_eq_none_iff, marks, Scan.length_marks] at hnext
    exact isBoundary_iff.mpr (.inl (Nat.le_antisymm hbound hnext))
  | some mark =>
    obtain ⟨next, marked⟩ := mark
    cases marked with
    | false => exact isBoundary_of_unmarked hnext h
    | true =>
      -- A comment begins there.
      obtain rfl := Scan.slash_of_marks hmark hnext
      have hslash := (getElem?_zip_eq_some.mp hnext).1
      exact isBoundary_of_ascii hslash (by decide)

end Dialect

end Restyle
