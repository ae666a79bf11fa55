import Mathlib.Data.List.Basic
import Mathlib.Data.List.Pairwise
import Restyle.Proofs.Declaration.Entries
import Restyle.Proofs.Value.Words

/-!
# Declarations around a word

A word has no braces, separators or colons in it. So the blocks of a text (`Block.scan_word`) and
their entries (`Declaration.entriesIn_word`) are the same whichever word stands at a place, up to
its length. An entry around the word declares the same, if its colon stands before the word
(`Declaration.readIn_word`). If the word stands in a declared value that is so, and then the whole
text declares the same: `Declaration.scan_word`.
-/

namespace Restyle

open Block Byte Dialect List Span Text

open Dialect (veilWord)
open Token (IsWord)

/-! ## Marks of a word -/

/-- The marks of a word in a comment or outside. -/
def Dialect.markWord (hidden seen : Bool) (word : Text) : List (UInt8 × Bool) :=
  (veilWord hidden word).map (·, seen)

namespace Dialect

theorem length_markWord (hidden seen : Bool) (word : Text) :
    (markWord hidden seen word).length = word.length := by
  rw [markWord, length_map, length_veilWord]

theorem markWord_ne_nil {hidden seen : Bool} {word : Text} (hword : IsWord word) :
    markWord hidden seen word ≠ [] := by
  rw [← length_pos_iff, length_markWord, length_pos_iff]
  exact hword.ne_nil

theorem isPlain_of_mem_markWord {hidden seen : Bool} {word : Text} (hword : IsWord word) :
    ∀ mark ∈ markWord hidden seen word, isPlain mark.1 := by
  intro mark hmem
  obtain ⟨byte, hbyte, rfl⟩ := mem_map.mp hmem
  exact isPlain_of_mem_veilWord hword.identifier byte hbyte

/-- What can be seen around a word does not depend on the word. -/
theorem exists_visible_veilWord (dialect : Dialect) (left right : Text) :
    ∃ before seen after, before.length = left.length ∧ ∀ hidden {word}, IsWord word →
      dialect.visible (left ++ veilWord hidden word ++ right) =
        before ++ markWord hidden seen word ++ after := by
  obtain ⟨before, seen, after, hbefore, hvisible⟩ := dialect.visible_word ..
  exact ⟨before, seen, after, hbefore, fun hidden word hword =>
    hvisible _ (veilWord_ne_nil hword.ne_nil) (isPlain_of_mem_veilWord hword.identifier)⟩

end Dialect

open Dialect (markWord)

/-! ## Blocks -/

namespace Block

/-- Where a block moves when a word of so many bytes takes the place of the byte at a position. -/
def stretch (position length : Nat) (block : Block) : Block :=
  ⟨Restyle.stretch position length block.opening, Restyle.stretch position length block.closing⟩

variable (position : Nat)

/-- The blocks of a text are closed in the same steps wherever a word stands. -/
theorem closed_sameSteps (length : Nat) :
    SameSteps position length (fun _ : List Nat => True)
      (fun stack => stack.map (Restyle.stretch position length)) (Block.stretch position length)
      (fun offset stack => closed offset stack) (fun offset stack => closed offset stack) where
  step := by
    rintro offset stack _ _ ⟨byte, seen⟩
    simp only [closed]
    split
    · exact ⟨[], offset :: stack, trivial, fun _ => ⟨rfl, rfl⟩⟩
    · split
      · cases stack with
        | nil => exact ⟨[], [], trivial, fun _ => ⟨rfl, rfl⟩⟩
        | cons opening outer =>
          exact ⟨[⟨opening, offset⟩], outer, trivial, fun _ => ⟨rfl, rfl⟩⟩
      · exact ⟨[], stack, trivial, fun _ => ⟨rfl, rfl⟩⟩
  stop := fun _ _ _ => rfl

/-- Without braces no block is opened or closed. -/
theorem closed_append {word : List (UInt8 × Bool)}
    (hword : ∀ mark ∈ word, mark.1 ≠ openBrace ∧ mark.1 ≠ closeBrace)
    (offset : Nat) (stack : List Nat) (rest : List (UInt8 × Bool)) :
    closed offset stack (word ++ rest) = closed (offset + word.length) stack rest := by
  induction word generalizing offset with
  | nil => rfl
  | cons mark word ih =>
    obtain ⟨⟨hopens, hcloses⟩, hlater⟩ := forall_mem_cons.mp hword
    obtain ⟨byte, seen⟩ := mark
    simp only [cons_append, closed, beq_eq_false_iff_ne.mpr hopens,
      beq_eq_false_iff_ne.mpr hcloses, Bool.and_false, Bool.false_eq_true, if_false]
    rw [ih hlater, length_cons, Nat.add_right_comm, Nat.add_assoc]

theorem map_stretch_mergeSort (length : Nat) (blocks : List Block) :
    (blocks.mergeSort fun left right => left.opening ≤ right.opening).map
        (Block.stretch position length) =
      (blocks.map (Block.stretch position length)).mergeSort
        fun left right => left.opening ≤ right.opening := by
  refine map_mergeSort fun left _ right _ => decide_eq_decide.mpr ?_
  exact stretch_le_stretch.symm

/-- The blocks of a text are the same whichever word stands at a place, up to its length. -/
theorem scan_word (dialect : Dialect) (hidden : Bool) (left right : Text) {word : Text}
    (hword : IsWord word) :
    scan dialect (left ++ veilWord hidden word ++ right) =
      (scan dialect (left ++ veilWord hidden [hyphen] ++ right)).map
        (Block.stretch left.length word.length) := by
  obtain ⟨before, seen, after, hbefore, hvisible⟩ := dialect.exists_visible_veilWord left right
  have hpass : ∀ {word}, IsWord word → ∀ stack rest,
      closed left.length stack (markWord hidden seen word ++ rest) =
        closed (left.length + (markWord hidden seen word).length) stack rest :=
    fun hword => closed_append (fun mark hmem => by
      have hplain := isPlain_of_mem_markWord hword mark hmem
      exact ⟨ne_of_beq_false (beq_of_isPlain hplain (by decide)),
        ne_of_beq_false (beq_of_isPlain hplain (by decide))⟩) _
  have hclosed : closed 0 [] (before ++ markWord hidden seen word ++ after) =
      (closed 0 [] (before ++ markWord hidden seen [hyphen] ++ after)).map
        (Block.stretch left.length word.length) :=
    (closed_sameSteps _ _).passing (by omega) (length_markWord ..)
      (length_markWord ..) (length_pos_iff.mpr hword.ne_nil)
      (hpass Token.isWord_hyphen) (hpass hword) after [] trivial
  rw [scan, scan, hvisible hidden hword, hvisible hidden Token.isWord_hyphen, map_stretch_mergeSort,
    hclosed]

/-- The inside of a block moves with the block, unless the word stands for the opening brace. -/
theorem interior_stretch {position length : Nat} {block : Block} (h : block.opening ≠ position) :
    (block.stretch position length).interior = block.interior.stretch position length :=
  congrArg (Span.mk · _) (stretch_succ h).symm

end Block

/-! ## Entries -/

namespace Declaration

variable (dialect : Dialect)

/-- The entries of a text are read in the same steps wherever a word stands. What is remembered is
where the entry in progress began and the depths of parentheses and of nested blocks. -/
theorem entries_sameSteps (position length stop : Nat) :
    SameSteps position length (fun _ : Nat × Nat × Nat => True)
      (fun memory => (stretch position length memory.1, memory.2)) (Span.stretch position length)
      (fun offset memory => entries dialect stop offset memory.1 memory.2.1 memory.2.2)
      (fun offset memory => entries dialect (stretch position length stop) offset memory.1
        memory.2.1 memory.2.2) where
  step := by
    rintro offset ⟨opened, depth, braces⟩ hne _ ⟨byte, seen⟩
    have hsucc := @stretch_succ position length offset hne
    simp only [entries]
    split
    · exact ⟨[], (opened, depth, braces), trivial, fun _ => ⟨rfl, rfl⟩⟩
    · split
      · exact ⟨[], (opened, depth, braces + 1), trivial, fun _ => ⟨rfl, rfl⟩⟩
      · split
        · split
          · refine ⟨[⟨opened, offset⟩], (offset + 1, 0, 0), trivial, fun _ => ⟨rfl, ?_⟩⟩
            dsimp only
            rw [hsucc]
            rfl
          · exact ⟨[], (opened, depthNext depth byte, 0), trivial, fun _ => ⟨rfl, rfl⟩⟩
        · split
          · split
            · refine ⟨[], (offset + 1, 0, 0), trivial, fun _ => ⟨rfl, ?_⟩⟩
              dsimp only
              rw [hsucc]
              rfl
            · exact ⟨[], (opened, depth, braces - 1), trivial, fun _ => ⟨rfl, rfl⟩⟩
          · exact ⟨[], (opened, depth, braces), trivial, fun _ => ⟨rfl, rfl⟩⟩
  stop := by
    rintro offset ⟨opened, depth, braces⟩ _
    simp only [entries, stretch_lt_stretch]
    split <;> rfl

/-- A word ends no entry and opens no nested block. -/
theorem entries_plain {word : List (UInt8 × Bool)} (hword : ∀ mark ∈ word, isPlain mark.1)
    (stop offset opened depth braces : Nat) (rest : List (UInt8 × Bool)) :
    entries dialect stop offset opened depth braces (word ++ rest) =
      entries dialect stop (offset + word.length) opened depth braces rest := by
  induction word generalizing offset with
  | nil => rfl
  | cons mark word ih =>
    obtain ⟨hmark, hlater⟩ := forall_mem_cons.mp hword
    obtain ⟨byte, seen⟩ := mark
    have hne : ∀ other, isPlain other = false → (byte == other) = false :=
      fun other => beq_of_isPlain hmark
    have hdepth : depthNext depth byte = depth := by
      simp [depthNext, hne openParen (by decide), hne openBracket (by decide),
        hne closeParen (by decide), hne closeBracket (by decide)]
    have hseparator : dialect.isSeparator byte = false := by
      simp [isSeparator, hne semicolon (by decide), hne comma (by decide)]
    rw [cons_append, length_cons, ← Nat.add_assoc, Nat.add_right_comm, ← ih hlater]
    simp only [entries, hne openBrace (by decide), hne closeBrace (by decide), hdepth,
      hseparator, Bool.and_false, Bool.false_eq_true, if_false]
    split
    · rfl
    · split
      next hbraces => rw [beq_iff_eq.mp hbraces]
      · rfl

/-- The entries in a span of a text with the marks. -/
def entriesIn (dialect : Dialect) (marks : List (UInt8 × Bool)) (interior : Span) : List Span :=
  entries dialect interior.stop interior.start interior.start 0 0
    ((marks.drop interior.start).take (interior.stop - interior.start))

/-- The entries in a span are the same whichever word stands at a place, up to its length. -/
theorem entriesIn_word (hidden seen : Bool) (before after : List (UInt8 × Bool)) {word : Text}
    (hword : IsWord word) (interior : Span) :
    entriesIn dialect (before ++ markWord hidden seen word ++ after)
        (interior.stretch before.length word.length) =
      (entriesIn dialect (before ++ markWord hidden seen [hyphen] ++ after) interior).map
        (Span.stretch before.length word.length) := by
  obtain ⟨start, stop⟩ := interior
  have hsteps := entries_sameSteps dialect before.length word.length stop
  have hlength := length_markWord hidden seen
  have hmarks := @Dialect.markWord_ne_nil hidden seen word hword
  rw [entriesIn, entriesIn, Span.stretch]
  dsimp only
  by_cases hapart : stop ≤ before.length ∨ before.length < start
  · -- The marks of the span are the same, at other places.
    have hslice := @slice_apart _ before _ after start stop _ (hlength [hyphen]) hmarks hapart
    rw [hlength] at hslice
    rw [hslice]
    refine hsteps.apart _ start (fun place hle hlt => ?_) (start, 0, 0) trivial
    have hcount := length_take_le (stop - start)
      ((before ++ markWord hidden seen [hyphen] ++ after).drop start)
    omega
  · -- The word is passed over, whatever the reading remembers when it comes to it.
    have hstart : start ≤ before.length := by omega
    have hpass : ∀ {word}, IsWord word → ∀ stop (memory : Nat × Nat × Nat) rest,
        entries dialect stop before.length memory.1 memory.2.1 memory.2.2
            (markWord hidden seen word ++ rest) =
          entries dialect stop (before.length + (markWord hidden seen word).length) memory.1
            memory.2.1 memory.2.2 rest :=
      fun hword stop memory rest => entries_plain dialect (isPlain_of_mem_markWord hword) ..
    have hposition : start + (before.drop start).length = before.length := by
      rw [length_drop]
      omega
    have hslice := @slice_around _ before _ after start stop hmarks hstart (by omega)
    rw [hlength] at hslice
    rw [hslice, slice_around_one (hlength [hyphen]) hstart (by omega), stretch_of_le hstart]
    have hpassed := hsteps.passing hposition (hlength [hyphen]) (hlength word)
      (length_pos_iff.mpr hword.ne_nil) (hpass Token.isWord_hyphen _) (hpass hword _)
      (after.take (stop - (before.length + 1))) (start, 0, 0) trivial
    dsimp only at hpassed
    rw [stretch_of_le hstart] at hpassed
    exact hpassed

end Declaration

/-! ## What an entry declares -/

namespace Span

variable {outer span : Span} {text : Text}

theorem slice_shift (h : span.stop ≤ (outer.slice text).length) :
    (span.shift outer.start).slice text = span.slice (outer.slice text) := by
  have hlength : (outer.slice text).length ≤ outer.stop - outer.start := length_take_le _ _
  simp only [slice, shift] at *
  rw [drop_take, take_take, drop_drop, Nat.add_sub_add_right,
    Nat.min_eq_left (by omega), Nat.add_comm]

/-- The blanks at the ends of a slice of a slice are those of the slice. -/
theorem trim_shift (h : span.stop ≤ (outer.slice text).length) :
    (span.shift outer.start).trim text = (span.trim (outer.slice text)).shift outer.start := by
  have htrail := byteSize_takeWhile_le (chars (span.slice (outer.slice text))).reverse isBlank
  rw [byteSize_reverse, byteSize_chars, length_slice h] at htrail
  rw [trim, trim, slice_shift h]
  generalize byteSize ((chars _).takeWhile isBlank) = lead
  generalize byteSize ((chars _).reverse.takeWhile isBlank) = trail at *
  have hbegin : (span.shift outer.start).start = span.start + outer.start := rfl
  have hend : (span.shift outer.start).stop = span.stop + outer.start := rfl
  by_cases hblank : span.stop - trail ≤ span.start + lead
  · rw [if_pos hblank, if_pos (by omega)]
    simp only [shift, mk.injEq]
    omega
  · rw [if_neg hblank, if_neg (by omega)]
    simp only [shift, mk.injEq]
    omega

/-- What is left of a slice of a slice without its blanks. -/
theorem slice_trim_shift (horder : span.start ≤ span.stop)
    (h : span.stop ≤ (outer.slice text).length) :
    ((span.shift outer.start).trim text).slice text =
      (span.trim (outer.slice text)).slice (outer.slice text) := by
  have hbounds := trim_bounds horder h
  rw [trim_shift h, slice_shift (by omega)]

end Span

namespace Declaration

/-- The declaration with its value at another place. -/
def moved (place : Span → Span) (declaration : Declaration) : Declaration :=
  ⟨declaration.name, place declaration.value⟩

variable {dialect : Dialect} {right word : Text} {hidden : Bool} {block : Block}

/-- A key declares a value at another place, if that is no empty span. -/
theorem make_moved {key : Text} {value : Span} {place : Span → Span}
    (h : (place value).start < (place value).stop ↔ value.start < value.stop) :
    make? dialect key (place value) = (make? dialect key value).map (moved place) := by
  unfold make?
  cases keyName? dialect key with
  | none => rfl
  | some name =>
    simp only [Option.bind_some, h]
    split
    · split <;> rfl
    · rfl

/-- A colon found in front of a text is the colon found in the whole. -/
theorem colon_append {mode : Scan.Mode} {depth colon : Nat} {front : Text} (rest : Text) :
    colon? dialect mode depth front = some colon ↔
      colon? dialect mode depth (front ++ rest) = some colon ∧ colon < front.length := by
  induction front generalizing mode depth colon with
  | nil => simp [colon?]
  | cons byte front ih =>
    have later : ∀ mode depth, (colon? dialect mode depth front).map (· + 1) = some colon ↔
        (colon? dialect mode depth (front ++ rest)).map (· + 1) = some colon ∧
          colon < (byte :: front).length := by
      intro mode depth
      cases colon with
      | zero => simp
      | succ colon => simp [ih]
    rw [cons_append]
    unfold colon?
    split
    · exact later _ _
    · exact later _ _
    · split
      · exact later _ _
      · split
        · refine ⟨fun h => ⟨h, ?_⟩, And.left⟩
          obtain rfl : 0 = colon := by simpa using h
          exact Nat.zero_lt_succ _
        · exact later _ _

variable {entry : Span} {text left : Text}

/-- An entry declares what its text does. -/
theorem readIn_slice (dialect : Dialect) (hstop : entry.stop ≤ text.length) :
    readIn? dialect text entry =
      (readIn? dialect (entry.slice text) ⟨0, (entry.slice text).length⟩).map
        (moved (·.shift entry.start)) := by
  have hlength := length_slice hstop
  have hwhole : (Span.mk 0 (entry.slice text).length).slice (entry.slice text) = entry.slice text :=
    take_length
  rw [readIn_eq, readIn_eq, hwhole]
  cases hcolon : colon? dialect .code 0 (entry.slice text) with
  | none => rfl
  | some colon =>
    have hlt := colon_lt hcolon
    have hkey := @Span.slice_trim_shift entry ⟨0, 0 + colon⟩ text (Nat.zero_le _)
      (by simp only; omega)
    have hvalue := @Span.trim_shift entry ⟨0 + colon + 1, (entry.slice text).length⟩ text
      (Nat.le_refl _)
    have hkeySpan : (Span.mk 0 (0 + colon)).shift entry.start =
        ⟨entry.start, entry.start + colon⟩ := by
      simp only [shift, Span.mk.injEq]
      omega
    have hvalueSpan : (Span.mk (0 + colon + 1) (entry.slice text).length).shift entry.start =
        ⟨entry.start + colon + 1, entry.stop⟩ := by
      simp only [shift, Span.mk.injEq]
      omega
    rw [Option.bind_some, Option.bind_some, ← hkeySpan, ← hvalueSpan, hkey, hvalue]
    exact @make_moved _ _ _ (·.shift entry.start) Nat.add_lt_add_iff_right

/-- A text that is an entry declares the same whichever word stands behind its colon, up to the
length of the word. -/
theorem readIn_around (hidden : Bool) {colon : Nat}
    (hcolon : colon? dialect .code 0 left = some colon) (hword : IsWord word) :
    readIn? dialect (left ++ veilWord hidden word ++ right)
        ⟨0, (left ++ veilWord hidden word ++ right).length⟩ =
      (readIn? dialect (left ++ veilWord hidden [hyphen] ++ right)
        ⟨0, (left ++ veilWord hidden [hyphen] ++ right).length⟩).map
          (moved (Span.stretch left.length word.length)) := by
  have hlt := colon_lt hcolon
  -- The colon and the key are those of the text before the word.
  have hread : ∀ word, readIn? dialect (left ++ veilWord hidden word ++ right)
      ⟨0, (left ++ veilWord hidden word ++ right).length⟩ =
      make? dialect (((Span.mk 0 colon).trim left).slice left)
        ((Span.mk (colon + 1) (left ++ veilWord hidden word ++ right).length).trim
          (left ++ veilWord hidden word ++ right)) := by
    intro word
    have hleft : (Span.mk 0 left.length).slice (left ++ veilWord hidden word ++ right) = left := by
      rw [append_assoc]
      exact take_left
    have hkey := @Span.slice_trim_shift ⟨0, left.length⟩ ⟨0, colon⟩
      (left ++ veilWord hidden word ++ right) (Nat.zero_le _)
      (by rw [hleft]; exact Nat.le_of_lt hlt)
    rw [hleft] at hkey
    have hwhole : (Span.mk 0 (left ++ veilWord hidden word ++ right).length).slice
        (left ++ veilWord hidden word ++ right) = left ++ (veilWord hidden word ++ right) := by
      rw [← append_assoc]
      exact take_length
    rw [readIn_eq, hwhole, ((colon_append _).mp hcolon).1, Option.bind_some, ← hkey]
    simp only [shift, Nat.zero_add, Nat.add_zero]
  rw [hread, hread, trim_word hidden left right hlt hword]
  exact make_moved stretch_lt_stretch

/-- The colon of an entry around the place stands before the place. -/
def ColonBefore (dialect : Dialect) (left : Text) (entry : Span) : Prop :=
  entry.start ≤ left.length → left.length < entry.stop →
    (colon? dialect .code 0 (left.drop entry.start)).isSome

/-- An entry declares the same whichever word stands at a place, up to the length of the word, if
the place is not before its colon. -/
theorem readIn_word (hstop : entry.stop ≤ (left ++ veilWord hidden [hyphen] ++ right).length)
    (hcolon : ColonBefore dialect left entry) (hword : IsWord word) :
    readIn? dialect (left ++ veilWord hidden word ++ right)
        (entry.stretch left.length word.length) =
      (readIn? dialect (left ++ veilWord hidden [hyphen] ++ right) entry).map
        (moved (Span.stretch left.length word.length)) := by
  obtain ⟨start, stop⟩ := entry
  have hlength := length_veilWord hidden
  have hne := @Dialect.veilWord_ne_nil hidden _ hword.ne_nil
  have hstop' : stretch left.length word.length stop ≤
      (left ++ veilWord hidden word ++ right).length := by
    have hpos := length_pos_iff.mpr hword.ne_nil
    simp only [length_append, hlength, length_singleton] at hstop ⊢
    unfold stretch
    split <;> omega
  rw [readIn_slice dialect hstop, readIn_slice dialect hstop']
  by_cases hapart : stop ≤ left.length ∨ left.length < start
  · -- The text of the entry is the same, so what it declares moves with the entry.
    have hslice : ((Span.mk start stop).stretch left.length word.length).slice
        (left ++ veilWord hidden word ++ right) =
        (Span.mk start stop).slice (left ++ veilWord hidden [hyphen] ++ right) := by
      have hslice := @slice_apart _ left _ right start stop _ (hlength [hyphen]) hne hapart
      rwa [hlength] at hslice
    rw [hslice, Option.map_map]
    refine Option.map_congr fun declaration hread => ?_
    have hbounds := readIn_bounds (Nat.le_refl _) hread
    rw [length_slice hstop] at hbounds
    simp only [moved, Function.comp, shift, Span.stretch, mk.injEq, Span.mk.injEq,
      true_and] at hbounds ⊢
    unfold stretch
    split <;> split <;> split <;> omega
  · -- The colon stands before the word, so the key does too and the word is in the value.
    have hstart : start ≤ left.length := by omega
    have hlt : left.length < stop := by omega
    obtain ⟨colon, hcolon⟩ := Option.isSome_iff_exists.mp (hcolon hstart hlt)
    have hslice : ((Span.mk start stop).stretch left.length word.length).slice
        (left ++ veilWord hidden word ++ right) =
        left.drop start ++ veilWord hidden word ++ right.take (stop - (left.length + 1)) := by
      have hslice := @slice_around _ left _ right start stop hne hstart hlt
      rwa [hlength] at hslice
    have hslice' : (Span.mk start stop).slice (left ++ veilWord hidden [hyphen] ++ right) =
        left.drop start ++ veilWord hidden [hyphen] ++
          right.take (stop - (left.length + 1)) :=
      slice_around_one (hlength [hyphen]) hstart hlt
    rw [hslice, hslice', readIn_around hidden hcolon hword, Option.map_map, Option.map_map]
    refine Option.map_congr fun declaration _ => ?_
    simp only [moved, Function.comp, shift, Span.stretch, length_drop,
      stretch_add hstart, stretch_of_le hstart]

/-! ## Declarations -/

/-- The entries of a block are the same whichever word stands at a place, up to its length. -/
theorem blockEntries_word (hword : IsWord word)
    (hblock : block ∈ Block.scan dialect (left ++ veilWord hidden [hyphen] ++ right)) :
    entriesIn dialect (dialect.visible (left ++ veilWord hidden word ++ right))
        (block.stretch left.length word.length).interior =
      (entriesIn dialect (dialect.visible (left ++ veilWord hidden [hyphen] ++ right))
        block.interior).map (Span.stretch left.length word.length) := by
  obtain ⟨before, seen, after, hbefore, hvisible⟩ := dialect.exists_visible_veilWord ..
  -- The word does not stand for the brace that opens the block.
  have hopening : block.opening ≠ before.length := by
    intro heq
    have hopens := (matched_of_mem_scan hblock).opens
    rw [hvisible hidden Token.isWord_hyphen, heq, append_assoc,
      getElem?_append_right (Nat.le_refl _), Nat.sub_self] at hopens
    cases hidden <;> simp [markWord, veilWord] at hopens <;> exact absurd hopens.1 (by decide)
  rw [hvisible hidden hword, hvisible hidden Token.isWord_hyphen, ← hbefore,
    interior_stretch hopening, entriesIn_word dialect hidden seen before after hword]

theorem stop_le_of_mem_entriesIn (hblock : block ∈ Block.scan dialect text)
    (h : entry ∈ entriesIn dialect (dialect.visible text) block.interior) :
    entry.stop ≤ text.length := by
  have hmatched := matched_of_mem_scan hblock
  have hentry := ((block_entries dialect hmatched).1 entry h).le_stop
  have hclosing := (List.getElem?_eq_some_iff.mp hmatched.closes).1
  rw [length_visible] at hclosing
  omega

/-- Two entries of a text that have a place in common are the same. -/
theorem entry_unique {first second : Block} {left right : Span} {place : Nat}
    (hfirst : first ∈ Block.scan dialect text) (hsecond : second ∈ Block.scan dialect text)
    (hleft : left ∈ entriesIn dialect (dialect.visible text) first.interior)
    (hright : right ∈ entriesIn dialect (dialect.visible text) second.interior)
    (hleftPlace : left.start ≤ place ∧ place < left.stop)
    (hrightPlace : right.start ≤ place ∧ place < right.stop) : left = right := by
  have hmeet : ¬ left.Apart right := by
    unfold Span.Apart
    omega
  have hmatched := matched_of_mem_scan hfirst
  have hmatched' := matched_of_mem_scan hsecond
  obtain ⟨hentries, hpairwise⟩ := block_entries dialect hmatched
  by_cases hblock : first = second
  · subst hblock
    have hsymm : Std.Symm Span.Apart := ⟨fun _ _ => Span.Apart.symm⟩
    have hapart := hpairwise.imp (S := Span.Apart) Or.inl
    exact Classical.byContradiction fun hne => hmeet (hapart.forall hleft hright hne)
  · have hsymm : Std.Symm fun left right : Block => left.closing ≠ right.closing :=
      ⟨fun _ _ => Ne.symm⟩
    have hclosing := (scan_pairwise_ne ..).forall hfirst hsecond hblock
    exact absurd (IsEntry.apart hmatched hmatched' hclosing (hentries left hleft)
      ((block_entries dialect hmatched').1 right hright)) hmeet

/-- A declared value of the text reaches over the bytes. -/
def Covers (dialect : Dialect) (text : Text) (start stop : Nat) : Prop :=
  ∃ block ∈ Block.scan dialect text, ∃ declaration ∈ scan dialect text block.interior,
    declaration.value.start ≤ start ∧ stop ≤ declaration.value.stop

section Declared

variable {left : Text} (hword : IsWord word)
  (hdeclared : Covers dialect (left ++ veilWord hidden word ++ right) left.length
    (left.length + word.length))
include hword hdeclared

/-- If a word stands in a declared value, every entry around its place has its colon before it. -/
theorem colonBefore_of_declared :
    ∀ block ∈ Block.scan dialect (left ++ veilWord hidden [hyphen] ++ right),
      ∀ entry ∈ entriesIn dialect
          (dialect.visible (left ++ veilWord hidden [hyphen] ++ right)) block.interior,
        ColonBefore dialect left entry := by
  intro block hblock entry hentry hstart hlt
  obtain ⟨_, hblock', declaration, hdeclaration, hbegin, hend⟩ := hdeclared
  rw [Block.scan_word dialect hidden left right hword] at hblock'
  obtain ⟨outer, houter, rfl⟩ := mem_map.mp hblock'
  rw [← Block.scan_word dialect hidden left right hword] at hblock'
  obtain ⟨_, hentry', hread⟩ := mem_filterMap.mp hdeclaration
  have hstop := stop_le_of_mem_entriesIn hblock' hentry'
  rw [← entriesIn, blockEntries_word hword houter] at hentry'
  obtain ⟨inner, hinner, rfl⟩ := mem_map.mp hentry'
  obtain ⟨colon, hcolon, hlower, -, hupper⟩ := readIn_colon hstop hread
  obtain ⟨start, stop⟩ := inner
  simp only [Span.stretch] at hlower hupper
  have hpos := length_pos_iff.mpr hword.ne_nil
  -- The place is in the value, hence in the entry and behind its colon.
  have hinnerStart : start ≤ left.length := by
    refine Nat.not_lt.mp fun hafter => ?_
    rw [stretch_of_lt hafter] at hlower
    omega
  have hinnerStop : left.length < stop := by
    refine Nat.not_le.mp fun hbefore => ?_
    rw [stretch_of_le hbefore] at hupper
    omega
  rw [stretch_of_le hinnerStart] at hlower
  -- The entry of the declared value is the one around the place.
  obtain rfl := entry_unique hblock houter hentry hinner ⟨hstart, hlt⟩ ⟨hinnerStart, hinnerStop⟩
  have hslice := @slice_around _ left _ right start stop
    (@Dialect.veilWord_ne_nil hidden _ hword.ne_nil) hinnerStart hinnerStop
  rw [length_veilWord] at hslice
  rw [slice, Span.stretch, hslice, append_assoc] at hcolon
  have hfront := (colon_append _).mpr ⟨hcolon, by rw [length_drop]; omega⟩
  exact Option.isSome_iff_exists.mpr ⟨colon, hfront⟩

/-- If a word stands in a declared value, a block declares the same whichever word stands there, up
to the length of the word. -/
theorem scan_word {other : Text} (hother : IsWord other)
    (hblock : block ∈ Block.scan dialect (left ++ veilWord hidden [hyphen] ++ right)) :
    scan dialect (left ++ veilWord hidden other ++ right)
        (block.stretch left.length other.length).interior =
      (scan dialect (left ++ veilWord hidden [hyphen] ++ right) block.interior).map
        (moved (Span.stretch left.length other.length)) := by
  have hcolon := colonBefore_of_declared hword hdeclared block hblock
  rw [scan, scan, scanVisible, scanVisible, ← entriesIn, ← entriesIn,
    blockEntries_word hother hblock, filterMap_map, map_filterMap]
  refine filterMap_congr fun entry hentry => ?_
  exact readIn_word (stop_le_of_mem_entriesIn hblock hentry) (hcolon entry hentry) hother

end Declared

end Declaration

end Restyle
