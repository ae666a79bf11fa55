import Restyle.Token

/-!
# Where a token occurs

Of a token made of letters, digits and hyphens, an occurrence is a final segment of a longest run of
such bytes: `standsAt_eq_takeWhile` says so of one place, and `replaceMasked_eq_replaceFrom` turns
the replacement of all occurrences into one pass over the text. `occurrences_end_runs` is the main
statement: nothing of an identifier follows an occurrence, what stands before it is the start of its
identifier or one of the identifier's hyphens, and the replacement rewrites each run by itself.
-/

namespace Restyle.Token

open Byte List

/-- The bytes that identifiers are made of: letters, digits and hyphens. -/
def isIdentifierByte (byte : UInt8) : Bool :=
  isAlphanumeric byte || byte == hyphen

theorem rightOpen_eq (ahead : Option UInt8) :
    rightOpen ahead = ahead.all (! isIdentifierByte ·) := by
  cases ahead <;> rfl

theorem getLast?_cons_or (byte : UInt8) (rest : Text) (before : Option UInt8) :
    (byte :: rest).getLast?.or before = rest.getLast?.or (some byte) := by
  rw [getLast?_cons]
  cases rest.getLast? <;> rfl

/-! ## One place -/

variable {token text new : Text} {before : Option UInt8} {offset skip : Nat}

/-- A token made of identifier bytes stands exactly where it is all that is left of a run. -/
theorem standsAt_eq_takeWhile (htoken : ∀ byte ∈ token, isIdentifierByte byte)
    (before : Option UInt8) (rest : Text) :
    standsAt token before rest = (leftOpen before && rest.takeWhile isIdentifierByte == token) := by
  rw [Bool.eq_iff_iff]
  simp only [standsAt, rightOpen_eq, Bool.and_eq_true, isPrefixOf_iff_prefix, beq_iff_eq]
  constructor
  · rintro ⟨⟨⟨later, rfl⟩, hleft⟩, hright⟩
    refine ⟨hleft, ?_⟩
    rw [takeWhile_append_of_pos htoken]
    cases later with
    | nil => simp
    | cons byte later => simp_all
  · rintro ⟨hleft, hrun⟩
    have hsplit : token ++ rest.dropWhile isIdentifierByte = rest := by
      rw [← hrun, takeWhile_append_dropWhile]
    refine ⟨⟨⟨_, hsplit⟩, hleft⟩, ?_⟩
    rw [← hsplit, drop_left]
    cases hdrop : rest.dropWhile isIdentifierByte with
    | nil => rfl
    | cons byte later =>
      have hstop := head?_dropWhile_not isIdentifierByte rest
      simpa [hdrop] using hstop

/-- Every offset that the search finds is not before the place where it begins. -/
theorem le_of_mem_occurrencesFrom {position : Nat}
    (h : position ∈ occurrencesFrom token offset skip before text) : offset ≤ position := by
  induction text generalizing offset skip before with
  | nil => simp [occurrencesFrom] at h
  | cons byte rest ih =>
    cases skip with
    | succ skip =>
      have := ih h
      omega
    | zero =>
      simp only [occurrencesFrom] at h
      split at h
      · rcases mem_cons.mp h with rfl | h
        · exact Nat.le_refl _
        · have := ih h
          omega
      · have := ih h
        omega

/-- The token stands by itself at every offset that the search finds. -/
theorem standsAt_of_mem_occurrencesFrom {position : Nat}
    (h : position ∈ occurrencesFrom token offset skip before text) :
    standsAt token ((text.take (position - offset)).getLast?.or before)
      (text.drop (position - offset)) := by
  induction text generalizing offset skip before with
  | nil => simp [occurrencesFrom] at h
  | cons byte rest ih =>
    have later : ∀ skip, position ∈ occurrencesFrom token (offset + 1) skip (some byte) rest →
        standsAt token (((byte :: rest).take (position - offset)).getLast?.or before)
          ((byte :: rest).drop (position - offset)) := by
      intro skip hmem
      have hle := le_of_mem_occurrencesFrom hmem
      have hstands := ih hmem
      rw [show position - offset = position - (offset + 1) + 1 by omega, take_succ_cons,
        getLast?_cons_or]
      exact hstands
    cases skip with
    | succ skip => exact later skip h
    | zero =>
      simp only [occurrencesFrom] at h
      split at h
      next hstands =>
        rcases mem_cons.mp h with rfl | h
        · simpa using hstands
        · exact later _ h
      · exact later _ h

/-- The token stands by itself at every offset where it occurs. -/
theorem standsAt_of_mem_occurrences (h : offset ∈ occurrences token text) :
    standsAt token (text.take offset).getLast? (text.drop offset) := by
  unfold occurrences at h
  split at h
  · simp at h
  · simpa using standsAt_of_mem_occurrencesFrom h

/-- The token is at an offset of the text, with no letter, digit or underscore before it and no
letter, digit or hyphen behind it. -/
def StandsAlone (token text : Text) (offset : Nat) : Prop :=
  (text.drop offset).take token.length = token ∧
    (∀ byte, offset ≠ 0 → text[offset - 1]? = some byte →
      isAlphanumeric byte = false ∧ byte ≠ underscore) ∧
    ∀ byte, text[offset + token.length]? = some byte →
      isAlphanumeric byte = false ∧ byte ≠ hyphen

theorem standsAt_iff (hne : token ≠ []) :
    standsAt token (text.take offset).getLast? (text.drop offset) ↔
      StandsAlone token text offset := by
  simp only [standsAt, Bool.and_eq_true, isPrefixOf_iff_prefix, prefix_iff_eq_take,
    drop_drop, head?_drop, StandsAlone, and_assoc, @eq_comm _ token]
  refine and_congr_right fun hbegins => and_congr ?_ ?_
  · have hlength := congrArg length hbegins
    rw [length_take, length_drop] at hlength
    have hpositive := length_pos_iff.mpr hne
    have hinside : offset - 1 < text.length := by omega
    rw [getLast?_take]
    split <;> simp_all [leftOpen]
  · cases text[offset + token.length]? <;> simp [rightOpen]

theorem occursIn_iff : occursIn token text ↔ count token text ≠ 0 := by
  simp [occursIn, count]

/-! ## One pass -/

/-- The text with the replacement for every occurrence, made in one pass. Each byte of the text
stands beside its byte of the mask, in which the token is looked for; `before` is the mask's byte in
front, and the next `skip` bytes belong to the occurrence found last. -/
def replaceFrom (token new : Text) (skip : Nat) (before : Option UInt8) :
    List (UInt8 × UInt8) → Text
  | [] => []
  | (byte, shown) :: rest =>
    match skip with
    | skip + 1 => replaceFrom token new skip (some shown) rest
    | 0 =>
      if standsAt token before (shown :: rest.map Prod.snd) then
        new ++ replaceFrom token new (token.length - 1) (some shown) rest
      else byte :: replaceFrom token new 0 (some shown) rest

/-- A splice whose first position is further on keeps the next byte. -/
theorem splice_cons {width : Nat} {byte : UInt8} {positions : List Nat}
    (h : ∀ position ∈ positions, offset + 1 ≤ position) :
    splice width new offset (byte :: text) positions =
      byte :: splice width new (offset + 1) text positions := by
  cases positions with
  | nil => rfl
  | cons position later =>
    have hle := h position (mem_cons_self ..)
    simp only [splice]
    rw [show position - offset = position - (offset + 1) + 1 by omega,
      show position - (offset + 1) + 1 + width = position - (offset + 1) + width + 1 by omega]
    rfl

/-- Splicing at the offsets that the search finds is one pass over text and mask. -/
theorem splice_occurrencesFrom (hne : token ≠ []) {mask : Text}
    (hlength : text.length = mask.length) (offset skip : Nat) (before : Option UInt8) :
    splice token.length new (offset + skip) (text.drop skip)
        (occurrencesFrom token offset skip before mask) =
      replaceFrom token new skip before (text.zip mask) := by
  induction mask generalizing text offset skip before with
  | nil =>
    have : text = [] := length_eq_zero_iff.mp hlength
    subst this
    simp [occurrencesFrom, splice, replaceFrom]
  | cons shown mask ih =>
    cases text with
    | nil => simp at hlength
    | cons byte text =>
      have hlength : text.length = mask.length := by simpa using hlength
      have hmap : (text.zip mask).map Prod.snd = mask := map_snd_zip (Nat.le_of_eq hlength.symm)
      cases skip with
      | succ skip =>
        have hrest := ih hlength (offset + 1) skip (some shown)
        rw [show offset + 1 + skip = offset + (skip + 1) by omega] at hrest
        simpa [occurrencesFrom, replaceFrom] using hrest
      | zero =>
        have hwidth : 0 < token.length := length_pos_iff.mpr hne
        by_cases hstands : standsAt token before (shown :: mask)
        · have hrest := ih hlength (offset + 1) (token.length - 1) (some shown)
          rw [show offset + 1 + (token.length - 1) = offset + token.length by omega] at hrest
          have hdrop : (byte :: text).drop token.length = text.drop (token.length - 1) := by
            rw [show token.length = token.length - 1 + 1 by omega]
            rfl
          simp only [occurrencesFrom, replaceFrom, zip_cons_cons, hmap, hstands, if_true,
            splice, Nat.add_zero, Nat.sub_self, drop_zero, take_zero,
            nil_append, Nat.zero_add, hdrop, hrest]
        · have hrest := ih hlength (offset + 1) 0 (some shown)
          have hlater : ∀ position ∈ occurrencesFrom token (offset + 1) 0 (some shown) mask,
              offset + 1 ≤ position := fun _ => le_of_mem_occurrencesFrom
          simp only [drop_zero, Nat.add_zero] at hrest
          simp only [occurrencesFrom, replaceFrom, zip_cons_cons, hmap, hstands, Bool.false_eq_true,
            if_false, Nat.add_zero, drop_zero, splice_cons hlater, hrest]

/-- Replacing all occurrences is one pass over text and mask. -/
theorem replaceMasked_eq_replaceFrom {mask : Text} (new : Text) (hne : token ≠ [])
    (hlength : text.length = mask.length) :
    replaceMasked text mask token new = replaceFrom token new 0 none (text.zip mask) := by
  have hempty : token.isEmpty = false := by simpa using hne
  have hsplice := @splice_occurrencesFrom token text new hne mask hlength 0 0 none
  simpa [replaceMasked, occurrences, hempty] using hsplice

/-! ## Run by run -/

/-- The run at the start of a text ends with the text's first part if an identifier ends there. -/
theorem takeWhile_append_of_separated {left right : Text} (hne : left ≠ [])
    (hsep : left.getLast?.all (! isIdentifierByte ·) ∨ right.head?.all (! isIdentifierByte ·)) :
    (left ++ right).takeWhile isIdentifierByte = left.takeWhile isIdentifierByte := by
  rw [takeWhile_append]
  split
  next hlength =>
    have hall : left.takeWhile isIdentifierByte = left :=
      (List.takeWhile_prefix _).eq_of_length hlength
    rcases hsep with hlast | hhead
    · have hmem : left.getLast hne ∈ left.takeWhile isIdentifierByte := by
        rw [hall]
        exact getLast_mem hne
      have hident := all_eq_true.mp all_takeWhile _ hmem
      rw [getLast?_eq_some_getLast hne] at hlast
      simp_all
    · cases right with
      | nil => simp [hall]
      | cons byte right =>
        have hbyte : ¬ isIdentifierByte byte := by simpa using hhead
        rw [takeWhile_cons_of_neg hbyte, append_nil, hall]
  · rfl

/-- A pass over two parts goes over one after the other if an identifier ends between them. -/
theorem replaceFrom_append (new : Text) (htoken : ∀ byte ∈ token, isIdentifierByte byte)
    {left right : List (UInt8 × UInt8)} (hskip : skip ≤ left.length)
    (hsep : (left.map Prod.snd).getLast?.all (! isIdentifierByte ·) ∨
      (right.map Prod.snd).head?.all (! isIdentifierByte ·)) :
    replaceFrom token new skip before (left ++ right) = replaceFrom token new skip before left ++
        replaceFrom token new 0 ((left.map Prod.snd).getLast?.or before) right := by
  induction left generalizing skip before with
  | nil =>
    obtain rfl : skip = 0 := by simpa using hskip
    rfl
  | cons first left ih =>
    obtain ⟨byte, shown⟩ := first
    have hrest : (left.map Prod.snd).getLast?.all (! isIdentifierByte ·) ∨
        (right.map Prod.snd).head?.all (! isIdentifierByte ·) := by
      refine hsep.imp_left fun hlast => ?_
      cases left with
      | nil => rfl
      | cons next left => simpa [getLast?_cons_cons] using hlast
    have hstands : standsAt token before (shown :: (left ++ right).map Prod.snd) =
        standsAt token before (shown :: left.map Prod.snd) := by
      rw [standsAt_eq_takeWhile htoken, standsAt_eq_takeWhile htoken, map_append,
        ← cons_append, takeWhile_append_of_separated (cons_ne_nil _ _) hsep]
    cases skip with
    | succ skip =>
      have hskip : skip ≤ left.length := by simpa using hskip
      simp only [cons_append, replaceFrom, map_cons, getLast?_cons_or]
      exact ih hskip hrest
    | zero =>
      simp only [cons_append, replaceFrom, hstands, map_cons, getLast?_cons_or]
      split
      next hfound =>
        -- The occurrence lies in the first part, so the bytes to skip do.
        have hwidth : token.length - 1 ≤ left.length := by
          have hbegins : token <+: shown :: left.map Prod.snd := by
            simp only [standsAt, Bool.and_eq_true, isPrefixOf_iff_prefix] at hfound
            exact hfound.1.1
          have := hbegins.length_le
          simp only [length_cons, length_map] at this
          omega
        rw [ih hwidth hrest, append_assoc]
      · rw [ih (Nat.zero_le _) hrest, cons_append]

/-- A pass that has to skip all that is left writes nothing. -/
theorem replaceFrom_of_length_le {pairs : List (UInt8 × UInt8)}
    (h : pairs.length ≤ skip) : replaceFrom token new skip before pairs = [] := by
  induction pairs generalizing skip before with
  | nil => rfl
  | cons pair pairs ih =>
    cases skip with
    | zero => simp at h
    | succ skip => exact ih (by simpa using h)

/-- A run of identifier bytes after a replacement: if the token is its end and begins with it or
behind one of its hyphens, that end is replaced. -/
def rewriteRun (token new : Text) (before : Option UInt8) (run : Text) : Text :=
  let head := run.take (run.length - token.length)
  if token.isSuffixOf run && leftOpen (head.getLast?.or before) then head ++ new else run

/-- A run whose first byte begins no occurrence keeps that byte. -/
theorem rewriteRun_cons {run : Text} {byte : UInt8}
    (h : ¬ (leftOpen before ∧ byte :: run = token)) :
    rewriteRun token new before (byte :: run) = byte :: rewriteRun token new (some byte) run := by
  by_cases hle : token.length ≤ run.length
  · have hhead : (byte :: run).take ((byte :: run).length - token.length) =
        byte :: run.take (run.length - token.length) := by
      rw [length_cons, show run.length + 1 - token.length = run.length - token.length + 1 by
        omega, take_succ_cons]
    have hsuffix : token.isSuffixOf (byte :: run) = token.isSuffixOf run := by
      rw [Bool.eq_iff_iff, isSuffixOf_iff_suffix, isSuffixOf_iff_suffix, suffix_cons_iff]
      refine or_iff_right fun heq => ?_
      simp only [heq, length_cons] at hle
      omega
    simp only [rewriteRun, hhead, hsuffix, getLast?_cons_or]
    split <;> rfl
  · have hshort : token.isSuffixOf run = false := by
      rw [Bool.eq_false_iff, ne_eq, isSuffixOf_iff_suffix]
      exact fun hsuffix => hle hsuffix.length_le
    have hkept : (token.isSuffixOf (byte :: run) && leftOpen (((byte :: run).take
        ((byte :: run).length - token.length)).getLast?.or before)) = false := by
      rw [Bool.eq_false_iff, ne_eq, Bool.and_eq_true, isSuffixOf_iff_suffix, suffix_cons_iff]
      rintro ⟨heq | hsuffix, hleft⟩
      · subst heq
        exact h ⟨by simpa using hleft, rfl⟩
      · exact hle hsuffix.length_le
    simp only [rewriteRun, hkept, hshort, Bool.false_and, Bool.false_eq_true, if_false]

/-- A pass over a run of identifier bytes replaces its end, if that is an occurrence. -/
theorem replaceFrom_run (new : Text) (hne : token ≠ [])
    (htoken : ∀ byte ∈ token, isIdentifierByte byte) {run : Text}
    (hrun : ∀ byte ∈ run, isIdentifierByte byte) (before : Option UInt8) :
    replaceFrom token new 0 before (run.zip run) = rewriteRun token new before run := by
  induction run generalizing before with
  | nil =>
    have : token.isSuffixOf [] = false := by
      rw [Bool.eq_false_iff, ne_eq, isSuffixOf_iff_suffix, suffix_nil]
      exact hne
    simp [replaceFrom, rewriteRun, this]
  | cons byte run ih =>
    have hwhole : (byte :: run).takeWhile isIdentifierByte = byte :: run :=
      by simpa using @List.takeWhile_append_of_pos _ _ _ [] hrun
    have hsnd : (run.zip run).map Prod.snd = run := map_snd_zip (Nat.le_refl _)
    simp only [zip_cons_cons, replaceFrom, hsnd, standsAt_eq_takeWhile htoken, hwhole,
      Bool.and_eq_true, beq_iff_eq]
    split
    next hfound =>
      obtain ⟨hleft, rfl⟩ := hfound
      rw [replaceFrom_of_length_le (by simp)]
      simp [rewriteRun, hleft]
    next hfound =>
      rw [rewriteRun_cons hfound, ih fun next hmem => hrun next (mem_cons_of_mem _ hmem)]

/-- A replacement in a text goes over its parts one after the other if an identifier ends between
them. -/
theorem replaceFrom_zip_append (new : Text) (htoken : ∀ byte ∈ token, isIdentifierByte byte)
    {left right : Text}
    (hsep : left.getLast?.all (! isIdentifierByte ·) ∨ right.head?.all (! isIdentifierByte ·)) :
    replaceFrom token new 0 before ((left ++ right).zip (left ++ right)) =
      replaceFrom token new 0 before (left.zip left) ++
        replaceFrom token new 0 (left.getLast?.or before) (right.zip right) := by
  have hsnd : ∀ text : Text, (text.zip text).map Prod.snd = text :=
    fun text => map_snd_zip (Nat.le_refl _)
  rw [zip_append rfl, replaceFrom_append new htoken (Nat.zero_le _)
    (by rw [hsnd, hsnd]; exact hsep), hsnd]

/-- What stands in front of a text that begins no identifier makes no difference to a pass. -/
theorem replaceFrom_before (new : Text) (hne : token ≠ [])
    (htoken : ∀ byte ∈ token, isIdentifierByte byte) (hhead : text.head?.all (! isIdentifierByte ·))
    (before other : Option UInt8) :
    replaceFrom token new 0 before (text.zip text) =
      replaceFrom token new 0 other (text.zip text) := by
  cases text with
  | nil => rfl
  | cons byte text =>
    have hapart : ∀ before, standsAt token before
        (byte :: (text.zip text).map Prod.snd) = false := by
      intro before
      have hstop : (byte :: (text.zip text).map Prod.snd).takeWhile isIdentifierByte = [] :=
        takeWhile_cons_of_neg (by simpa using hhead)
      have hempty : ([] == token) = false := by
        cases token with
        | nil => exact absurd rfl hne
        | cons first token => rfl
      rw [standsAt_eq_takeWhile htoken, hstop, hempty, Bool.and_false]
    simp [replaceFrom, hapart]

/-- For a token made of letters, digits and hyphens, no letter, digit or hyphen follows an
occurrence, and no letter, digit or underscore stands before it: it may be the end of a longer
identifier, behind one of its hyphens. A replacement therefore takes a text apart at every longest
run of such bytes, and in each run replaces at most its end. -/
theorem occurrences_end_runs {token : Text} (new text : Text) (hne : token ≠ [])
    (htoken : ∀ byte ∈ token, isIdentifierByte byte) :
    (∀ offset ∈ occurrences token text,
      (text.drop offset).take token.length = token ∧
      (∀ byte, offset ≠ 0 → text[offset - 1]? = some byte →
        Byte.isAlphanumeric byte = false ∧ byte ≠ Byte.underscore) ∧
      (∀ byte, text[offset + token.length]? = some byte →
        Byte.isAlphanumeric byte = false ∧ byte ≠ Byte.hyphen)) ∧
    (∀ left run right, text = left ++ run ++ right →
      (∀ byte ∈ run, isIdentifierByte byte) →
      left.getLast?.all (! isIdentifierByte ·) → right.head?.all (! isIdentifierByte ·) →
      replace text token new = replace left token new ++ rewriteRun token new left.getLast? run ++
          replace right token new) := by
  refine ⟨fun offset hmem => (standsAt_iff hne).mp (standsAt_of_mem_occurrences hmem), ?_⟩
  rintro left run right rfl hrun hleft hright
  simp only [replace, replaceMasked_eq_replaceFrom _ hne rfl]
  rw [append_assoc, replaceFrom_zip_append new htoken (.inl hleft),
    replaceFrom_zip_append new htoken (.inr hright),
    replaceFrom_run new hne htoken hrun, Option.or_none,
    replaceFrom_before new hne htoken hright _ none, append_assoc]

/-- The number `500` occurs at the end of a longer name, and only that end is replaced. -/
theorem occurrences_end_runs_number :
    occurrences (utf8 "500") (utf8 "a --grey-500 500-b") = [9] ∧
    replace (utf8 "a --grey-500 500-b") (utf8 "500") (utf8 "7") =
      replace (utf8 "a ") (utf8 "500") (utf8 "7") ++ utf8 "--grey-7" ++
        replace (utf8 " 500-b") (utf8 "500") (utf8 "7") := by
  refine ⟨by decide, ?_⟩
  rw [(@occurrences_end_runs (utf8 "500") (utf8 "7") (utf8 "a --grey-500 500-b")
    (by decide) (by decide +kernel)).2 (utf8 "a ") (utf8 "--grey-500") (utf8 " 500-b")
    (by decide) (by decide +kernel) (by decide) (by decide)]
  decide

/-- An occurrence is not always a whole identifier: the byte before it may be a hyphen of a longer
one, as for `500` in `--grey-500`. -/
theorem occurrences_not_whole_identifiers :
    ¬ ∀ (token text : Text) (offset : Nat), token ≠ [] →
      (∀ byte ∈ token, isIdentifierByte byte) → offset ∈ occurrences token text →
      (∀ byte, offset ≠ 0 → text[offset - 1]? = some byte → isIdentifierByte byte = false) ∧
      (∀ byte, text[offset + token.length]? = some byte → isIdentifierByte byte = false) := by
  intro h
  have hbefore := (h (utf8 "500") (utf8 "--grey-500") 7 (by decide) (by decide +kernel)
    (by decide)).1
  exact absurd (hbefore Byte.hyphen (by decide) (by decide)) (by decide)

end Restyle.Token
