import Restyle.Proofs.Migration.Comments

/-!
# Occurrences in the parts of a value

A token without blanks that does not begin with a closing parenthesis stands in one part of a value:
nothing of it can lie in a gap, and at the ends of a part the neighbours let it stand as they do at
the ends of a text. So the occurrences of the token in a value are those in its parts, each read by
itself: `Value.occurrences_codeParts`. A composite value is searched part by part, and this search
asks for and counts the same occurrences as the search of the whole value.
-/

namespace Restyle

open Byte List Token

namespace Token

open Enclosure (isFiller)

variable {token : Text}

theorem leftOpen_of_isFiller {byte : UInt8} (h : isFiller byte) :
    leftOpen (some byte) := by
  simp only [isFiller, isSpace, Bool.or_eq_true, beq_iff_eq] at h
  rcases h with ((((rfl | rfl) | rfl) | rfl) | rfl) | rfl <;> rfl

theorem rightOpen_of_isSpace {byte : UInt8} (h : isSpace byte) :
    rightOpen (some byte) := by
  simp only [isSpace, Bool.or_eq_true, beq_iff_eq] at h
  rcases h with (((rfl | rfl) | rfl) | rfl) | rfl <;> rfl

/-- A token without spaces stands in front of a space, or of nothing, as it stands at the end of the
text. -/
theorem standsAt_append (htoken : ∀ byte ∈ token, isSpace byte = false) {rest : Text}
    (hrest : rest.head?.all isSpace) (before : Option UInt8) (part : Text) :
    standsAt token before (part ++ rest) = standsAt token before part := by
  have hopen : ∀ later : Text, rightOpen (later ++ rest).head? = rightOpen later.head? := by
    intro later
    cases later with
    | cons byte later => rfl
    | nil =>
      cases rest with
      | nil => rfl
      | cons space rest => exact rightOpen_of_isSpace hrest
  rw [Bool.eq_iff_iff]
  simp only [standsAt, Bool.and_eq_true, isPrefixOf_iff_prefix]
  constructor
  · rintro ⟨⟨⟨later, hlater⟩, hleft⟩, hright⟩
    -- The token ends in the part, since a space follows the part.
    obtain ⟨more, rfl⟩ : ∃ more, part = token ++ more := by
      rcases append_eq_append_iff.mp hlater with ⟨more, hpart, -⟩ | ⟨more, rfl, hmore⟩
      · exact ⟨more, hpart⟩
      · cases more with
        | nil => exact ⟨[], by simp⟩
        | cons byte more =>
          have hspace := htoken byte (by simp)
          rw [hmore] at hrest
          rw [show isSpace byte from hrest] at hspace
          cases hspace
    rw [append_assoc, drop_left, hopen] at hright
    rw [drop_left]
    exact ⟨⟨prefix_append _ _, hleft⟩, hright⟩
  · rintro ⟨⟨⟨later, rfl⟩, hleft⟩, hright⟩
    rw [drop_left] at hright
    rw [append_assoc, drop_left, hopen]
    exact ⟨⟨prefix_append _ _, hleft⟩, hright⟩

/-- The occurrences of a token without spaces in two texts with a space at the seam, or nothing
behind it, are those in the first text and those in the second. -/
theorem occurrencesFrom_append (htoken : ∀ byte ∈ token, isSpace byte = false) {rest : Text}
    (hrest : rest.head?.all isSpace) {part : Text} {offset skip : Nat}
    {before : Option UInt8} (hskip : skip ≤ part.length) :
    occurrencesFrom token offset skip before (part ++ rest) =
      occurrencesFrom token offset skip before part ++
        occurrencesFrom token (offset + part.length) 0 (part.getLast?.or before) rest := by
  induction part generalizing offset skip before with
  | nil =>
    obtain rfl := Nat.le_zero.mp hskip
    rfl
  | cons byte part ih =>
    have hlength : offset + (byte :: part).length = offset + 1 + part.length := by
      rw [length_cons]
      omega
    rw [hlength, getLast?_cons_or]
    cases skip with
    | succ skip => exact ih (Nat.le_of_succ_le_succ hskip)
    | zero =>
      rw [cons_append, occurrencesFrom, occurrencesFrom, ← cons_append,
        standsAt_append htoken hrest]
      cases hstands : standsAt token before (byte :: part) with
      | false =>
        exact ih (Nat.zero_le _)
      | true =>
        have hwithin : token.length - 1 ≤ part.length := by
          simp only [standsAt, Bool.and_eq_true, isPrefixOf_iff_prefix] at hstands
          have := hstands.1.1.length_le
          omega
        rw [if_pos rfl, if_pos rfl, cons_append, ih hwithin]

/-- The search begins behind a byte that lets a token begin as it begins at the start of a text. -/
theorem occurrencesFrom_of_leftOpen {before : Option UInt8} (h : leftOpen before)
    (offset : Nat) (text : Text) :
    occurrencesFrom token offset 0 before text = occurrencesFrom token offset 0 none text := by
  cases text with
  | nil => rfl
  | cons byte rest =>
    have hstands : standsAt token before (byte :: rest) = standsAt token none (byte :: rest) := by
      rw [standsAt, h]
      rfl
    rw [occurrencesFrom, occurrencesFrom, hstands]

/-- The search passes over spaces and closing parentheses, with which the token does not begin. -/
theorem occurrencesFrom_of_isFiller (htoken : token.head?.any (! isFiller ·)) {gap : Text}
    (hgap : gap.all isFiller) {offset : Nat} {before : Option UInt8} (rest : Text) :
    occurrencesFrom token offset 0 before (gap ++ rest) =
      occurrencesFrom token (offset + gap.length) 0 (gap.getLast?.or before) rest := by
  induction gap generalizing offset before with
  | nil => rfl
  | cons byte gap ih =>
    obtain ⟨hbyte, hgap⟩ := Bool.and_eq_true_iff.mp hgap
    have hstands : standsAt token before (byte :: (gap ++ rest)) = false := by
      cases token with
      | nil => cases htoken
      | cons first more =>
        have hne : (first == byte) = false := by
          rw [beq_eq_false_iff_ne]
          rintro rfl
          simp [hbyte] at htoken
        rw [standsAt, isPrefixOf_cons_cons, hne]
        rfl
    have hlength : offset + (byte :: gap).length = offset + 1 + gap.length := by
      rw [length_cons]
      omega
    rw [cons_append, occurrencesFrom, hstands, if_neg (by simp), ih hgap, hlength, getLast?_cons_or]

/-- The offsets of occurrences are counted from where the search begins. -/
theorem occurrencesFrom_add (base offset skip : Nat) (before : Option UInt8) (text : Text) :
    occurrencesFrom token (base + offset) skip before text =
      (occurrencesFrom token offset skip before text).map (base + ·) := by
  induction text generalizing offset skip before with
  | nil => rfl
  | cons byte rest ih =>
    cases skip with
    | succ skip => exact ih (offset + 1) skip (some byte)
    | zero =>
      rw [occurrencesFrom, occurrencesFrom, Nat.add_assoc, ih, ih]
      split <;> rfl

end Token

/-- A token that occurs in parts as often as in a whole value makes for the same question and the
same change. -/
theorem Resolution.changes_resolveParts {σ : Type} (interaction : Interaction σ) (context : Context)
    (text : Text) {dialect : Dialect} {target : Target} {entry : Entry} {parts : List WorkingPart}
    (changes : List Change) (hflush : entry.token.IsFlush)
    (hcount : parts.foldr (fun part sum => part.count dialect entry.token + sum) 0 =
      Token.count entry.token (dialect.stripComments target.working)) :
    Prod.snd <$> resolveParts interaction context text dialect target entry parts changes =
      Prod.snd <$> resolveValue interaction context text dialect entry target changes := by
  rw [resolveParts_eq, resolveValue_eq]
  simp only [hcount]
  by_cases hzero : Token.count entry.token (dialect.stripComments target.working) = 0
  · rw [if_pos (by simpa using hzero), if_neg fun hoccurs => occursIn_iff.mp hoccurs hzero,
      map_pure, map_pure]
  · rw [if_neg (by simpa using hzero), if_pos (occursIn_iff.mpr hzero), map_bind, map_bind]
    congr 1
    funext replacement
    rw [replaceInParts, replaceIn, Value.replaceText?_eq_some dialect target.working _ hflush]
    split <;> rfl

namespace Value

variable {dialect : Dialect} {tail token : Text} {cells : List Cell}

/-- A token occurs in a value that is laid out in cells where it occurs in their parts. -/
theorem Laid.occurrencesFrom_eq (h : Laid dialect tail cells)
    (hspace : ∀ byte ∈ token, isSpace byte = false)
    (hbegins : token.head?.any (! Enclosure.isFiller ·)) (left : Text)
    {before : Option UInt8} (hbefore : leftOpen before ∨
      (dialect.stripComments (join tail cells)).head?.all isSpace) :
    occurrencesFrom token left.length 0 before (dialect.stripComments (join tail cells)) =
      (places left.length cells).flatMap fun span =>
        (occurrences token
          (dialect.stripComments (span.slice (left ++ join tail cells)))).map (span.start + ·) := by
  have hne : token.isEmpty = false := by
    cases token with
    | nil => cases hbegins
    | cons byte token => rfl
  induction h generalizing left before with
  | nil hfiller =>
    have hnone := @Token.occurrencesFrom_of_isFiller token hbegins _ hfiller left.length before []
    rw [append_nil] at hnone
    exact hnone
  | @cons cell later hgap hpart _ ih =>
    have hrest := hpart.stands.isSpace_head
    rw [join, hgap.stripComments_append, hpart.stripComments_append] at hbefore ⊢
    -- The part begins behind a filler, or where the search begins.
    have hleft : leftOpen ((dialect.stripUntil Scan.start
        (cell.part ++ join tail later).head? cell.gap).getLast?.or before) := by
      cases hlast : (dialect.stripUntil Scan.start
          (cell.part ++ join tail later).head? cell.gap).getLast? with
      | some last =>
        exact leftOpen_of_isFiller (all_eq_true.mp hgap.filler last (mem_of_getLast? hlast))
      | none =>
        rw [getLast?_eq_none_iff.mp hlast] at hbefore
        exact hbefore.resolve_right (hpart.stands.not_isSpace_head _)
    have hlater := fun before => @ih (left ++ (cell.gap ++ cell.part)) before (.inr hrest)
    have hslice : (Span.mk (left.length + cell.gap.length)
        (left.length + cell.gap.length + cell.part.length)).slice
          (left ++ (cell.gap ++ (cell.part ++ join tail later))) = cell.part := by
      rw [Span.slice, ← append_assoc, ← length_append, drop_left,
        Nat.add_sub_cancel_left, take_left]
    rw [occurrencesFrom_of_isFiller hbegins hgap.filler,
      occurrencesFrom_append hspace hrest (Nat.zero_le _),
      occurrencesFrom_of_leftOpen hleft, Dialect.length_stripUntil,
      Dialect.length_stripUntil, places, flatMap_cons, hslice, hpart.stripComments_eq]
    simp only [length_append, append_assoc, ← Nat.add_assoc] at hlater
    rw [hlater, occurrences, hne]
    congr 1
    exact occurrencesFrom_add _ 0 0 none _

/-- A token without blanks that does not begin with a closing parenthesis occurs in a style value
without quotation marks where it occurs in the parts of the value, each read by itself. So it is
counted in the parts as often as in the value, and a composite value makes for the same question and
the same change as a value that is searched as a whole. -/
theorem occurrences_codeParts {value : Text} (hdialect : dialect ≠ .script)
    (hunquoted : ∀ byte ∈ value, byte ≠ Byte.doubleQuote ∧ byte ≠ Byte.apostrophe)
    (hblank : Text.hasBlank token = false) (hparen : token.head? ≠ some Byte.closeParen) :
    Token.occurrences token (dialect.stripComments value) =
        ((codeParts dialect value).flatMap fun span =>
          (Token.occurrences token (dialect.stripComments (span.slice value))).map
            (span.start + ·)) ∧
      sumBy (fun span => Token.count token (dialect.stripComments (span.slice value)))
          (codeParts dialect value) =
        Token.count token (dialect.stripComments value) ∧
      ∀ {σ : Type} (interaction : Interaction σ) (context : Context) (text : Text) (entry : Entry)
        (target : Target) (changes : List Change), entry.token = token → target.working = value →
        Prod.snd <$> Resolution.resolveParts interaction context text dialect target entry
            ((codeParts dialect value).map fun span => ⟨span.slice value, false⟩) changes =
          Prod.snd <$> Resolution.resolveValue interaction context text dialect entry target
            changes := by
  have hoccurrences : occurrences token (dialect.stripComments value) =
      (codeParts dialect value).flatMap fun span =>
        (occurrences token (dialect.stripComments (span.slice value))).map
          (span.start + ·) := by
    cases token with
    | nil => simp [occurrences]
    | cons first more =>
      have hspace := Text.isSpace_of_hasBlank hblank
      have hbegins : (first :: more).head?.any (! Enclosure.isFiller ·) = true := by
        have hclose : (first == closeParen) = false := by simpa using hparen
        simp [Enclosure.isFiller, hspace first mem_cons_self, hclose]
      obtain ⟨tail, cells, rfl, hlaid⟩ := exists_laid hdialect value
        (Scan.hasPlainLiterals_of_unquoted hdialect start_ne_escape rfl hunquoted)
      rw [hlaid.codeParts_join]
      exact hlaid.occurrencesFrom_eq hspace hbegins [] (.inl rfl)
  have hcount : sumBy (fun span => Token.count token (dialect.stripComments (span.slice value)))
      (codeParts dialect value) = Token.count token (dialect.stripComments value) := by
    unfold Token.count
    rw [hoccurrences, length_flatMap_eq_sumBy]
    simp only [length_map]
  refine ⟨hoccurrences, hcount, ?_⟩
  rintro σ interaction context text entry target changes rfl rfl
  refine Resolution.changes_resolveParts _ _ _ _ (Text.isFlush_of_hasBlank hblank) ?_
  rw [← hcount, foldr_map]
  rfl

/-- A list with a parenthesis too many in front, comments at both ends of a part and inside one, a
comment that ends with its line, and an open parenthesis at the end. -/
def crowdedList : Text :=
  utf8 ") --a/* --a */var(--a /* --a */)// --a\n x(--a --a"

/-- The four occurrences in the code of the crowded list are those in its parts. -/
theorem occurrences_codeParts_crowdedList :
    (codeParts .scss crowdedList = [⟨2, 5⟩, ⟨14, 32⟩, ⟨40, 49⟩] ∧
      Text.hasBlank (utf8 "--a") = false) ∧
      sumBy (fun span => Token.count (utf8 "--a")
        (Dialect.scss.stripComments (span.slice crowdedList)))
        (codeParts .scss crowdedList) = 4 := by
  have hblank : Text.hasBlank (utf8 "--a") = false := by decide
  refine ⟨⟨by decide, hblank⟩, ?_⟩
  rw [(@occurrences_codeParts .scss (utf8 "--a") crowdedList (by decide) (by decide +kernel) hblank
    (by decide)).2.1]
  decide

end Value

end Restyle
