import Restyle.Proofs.Token.Leftmost

/-!
# References put into a value in one pass

A token is replaced by a reference in two passes: the first puts the reference for every reference
to the token, the second puts it for what is left of the token. `Value.passFrom_mended` makes the
two passes one, since no token stands across the seams of an inserted reference. Only in the
inserted reference itself is the token replaced once more. `Value.replaceToken_once` says so of a
value, and when it comes to the same as replacing everything once.
-/

namespace Restyle

open List Text Token

namespace Value

open Token (standsAt standsIn findOne findAt passFrom passAt passAt_done lastShown rightOpen
  leftOpen)

/-! ## Openings beside a token -/

/-- Only a byte of an identifier stands behind a token whose end lies in the opening of a
reference. -/
theorem rightOpen_of_opening {token ending later : Text}
    (hopening : ¬ utf8 "var(" <:+: token ++ utf8 "(") (hending : ending <:+ token)
    (hne : ending ≠ []) (h : utf8 "var(" <+: ending ++ later) :
    rightOpen later.head? = false := by
  rw [opening_eq] at h hopening
  rw [show utf8 "(" = [0x28] from rfl] at hopening
  obtain ⟨front, rfl⟩ := hending
  obtain ⟨rest, hrest⟩ := h
  -- How much of the opening lies in the ending.
  match ending, hne with
  | [first], _ =>
    simp only [cons_append, nil_append, cons.injEq] at hrest
    obtain ⟨-, rfl⟩ := hrest
    rfl
  | [first, second], _ =>
    simp only [cons_append, nil_append, cons.injEq] at hrest
    obtain ⟨-, -, rfl⟩ := hrest
    rfl
  | [first, second, third], _ =>
    simp only [cons_append, nil_append, cons.injEq] at hrest
    obtain ⟨rfl, rfl, rfl, -⟩ := hrest
    exact absurd ⟨front, [], by simp⟩ hopening
  | first :: second :: third :: fourth :: more, _ =>
    simp only [cons_append, nil_append, cons.injEq] at hrest
    obtain ⟨rfl, rfl, rfl, rfl, -⟩ := hrest
    exact absurd ⟨front, more ++ [0x28], by simp⟩ hopening

/-- A token that stands by itself ends before the next opening of a reference. -/
theorem length_le_of_standsAt {token text : Text} {before : Option UInt8} {place : Nat}
    (hopening : ¬ utf8 "var(" <:+: token ++ utf8 "(") (hstands : standsAt token before text)
    (hplace : utf8 "var(" <+: text.drop place) : token.length ≤ place := by
  simp only [standsAt, Bool.and_eq_true, isPrefixOf_iff_prefix] at hstands
  obtain ⟨⟨⟨later, rfl⟩, -⟩, hright⟩ := hstands
  rw [drop_left] at hright
  refine Nat.le_of_not_lt fun hlt => ?_
  have hne : token.drop place ≠ [] := by
    rw [ne_eq, drop_eq_nil_iff]
    omega
  rw [drop_append_of_le_length (by omega)] at hplace
  have hclosed := rightOpen_of_opening hopening (drop_suffix ..) hne hplace
  rw [hclosed] at hright
  cases hright

/-- A token that stands at an offset ends before the opening of a reference further on. -/
theorem add_length_le_of_standsIn {token mask : Text} {offset place : Nat}
    (hopening : ¬ utf8 "var(" <:+: token ++ utf8 "(") (hstands : standsIn token mask offset)
    (hle : offset ≤ place) (hplace : utf8 "var(" <+: mask.drop place) :
    offset + token.length ≤ place := by
  rw [show place = offset + (place - offset) by omega, ← drop_drop] at hplace
  have := length_le_of_standsAt hopening hstands hplace
  omega

/-! ## One pass -/

/-- Finds the reference to a token where it stands by itself, and elsewhere the token. -/
def findEach (token whole bare : Text) (before : Option UInt8) (text : Text) :
    Option (Nat × Text) :=
  if standsAt (referTo token) before text then some ((referTo token).length, whole)
  else findOne token bare before text

/-- The value after one pass over it that puts `whole` for every reference to the token and `bare`
for every other occurrence of the token, both outside comments. -/
def replaceOnce (dialect : Dialect) (value token whole bare : Text) : Text :=
  passFrom (findEach token whole bare) Prod.fst 0 none (value.zip (dialect.stripComments value))

theorem opening_prefix_referTo (token : Text) : utf8 "var(" <+: referTo token := by
  rw [referTo, append_assoc]
  exact prefix_append _ _

theorem referTo_ne_nil (token : Text) : referTo token ≠ [] := by
  intro hnil
  have hopening := opening_prefix_referTo token
  rw [hnil, prefix_nil] at hopening
  exact opening_ne_nil hopening

theorem getLast?_of_isReference {reference : Text} (h : isReference reference) :
    reference.getLast? = some Byte.closeParen := by
  simp only [isReference, endsWith, Bool.and_eq_true, isSuffixOf_iff_suffix] at h
  obtain ⟨-, front, rfl⟩ := h
  rw [closing_eq, getLast?_concat]

theorem isReference_referTo (token : Text) : isReference (referTo token) := by
  simp only [isReference, startsWith, endsWith, Bool.and_eq_true,
    isPrefixOf_iff_prefix, isSuffixOf_iff_suffix]
  exact ⟨opening_prefix_referTo token, suffix_append _ _⟩

theorem opening_prefix_of_isReference {reference : Text} (h : isReference reference) :
    utf8 "var(" <+: reference := by
  simp only [isReference, startsWith, Bool.and_eq_true, isPrefixOf_iff_prefix] at h
  exact h.1

section Steps

variable {token whole bare mask : Text} {pairs : List (UInt8 × UInt8)} {offset : Nat}

/-- What the pass finds: a reference to the token, or else the token. -/
theorem findAt_eq_some_iff {found : Nat × Text} :
    findAt (findEach token whole bare) mask offset = some found ↔
      (standsIn (referTo token) mask offset ∧ ((referTo token).length, whole) = found) ∨
      (standsIn (referTo token) mask offset = false ∧
        (token ≠ [] ∧ standsIn token mask offset) ∧ (token.length, bare) = found) := by
  show (if standsIn (referTo token) mask offset then _ else findOne token bare _ _) = _ ↔ _
  cases hwhole : standsIn (referTo token) mask offset with
  | true => simp
  | false =>
    simp only [Bool.false_eq_true, if_false, false_and, false_or, true_and]
    exact findOne_eq_some_iff

theorem findAt_eq_none_iff :
    findAt (findEach token whole bare) mask offset = none ↔
      standsIn (referTo token) mask offset = false ∧
        (token ≠ [] → standsIn token mask offset = false) := by
  show (if standsIn (referTo token) mask offset then _ else findOne token bare _ _) = _ ↔ _
  cases hwhole : standsIn (referTo token) mask offset with
  | true => simp
  | false =>
    simp only [Bool.false_eq_true, if_false, true_and, findOne_eq_none_iff, not_and,
      Bool.not_eq_true]
    exact Iff.rfl

theorem pos_of_findAt {width : Nat} {new : Text}
    (h : findAt (findEach token whole bare) mask offset = some (width, new)) : 0 < width := by
  rcases findAt_eq_some_iff.mp h with ⟨-, hfound⟩ | ⟨-, ⟨hne, -⟩, hfound⟩
  · rw [← (Prod.mk.inj hfound).1]
    exact length_pos_iff.mpr (referTo_ne_nil token)
  · rw [← (Prod.mk.inj hfound).1]
    exact length_pos_iff.mpr hne

theorem passAt_whole (hoffset : offset < pairs.length)
    (hwhole : standsIn (referTo token) (pairs.map Prod.snd) offset) :
    passAt (findEach token whole bare) Prod.fst pairs offset =
      whole ++ passAt (findEach token whole bare) Prod.fst pairs
        (offset + (referTo token).length) := by
  refine passAt_found hoffset (length_pos_iff.mpr (referTo_ne_nil token)) ?_
  exact findAt_eq_some_iff.mpr (.inl ⟨hwhole, rfl⟩)

theorem passAt_bare (hoffset : offset < pairs.length)
    (hwhole : standsIn (referTo token) (pairs.map Prod.snd) offset = false) (hne : token ≠ [])
    (hbare : standsIn token (pairs.map Prod.snd) offset) :
    passAt (findEach token whole bare) Prod.fst pairs offset =
      bare ++ passAt (findEach token whole bare) Prod.fst pairs (offset + token.length) := by
  refine passAt_found hoffset (length_pos_iff.mpr hne) ?_
  exact findAt_eq_some_iff.mpr (.inr ⟨hwhole, ⟨hne, hbare⟩, rfl⟩)

theorem passAt_neither (hwhole : standsIn (referTo token) (pairs.map Prod.snd) offset = false)
    (hbare : token ≠ [] → standsIn token (pairs.map Prod.snd) offset = false) :
    passAt (findEach token whole bare) Prod.fst pairs offset =
      ((pairs.drop offset).take 1).map Prod.fst ++
        passAt (findEach token whole bare) Prod.fst pairs (offset + 1) :=
  passAt_kept (findAt_eq_none_iff.mpr ⟨hwhole, hbare⟩)

/-- From offset to offset of a pass that looks for references to a token and for the token. -/
theorem offset_induction (token mask : Text) {motive : Nat → Prop}
    (done : ∀ offset, mask.length ≤ offset → motive offset)
    (whole : ∀ offset, offset < mask.length → standsIn (referTo token) mask offset →
      motive (offset + (referTo token).length) → motive offset)
    (bare : ∀ offset, offset < mask.length → standsIn (referTo token) mask offset = false →
      token ≠ [] → standsIn token mask offset → motive (offset + token.length) →
      motive offset)
    (kept : ∀ offset, offset < mask.length → standsIn (referTo token) mask offset = false →
      (token ≠ [] → standsIn token mask offset = false) → motive (offset + 1) → motive offset)
    (offset : Nat) : motive offset := by
  -- What is put for the token does not matter.
  have hwidth : ∀ offset width new, findAt (findEach token [] []) mask offset = some (width, new) →
      0 < width := fun _ _ _ => pos_of_findAt
  induction offset using pass_induction hwidth with
  | done offset hdone => exact done offset hdone
  | found offset width new hoffset hfind ih =>
    rcases findAt_eq_some_iff.mp hfind with ⟨hwhole, hfound⟩ | ⟨hwhole, ⟨hne, hbare⟩, hfound⟩
    · obtain ⟨rfl, -⟩ := Prod.mk.inj hfound
      exact whole offset hoffset hwhole ih
    · obtain ⟨rfl, -⟩ := Prod.mk.inj hfound
      exact bare offset hoffset hwhole hne hbare ih
  | kept offset hoffset hfind ih =>
    obtain ⟨hwhole, hbare⟩ := findAt_eq_none_iff.mp hfind
    exact kept offset hoffset hwhole hbare ih

end Steps

/-! ## What becomes of an inserted reference -/

/-- What makes the two passes of a replacement one. The token is put in place of a reference without
a trace in the comments (`fits`); no reference begins in the token or right at its end (`opening`);
and no end of the replacement begins the token (`ends`). -/
@[mk_iff]
structure OnePass (dialect : Dialect) (token new : Text) : Prop where
  fits : dialect.Fits token new
  reference : isReference new
  opening : ¬ utf8 "var(" <:+: token ++ utf8 "("
  ends : ∀ index < new.length, ¬ new.drop index <+: token

/-- Whether a replacement fits a token can be computed. -/
instance (dialect : Dialect) (token new : Text) : Decidable (dialect.Fits token new) :=
  haveI : Decidable (∀ byte ∈ token, byte ≠ Byte.space ∧ byte ≠ Byte.newline) :=
    decidableBAll _ token
  decidable_of_iff' _ (Dialect.fits_iff dialect token new)

/-- Whether the two passes are one can be computed. -/
instance (dialect : Dialect) (token new : Text) : Decidable (OnePass dialect token new) :=
  haveI : Decidable (utf8 "var(" <:+: token ++ utf8 "(") :=
    instDecidableIsInfixOfDecidableEq _ _
  decidable_of_iff' _ (onePass_iff dialect token new)

theorem OnePass.length_pos {dialect : Dialect} {token new : Text}
    (h : OnePass dialect token new) : 0 < new.length := by
  have hne : new ≠ [] := by
    rintro rfl
    exact absurd h.reference (by decide)
  exact length_pos_iff.mpr hne

section Inserted

variable {token new : Text}

theorem standsAt_append {ending : Text} (hends : ¬ ending <+: token) (before : Option UInt8)
    (later : Text) : standsAt token before (ending ++ later) = standsAt token before ending := by
  have hinside : token <+: ending ++ later → token <+: ending ∧ token.length < ending.length := by
    intro htoken
    rcases prefix_or_prefix_of_prefix htoken (prefix_append ..) with h | h
    · refine ⟨h, Nat.lt_of_le_of_ne h.length_le fun heq => hends ?_⟩
      exact h.eq_of_length heq ▸ prefix_rfl
    · exact absurd h hends
  have hhead : token.length < ending.length →
      ((ending ++ later).drop token.length).head? = (ending.drop token.length).head? := by
    intro hlt
    rw [head?_drop, head?_drop, getElem?_append_left hlt]
  rw [Bool.eq_iff_iff]
  simp only [standsAt, Bool.and_eq_true, isPrefixOf_iff_prefix]
  constructor
  · rintro ⟨⟨htoken, hleft⟩, hright⟩
    obtain ⟨hbegins, hlt⟩ := hinside htoken
    exact ⟨⟨hbegins, hleft⟩, hhead hlt ▸ hright⟩
  · rintro ⟨⟨htoken, hleft⟩, hright⟩
    have hbegins := htoken.trans (prefix_append ending later)
    exact ⟨⟨hbegins, hleft⟩, (hhead (hinside hbegins).2).symm ▸ hright⟩

/-- Replacing a token in a text is a pass that may begin wherever a token may. -/
theorem replace_eq_passFrom (text token new : Text) {before : Option UInt8}
    (h : leftOpen before) :
    Token.replace text token new =
      passFrom (findOne token new) Prod.fst 0 before (text.zip text) := by
  rw [Token.replace, replaceMasked_eq_passFrom rfl]
  cases text with
  | nil => rfl
  | cons byte rest =>
    have hfind : ∀ shown, findOne token new none shown = findOne token new before shown := by
      intro shown
      rw [findOne, findOne, standsAt, standsAt, h]
      rfl
    rw [zip_cons_cons, passFrom, hfind, passFrom]

/-- A pass that looks for the token in an end of the replacement goes no further. -/
theorem passFrom_ending (hends : ∀ index < new.length, ¬ new.drop index <+: token)
    (other : Text) {ending : Text} (hending : ending <:+ new) {skip : Nat}
    (hskip : skip ≤ ending.length) (before : Option UInt8) (later : List (UInt8 × UInt8)) :
    passFrom (findOne token other) Prod.fst skip before (ending.zip ending ++ later) =
      passFrom (findOne token other) Prod.fst skip before (ending.zip ending) ++
        passFrom (findOne token other) Prod.fst 0 (ending.getLast?.or before) later := by
  induction ending generalizing skip before with
  | nil =>
    obtain rfl : skip = 0 := by simpa using hskip
    rfl
  | cons byte rest ih =>
    have hrest := fun skip => @ih ((suffix_cons ..).trans hending) skip
    rw [getLast?_cons_or]
    cases skip with
    | succ skip => exact hrest skip (by simpa using hskip) (some byte)
    | zero =>
      have hshort : ¬ byte :: rest <+: token := by
        have hlength := hending.length_le
        rw [length_cons] at hlength
        rw [suffix_iff_eq_drop.mp hending]
        exact hends _ (by rw [length_cons]; omega)
      have hmask : (rest.zip rest).map Prod.snd = rest := map_snd_zip (Nat.le_refl _)
      have hfind : findOne token other before (byte :: (rest.zip rest ++ later).map Prod.snd) =
          findOne token other before (byte :: rest) := by
        rw [map_append, hmask, ← cons_append, findOne, findOne, standsAt_append hshort]
      simp only [zip_cons_cons, cons_append, passFrom, hfind, hmask]
      cases hfound : findOne token other before (byte :: rest) with
      | none => simp only [hrest 0 (Nat.zero_le _), cons_append]
      | some found =>
        -- The token lies in the ending, so the bytes to skip do.
        obtain ⟨⟨-, hstands⟩, rfl⟩ := findOne_eq_some_iff.mp hfound
        have hwidth : token.length - 1 ≤ rest.length := by
          simp only [standsAt, Bool.and_eq_true, isPrefixOf_iff_prefix] at hstands
          have hlength := hstands.1.1.length_le
          rw [length_cons] at hlength
          omega
        simp only [hrest _ hwidth, append_assoc]

end Inserted

section Mended

variable {dialect : Dialect} {token new : Text} {pairs : List (UInt8 × UInt8)} {offset : Nat}

/-- What the first pass makes of a text beside its mask from an offset on: the replacement stands
for every reference to the token, in the text and in the mask. -/
def mended (token new : Text) (pairs : List (UInt8 × UInt8)) (offset : Nat) :
    List (UInt8 × UInt8) :=
  passAt (findOne (referTo token) (new.zip new)) id pairs offset

theorem mended_whole (hoffset : offset < pairs.length)
    (hwhole : standsIn (referTo token) (pairs.map Prod.snd) offset) :
    mended token new pairs offset =
      new.zip new ++ mended token new pairs (offset + (referTo token).length) :=
  passAt_found hoffset (length_pos_iff.mpr (referTo_ne_nil token))
    (findOne_eq_some_iff.mpr ⟨⟨referTo_ne_nil token, hwhole⟩, rfl⟩)

theorem mended_missed {count : Nat} (h : ∀ place, offset ≤ place → place < offset + count →
      standsIn (referTo token) (pairs.map Prod.snd) place = false) :
    mended token new pairs offset =
      (pairs.drop offset).take count ++ mended token new pairs (offset + count) := by
  have hmissed := @Token.passAt_missed _ (findOne (referTo token) (new.zip new)) id
    pairs offset count fun place hle hlt => findOne_eq_none_iff.mpr fun hfound =>
      Bool.eq_false_iff.mp (h place hle hlt) hfound.2
  rwa [map_id] at hmissed

theorem mended_kept (h : standsIn (referTo token) (pairs.map Prod.snd) offset = false) :
    mended token new pairs offset =
      (pairs.drop offset).take 1 ++ mended token new pairs (offset + 1) := by
  refine mended_missed fun place hle hlt => ?_
  rwa [show place = offset by omega]

/-- A reference that stands somewhere begins there. -/
theorem opening_of_standsIn {mask : Text} (h : standsIn (referTo token) mask offset) :
    utf8 "var(" <+: mask.drop offset :=
  (opening_prefix_referTo token).trans (prefix_of_standsIn h)

theorem head?_of_begins {start text : Text} (hne : start ≠ []) (h : start <+: text) :
    text.head? = start.head? := by
  obtain ⟨later, rfl⟩ := h
  cases start with
  | nil => exact absurd rfl hne
  | cons byte rest => rfl

theorem head?_mended (hreference : isReference new) (token : Text)
    (pairs : List (UInt8 × UInt8)) (offset : Nat) :
    ((mended token new pairs offset).map Prod.snd).head? =
      ((pairs.map Prod.snd).drop offset).head? := by
  by_cases hoffset : pairs.length ≤ offset
  · rw [mended, passAt_done hoffset, drop_eq_nil_of_le (by simpa using hoffset)]
    rfl
  · cases hwhole : standsIn (referTo token) (pairs.map Prod.snd) offset with
    | true =>
      have hopening := opening_prefix_of_isReference hreference
      rw [mended_whole (Nat.lt_of_not_le hoffset) hwhole, map_append, map_snd_zip (Nat.le_refl _),
        head?_of_begins opening_ne_nil (opening_of_standsIn hwhole),
        head?_of_begins opening_ne_nil (hopening.trans (prefix_append _ _))]
    | false =>
      have hfirst : ((pairs.drop offset).take 1).map Prod.snd ≠ [] := by
        simpa using Nat.lt_of_not_le hoffset
      rw [mended_kept hwhole, map_append,
        head?_of_begins hfirst (prefix_append _ _), map_take, map_drop]
      exact (head?_of_begins (by simpa using hfirst) (List.take_prefix _ _)).symm

section Mended

variable (h : OnePass dialect token new)
include h

/-- Where a token stands in a mended mask, no reference was mended. -/
theorem standsIn_of_mended {before : Option UInt8}
    (hstands : standsAt token before ((mended token new pairs offset).map Prod.snd))
    {count : Nat} (hcount : count ≤ token.length) (place : Nat) (hle : offset ≤ place)
    (hlt : place < offset + count) :
    standsIn (referTo token) (pairs.map Prod.snd) place = false := by
  induction count generalizing place with
  | zero => omega
  | succ count ih =>
    have hbefore := ih (by omega)
    by_cases hlast : place < offset + count
    · exact hbefore place hle hlast
    · obtain rfl : place = offset + count := by omega
      refine Bool.eq_false_iff.mpr fun hwhole => ?_
      have hplace : offset + count < pairs.length := by
        simpa using lt_length_of_standsIn (referTo_ne_nil token) hwhole
      have hopening : utf8 "var(" <+:
          ((mended token new pairs offset).map Prod.snd).drop count := by
        rw [mended_missed hbefore, mended_whole hplace hwhole, map_append,
          map_append, map_snd_zip (Nat.le_refl _), drop_left' (by simp; omega)]
        exact (opening_prefix_of_isReference h.reference).trans (prefix_append _ _)
      have := length_le_of_standsAt h.opening hstands hopening
      omega

/-- A token without the opening of a reference stands in a mended mask only where it stood before.
-/
theorem standsAt_of_mended {before : Option UInt8} (hstands :
      standsAt token before ((mended token new pairs offset).map Prod.snd)) :
    standsAt token before ((pairs.map Prod.snd).drop offset) := by
  have hhead := head?_mended h.reference token pairs (offset + token.length)
  rw [mended_missed (standsIn_of_mended h hstands (Nat.le_refl _)), map_append, map_take,
    map_drop] at hstands
  simp only [standsAt, Bool.and_eq_true, isPrefixOf_iff_prefix] at hstands ⊢
  obtain ⟨⟨htoken, hleft⟩, hright⟩ := hstands
  have hlength : token.length ≤ ((pairs.map Prod.snd).drop offset).length := by
    refine Nat.le_of_not_lt fun hlt => ?_
    rw [length_drop, length_map] at hlt
    rw [mended, passAt_done (by omega), map_nil, append_nil] at htoken
    have := htoken.length_le
    simp only [length_take, length_drop, length_map] at this
    omega
  have hbegins := prefix_of_prefix_length_le htoken (prefix_append _ _)
    (Nat.le_of_eq (length_take_of_le hlength).symm)
  rw [drop_left' (length_take_of_le hlength), hhead, ← drop_drop] at hright
  exact ⟨⟨hbegins.trans (List.take_prefix _ _), hleft⟩, hright⟩

/-- The first pass keeps a token that stands by itself. -/
theorem mended_bare (hbare : standsIn token (pairs.map Prod.snd) offset) :
    ∃ kept, kept.map Prod.snd = token ∧
      lastShown (lastShown none (pairs.take offset)) kept =
        lastShown none (pairs.take (offset + token.length)) ∧
      mended token new pairs offset = kept ++ mended token new pairs (offset + token.length) := by
  have hmissed : ∀ place, offset ≤ place → place < offset + token.length →
      standsIn (referTo token) (pairs.map Prod.snd) place = false := by
    intro place hle hlt
    refine Bool.eq_false_iff.mpr fun hfound => ?_
    have := add_length_le_of_standsIn h.opening hbare hle (opening_of_standsIn hfound)
    omega
  refine ⟨(pairs.drop offset).take token.length, ?_, lastShown_take .., mended_missed hmissed⟩
  rw [map_take, map_drop, ← prefix_iff_eq_take.mp (prefix_of_standsIn hbare)]

/-- A token that stands by itself does so behind the first pass. -/
theorem standsAt_mended (hbare : standsIn token (pairs.map Prod.snd) offset) :
    standsAt token ((pairs.map Prod.snd).take offset).getLast?
      ((mended token new pairs offset).map Prod.snd) := by
  obtain ⟨kept, hkept, -, hmended⟩ := mended_bare h hbare
  simp only [standsIn, standsAt, Bool.and_eq_true, isPrefixOf_iff_prefix] at hbare ⊢
  rw [hmended, map_append, hkept, drop_left, head?_mended h.reference, ← drop_drop]
  exact ⟨⟨prefix_append _ _, hbare.1.2⟩, hbare.2⟩

/-- The second pass over what the first one made is one pass over the text, in which a reference
gives way to the replacement with the token replaced in it. -/
theorem passFrom_mended (pairs : List (UInt8 × UInt8)) (offset : Nat) :
    passFrom (findOne token new) Prod.fst 0 (lastShown none (pairs.take offset))
        (mended token new pairs offset) =
      passAt (findEach token (Token.replace new token new) new) Prod.fst pairs offset := by
  have hmask : (pairs.map Prod.snd).length = pairs.length := length_map _
  have hbefore : ∀ offset, lastShown none (pairs.take offset) =
      ((pairs.map Prod.snd).take offset).getLast? := by
    intro offset
    rw [lastShown, map_take, Option.or_none]
  induction offset using offset_induction token (pairs.map Prod.snd) with
  | done offset hdone =>
    rw [hmask] at hdone
    rw [mended, passAt_done hdone, passAt_done hdone, passFrom]
  | whole offset hoffset hwhole ih =>
    rw [hmask] at hoffset
    have hlast : new.getLast?.or (lastShown none (pairs.take offset)) =
        lastShown none (pairs.take (offset + (referTo token).length)) := by
      rw [hbefore (offset + _), take_of_standsIn hwhole, getLast?_append,
        getLast?_of_isReference (isReference_referTo token), getLast?_of_isReference h.reference]
      rfl
    have hleft : leftOpen (lastShown none (pairs.take offset)) := by
      rw [hbefore]
      exact leftOpen_of_standsIn hwhole
    rw [mended_whole hoffset hwhole, passAt_whole hoffset hwhole,
      passFrom_ending h.ends new (suffix_refl _) (Nat.zero_le _), hlast, ih,
      replace_eq_passFrom new token new hleft]
  | bare offset hoffset hwhole hne hbare ih =>
    rw [hmask] at hoffset
    obtain ⟨kept, hkept, hlast, hmended⟩ := mended_bare h hbare
    have hwidth : kept.length = token.length := by rw [← hkept, length_map]
    have hfind : findOne token new (lastShown none (pairs.take offset))
        ((mended token new pairs offset).map Prod.snd) = some (token.length, new) := by
      rw [hbefore]
      exact findOne_eq_some_iff.mpr ⟨⟨hne, standsAt_mended h hbare⟩, rfl⟩
    have hpairs : mended token new pairs offset ≠ [] := by
      intro hnil
      rw [hnil] at hmended
      rw [(append_eq_nil_iff.mp hmended.symm).1] at hkept
      exact hne hkept.symm
    rw [passFrom_found (length_pos_iff.mpr hne) hpairs hfind, passAt_bare hoffset hwhole hne hbare,
      hmended, take_left' hwidth, drop_left' hwidth, hlast, ih]
  | kept offset hoffset hwhole hbare ih =>
    rw [hmask] at hoffset
    have hfind : findOne token new (lastShown none (pairs.take offset))
        ((mended token new pairs offset).map Prod.snd) = none := by
      refine findOne_eq_none_iff.mpr fun hfound => ?_
      have hstands := standsAt_of_mended h hfound.2
      rw [hbefore] at hstands
      exact Bool.eq_false_iff.mp (hbare hfound.1) hstands
    obtain ⟨pair, hpair⟩ : ∃ pair, (pairs.drop offset).take 1 = [pair] := by
      rw [drop_eq_getElem_cons hoffset]
      exact ⟨_, rfl⟩
    have hnext := lastShown_take pairs offset 1
    rw [passAt_neither hwhole hbare]
    rw [mended_kept hwhole, hpair] at hfind ⊢
    rw [hpair] at hnext
    rw [cons_append, nil_append] at hfind ⊢
    rw [passFrom_cons hfind, ← ih, ← hnext]
    rfl

end Mended

end Mended

/-! ## The value as a whole -/

section Values

variable {dialect : Dialect} {token new : Text}

/-- What the first pass makes of a value and of its code. -/
theorem map_mended (h : OnePass dialect token new) (value : Text) :
    (mended token new (value.zip (dialect.stripComments value)) 0).map Prod.fst =
        replaceCode dialect value (referTo token) new ∧
      (mended token new (value.zip (dialect.stripComments value)) 0).map Prod.snd =
        dialect.stripComments (replaceCode dialect value (referTo token) new) := by
  have hlength : value.length = (dialect.stripComments value).length :=
    (dialect.length_stripFrom Scan.start value).symm
  have hfind : ∀ read : UInt8 × UInt8 → UInt8, (new.zip new).map read = new →
      (fun before text => (findOne (referTo token) (new.zip new) before text).map
        fun found => (found.1, found.2.map read)) = findOne (referTo token) new := by
    intro read hread
    funext before text
    rw [findOne, findOne]
    split
    · rw [Option.map_some, hread]
    · rfl
  constructor
  · rw [mended, passAt, map_passFrom, hfind _ (map_fst_zip (Nat.le_refl _)), replaceCode,
      replaceMasked_eq_passFrom hlength]
    rfl
  · have hcode : (value.zip (dialect.stripComments value)).map (fun pair => (pair.2, pair.2)) =
        (dialect.stripComments value).zip (dialect.stripComments value) := by
      rw [← zip_map', map_snd_zip (Nat.le_of_eq hlength.symm)]
    have hfits := h.fits.referTo
    rw [stripComments_replaceCode hfits.blank hfits.even hfits.inert, Token.replace,
      replaceMasked_eq_passFrom rfl, ← hcode,
      passFrom_map (fun pair => (pair.2, pair.2)) fun _ => rfl, mended, passAt,
      map_passFrom, hfind _ (map_snd_zip (Nat.le_refl _))]
    rfl

/-- Replacing a token by a reference is one pass over the value. -/
theorem replaceToken_eq (h : OnePass dialect token new) (value : Text) :
    replaceToken dialect value token new =
      replaceOnce dialect value token (Token.replace new token new) new := by
  have htoken : isReference token = false := by
    refine Bool.eq_false_iff.mpr fun hreference => h.opening ?_
    exact ((opening_prefix_of_isReference hreference).trans (prefix_append _ _)).isInfix
  obtain ⟨hfst, hsnd⟩ := map_mended h value
  have hpairs := zip_of_prod hfst hsnd
  have hlength : (replaceCode dialect value (referTo token) new).length =
      (dialect.stripComments (replaceCode dialect value (referTo token) new)).length :=
    (dialect.length_stripFrom Scan.start _).symm
  have hcollapsed : replaceToken dialect value token new =
      replaceCode dialect (replaceCode dialect value (referTo token) new) token new := by
    simp only [replaceToken, h.reference, htoken, Bool.not_false, Bool.and_self, if_true]
  rw [hcollapsed, replaceCode, replaceMasked_eq_passFrom hlength, ← hpairs]
  exact passFrom_mended h _ 0

/-- With a longer text for the references the pass makes no less, and more if there is one. -/
theorem length_passAt_lt (h : OnePass dialect token new) {short long : Text}
    (hlength : short.length < long.length) (pairs : List (UInt8 × UInt8)) (offset : Nat) :
    (passAt (findEach token short new) Prod.fst pairs offset).length ≤
        (passAt (findEach token long new) Prod.fst pairs offset).length ∧
      ((∃ place, offset ≤ place ∧ standsIn (referTo token) (pairs.map Prod.snd) place) →
        (passAt (findEach token short new) Prod.fst pairs offset).length <
          (passAt (findEach token long new) Prod.fst pairs offset).length) := by
  have hmask : (pairs.map Prod.snd).length = pairs.length := length_map _
  induction offset using offset_induction token (pairs.map Prod.snd) with
  | done offset hdone =>
    rw [passAt_done (hmask ▸ hdone), passAt_done (hmask ▸ hdone)]
    refine ⟨Nat.le_refl _, ?_⟩
    rintro ⟨place, hle, hstands⟩
    have := lt_length_of_standsIn (referTo_ne_nil token) hstands
    omega
  | whole offset hoffset hwhole ih =>
    rw [passAt_whole (hmask ▸ hoffset) hwhole, passAt_whole (hmask ▸ hoffset) hwhole,
      length_append, length_append]
    have := ih.1
    exact ⟨by omega, fun _ => by omega⟩
  | bare offset hoffset hwhole hne hbare ih =>
    rw [passAt_bare (hmask ▸ hoffset) hwhole hne hbare,
      passAt_bare (hmask ▸ hoffset) hwhole hne hbare, length_append, length_append]
    refine ⟨Nat.add_le_add_left ih.1 _, ?_⟩
    rintro ⟨place, hle, hstands⟩
    refine Nat.add_lt_add_left (ih.2 ⟨place, ?_, hstands⟩) _
    exact add_length_le_of_standsIn h.opening hbare hle (opening_of_standsIn hstands)
  | kept offset hoffset hwhole hbare ih =>
    rw [passAt_neither hwhole hbare, passAt_neither hwhole hbare, length_append, length_append]
    refine ⟨Nat.add_le_add_left ih.1 _, ?_⟩
    rintro ⟨place, hle, hstands⟩
    refine Nat.add_lt_add_left (ih.2 ⟨place, ?_, hstands⟩) _
    refine Nat.lt_of_le_of_ne hle fun heq => ?_
    rw [heq, hstands] at hwhole
    cases hwhole

/-- Without references to the token it does not matter what would be put for one. -/
theorem passAt_congr {pairs : List (UInt8 × UInt8)}
    (h : ∀ place, standsIn (referTo token) (pairs.map Prod.snd) place = false)
    (whole whole' bare : Text) (offset : Nat) :
    passAt (findEach token whole bare) Prod.fst pairs offset =
      passAt (findEach token whole' bare) Prod.fst pairs offset := by
  have hmask : (pairs.map Prod.snd).length = pairs.length := length_map _
  induction offset using offset_induction token (pairs.map Prod.snd) with
  | done offset hdone => rw [passAt_done (hmask ▸ hdone), passAt_done (hmask ▸ hdone)]
  | whole offset hoffset hwhole ih =>
    rw [h offset] at hwhole
    cases hwhole
  | bare offset hoffset hwhole hne hbare ih =>
    rw [passAt_bare (hmask ▸ hoffset) hwhole hne hbare,
      passAt_bare (hmask ▸ hoffset) hwhole hne hbare, ih]
  | kept offset hoffset hwhole hbare ih =>
    rw [passAt_neither hwhole hbare, passAt_neither hwhole hbare, ih]

theorem length_lt_replace (h : OnePass dialect token new) (hcount : Token.count token new ≠ 0) :
    new.length < (Token.replace new token new).length := by
  obtain ⟨offset, hmem⟩ := exists_mem_of_length_pos (Nat.pos_of_ne_zero hcount)
  obtain ⟨hne, hbegins⟩ := prefix_of_mem_occurrences hmem
  have hle : token.length ≤ new.length := by
    have := hbegins.length_le
    rw [length_drop] at this
    omega
  have hlt : token.length < new.length := by
    -- A token as long as the replacement would be the replacement.
    refine Nat.lt_of_le_of_ne hle fun heq => h.ends 0 h.length_pos ?_
    have hholds : token <:+: new := hbegins.isInfix.trans (drop_suffix _ _).isInfix
    rw [drop_zero]
    exact hholds.sublist.eq_of_length heq ▸ prefix_rfl
  have hlength := (spliced_splice new (Nat.zero_add _).symm
    ((hits_occurrences token new).ordered hne (Nat.zero_add _).symm)).length_eq
  have hmore : 0 < (Token.count token new : Int) * (new.length - token.length) :=
    Int.mul_pos (by omega) (by omega)
  change new.length < (splice _ _ _ _ _).length
  change 0 < ((occurrences token new).length : Int) * _ at hmore
  omega

/-- Let a token be replaced by a reference such that the two passes are one. Then the value is
rewritten in one pass over it, in which every occurrence of the token outside comments gives way to
the replacement, and every reference to the token as a whole to the replacement with the token
replaced in it. This is the same as to put the replacement itself for both exactly if it does not
mention the token or the code of the value has no reference to it. -/
theorem replaceToken_once (h : OnePass dialect token new) (value : Text) :
    replaceToken dialect value token new =
        replaceOnce dialect value token (Token.replace new token new) new ∧
      (replaceToken dialect value token new = replaceOnce dialect value token new new ↔
        Token.count token new = 0 ∨
          Token.count (referTo token) (dialect.stripComments value) = 0) := by
  refine ⟨replaceToken_eq h value, ?_⟩
  have hmask : (value.zip (dialect.stripComments value)).map Prod.snd =
      dialect.stripComments value :=
    map_snd_zip (Nat.le_of_eq (dialect.length_stripFrom Scan.start value))
  rw [replaceToken_eq h value]
  constructor
  · intro heq
    refine Decidable.or_iff_not_not_and_not.mpr fun ⟨hmentions, hoccurs⟩ => ?_
    obtain ⟨place, hstands⟩ := (count_ne_zero_iff (referTo_ne_nil token)).mp hoccurs
    rw [← hmask] at hstands
    have hlt := (length_passAt_lt h (length_lt_replace h hmentions) _ 0).2
      ⟨place, Nat.zero_le _, hstands⟩
    exact Nat.ne_of_lt hlt (congrArg length heq.symm)
  · rintro (hmentions | hoccurs)
    · rw [Token.replace, replaceMasked, length_eq_zero_iff.mp hmentions, splice]
    · have hnowhere : ∀ place, standsIn (referTo token)
          ((value.zip (dialect.stripComments value)).map Prod.snd) place = false := by
        intro place
        refine Bool.eq_false_iff.mpr fun hstands => ?_
        rw [hmask] at hstands
        exact (count_ne_zero_iff (referTo_ne_nil token)).mpr ⟨place, hstands⟩ hoccurs
      exact passAt_congr hnowhere _ _ _ 0

end Values

/-- A token that is referred to, stands by itself and is in a comment, and a reference for it. -/
theorem replaceToken_once_mixed :
    OnePass .css (utf8 "--a") (utf8 "var(--b)") ∧
    Token.count (utf8 "--a") (utf8 "var(--b)") = 0 ∧
    replaceToken .css (utf8 "var(--a) --a/*--a*/ var(--a, 1px)") (utf8 "--a") (utf8 "var(--b)") =
      replaceOnce .css (utf8 "var(--a) --a/*--a*/ var(--a, 1px)") (utf8 "--a") (utf8 "var(--b)")
        (utf8 "var(--b)") ∧
    replaceOnce .css (utf8 "var(--a) --a/*--a*/ var(--a, 1px)") (utf8 "--a") (utf8 "var(--b)")
        (utf8 "var(--b)") =
      utf8 "var(--b) var(--b)/*--a*/ var(var(--b), 1px)" := by
  have h : OnePass .css (utf8 "--a") (utf8 "var(--b)") := by decide
  have hcount : Token.count (utf8 "--a") (utf8 "var(--b)") = 0 := by decide
  exact ⟨h, hcount, (replaceToken_once h _).2.mpr (.inl hcount), by decide⟩

/-- A replacement that mentions the token is rewritten in the place of a reference to the token. And
a token that ends with `var` stands across the seam in front of an inserted reference. -/
theorem replaceToken_not_once :
    replaceToken .css (utf8 "var(--a)") (utf8 "--a") (utf8 "var(--a, #fff)") ≠
        replaceOnce .css (utf8 "var(--a)") (utf8 "--a") (utf8 "var(--a, #fff)")
          (utf8 "var(--a, #fff)") ∧
      replaceToken .css (utf8 "--x-var(--x-var)") (utf8 "--x-var") (utf8 "var(--b)") ≠
        replaceOnce .css (utf8 "--x-var(--x-var)") (utf8 "--x-var") (utf8 "var(--b)")
          (utf8 "var(--b)") := by
  decide

end Value

end Restyle
