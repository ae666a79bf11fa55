import Restyle.Proofs.Token.Occurrences

/-!
# Passes over a text

A pass goes over a text beside its mask and puts something new where it finds something in the mask
(`Token.passFrom`). Replacing a token is such a pass (`Token.replaceMasked_eq_passFrom`). What a
pass finds at its start it passes over as a whole (`Token.passFrom_found`), and it keeps the bytes
in front of the first place where it finds something (`Token.passFrom_missed`).
-/

namespace Restyle.Token

open List

/-- One pass over the bytes of a text, each beside its byte of the mask. At every place `find` sees
the mask from there on and the byte in front. Where it finds something, so many bytes give way to
what it has for them; the next `skip` bytes belong to what was found last. -/
def passFrom {α : Type} (find : Option UInt8 → Text → Option (Nat × List α))
    (keep : UInt8 × UInt8 → α) (skip : Nat) (before : Option UInt8) :
    List (UInt8 × UInt8) → List α
  | [] => []
  | pair :: rest =>
    match skip with
    | skip + 1 => passFrom find keep skip (some pair.2) rest
    | 0 =>
      match find before (pair.2 :: rest.map Prod.snd) with
      | some (width, new) => new ++ passFrom find keep (width - 1) (some pair.2) rest
      | none => keep pair :: passFrom find keep 0 (some pair.2) rest

/-- Finds one token where it stands by itself. The empty token is found nowhere. -/
def findOne {α : Type} (token : Text) (new : List α) (before : Option UInt8) (text : Text) :
    Option (Nat × List α) :=
  if !token.isEmpty && standsAt token before text then some (token.length, new) else none

/-- The byte of the mask in front of what is left behind some pairs. -/
def lastShown (before : Option UInt8) (pairs : List (UInt8 × UInt8)) : Option UInt8 :=
  (pairs.map Prod.snd).getLast?.or before

section Passes

variable {α β : Type} {find : Option UInt8 → Text → Option (Nat × List α)}
  {keep : UInt8 × UInt8 → α} {before : Option UInt8} {pairs : List (UInt8 × UInt8)} {offset : Nat}

theorem lastShown_cons (before : Option UInt8) (pair : UInt8 × UInt8)
    (rest : List (UInt8 × UInt8)) :
    lastShown before (pair :: rest) = lastShown (some pair.2) rest := by
  rw [lastShown, map_cons, getLast?_cons_or]
  rfl

theorem passFrom_skip (skip : Nat) (before : Option UInt8) (pairs : List (UInt8 × UInt8)) :
    passFrom find keep skip before pairs =
      passFrom find keep 0 (lastShown before (pairs.take skip)) (pairs.drop skip) := by
  induction pairs generalizing skip before with
  | nil => simp [passFrom]
  | cons pair rest ih =>
    cases skip with
    | zero => rfl
    | succ skip =>
      rw [passFrom, ih, take_succ_cons, lastShown_cons, drop_succ_cons]

/-- A pass puts what it finds at its start and goes on behind it. -/
theorem passFrom_found {width : Nat} {new : List α} (hwidth : 0 < width) (hpairs : pairs ≠ [])
    (h : find before (pairs.map Prod.snd) = some (width, new)) :
    passFrom find keep 0 before pairs =
      new ++ passFrom find keep 0 (lastShown before (pairs.take width)) (pairs.drop width) := by
  obtain ⟨pair, rest, rfl⟩ := exists_cons_of_ne_nil hpairs
  rw [map_cons] at h
  obtain ⟨less, rfl⟩ : ∃ less, width = less + 1 := ⟨width - 1, by omega⟩
  have hstep : passFrom find keep 0 before (pair :: rest) =
      new ++ passFrom find keep (less + 1) before (pair :: rest) := by
    simp only [passFrom, h, Nat.add_sub_cancel]
  rw [hstep, passFrom_skip]

theorem passFrom_cons {pair : UInt8 × UInt8} {rest : List (UInt8 × UInt8)}
    (h : find before (pair.2 :: rest.map Prod.snd) = none) :
    passFrom find keep 0 before (pair :: rest) =
      keep pair :: passFrom find keep 0 (some pair.2) rest := by
  rw [passFrom, h]

/-- A pass keeps the bytes in front of what it finds first. -/
theorem passFrom_missed {count : Nat}
    (h : ∀ index < count, find (lastShown before (pairs.take index))
      ((pairs.drop index).map Prod.snd) = none) :
    passFrom find keep 0 before pairs =
      (pairs.take count).map keep ++
        passFrom find keep 0 (lastShown before (pairs.take count)) (pairs.drop count) := by
  induction count generalizing before pairs with
  | zero => rfl
  | succ count ih =>
    cases pairs with
    | nil => rfl
    | cons pair rest =>
      have hrest : ∀ index < count, find (lastShown (some pair.2) (rest.take index))
          ((rest.drop index).map Prod.snd) = none := by
        intro index hindex
        rw [← lastShown_cons]
        exact h (index + 1) (Nat.succ_lt_succ hindex)
      have hfirst : find before (pair.2 :: rest.map Prod.snd) = none := h 0 (Nat.succ_pos count)
      rw [passFrom_cons hfirst, ih hrest, take_succ_cons, lastShown_cons]
      rfl

/-- The byte of the mask in front, further on in some pairs. -/
theorem lastShown_take (pairs : List (UInt8 × UInt8)) (offset count : Nat) :
    lastShown (lastShown none (pairs.take offset)) ((pairs.drop offset).take count) =
      lastShown none (pairs.take (offset + count)) := by
  simp only [lastShown, take_add, map_append, getLast?_append, Option.or_none]

variable (find)

/-- What is left of a pass over a whole text at an offset where it begins to look again. -/
def passAt (keep : UInt8 × UInt8 → α) (pairs : List (UInt8 × UInt8)) (offset : Nat) : List α :=
  passFrom find keep 0 (lastShown none (pairs.take offset)) (pairs.drop offset)

/-- What the pass would find at an offset of a mask. -/
def findAt (mask : Text) (offset : Nat) : Option (Nat × List α) :=
  find (mask.take offset).getLast? (mask.drop offset)

/-- What a pass finds at an offset depends on the mask only. -/
theorem find_lastShown (pairs : List (UInt8 × UInt8)) (offset : Nat) :
    find (lastShown none (pairs.take offset)) ((pairs.drop offset).map Prod.snd) =
      findAt find (pairs.map Prod.snd) offset := by
  rw [findAt, lastShown, Option.or_none, map_take, map_drop]

variable {find}

/-- A pass puts what it finds at an offset and goes on behind it. -/
theorem passAt_found {width : Nat} {new : List α} (hoffset : offset < pairs.length)
    (hwidth : 0 < width) (h : findAt find (pairs.map Prod.snd) offset = some (width, new)) :
    passAt find keep pairs offset = new ++ passAt find keep pairs (offset + width) := by
  have hpairs : pairs.drop offset ≠ [] := by
    rw [ne_eq, drop_eq_nil_iff]
    omega
  rw [← find_lastShown] at h
  rw [passAt, passFrom_found hwidth hpairs h, lastShown_take, drop_drop]
  rfl

/-- A pass keeps the bytes from an offset on where it finds nothing. -/
theorem passAt_missed {count : Nat} (h : ∀ place, offset ≤ place → place < offset + count →
      findAt find (pairs.map Prod.snd) place = none) :
    passAt find keep pairs offset =
      ((pairs.drop offset).take count).map keep ++ passAt find keep pairs (offset + count) := by
  rw [passAt, passFrom_missed, lastShown_take, drop_drop]
  · rfl
  · intro index hindex
    rw [lastShown_take, drop_drop, find_lastShown find]
    exact h (offset + index) (Nat.le_add_right _ _) (by omega)

theorem passAt_done (h : pairs.length ≤ offset) : passAt find keep pairs offset = [] := by
  rw [passAt, drop_eq_nil_of_le h, passFrom]

/-- A pass keeps a byte where it finds nothing. -/
theorem passAt_kept (h : findAt find (pairs.map Prod.snd) offset = none) :
    passAt find keep pairs offset =
      ((pairs.drop offset).take 1).map keep ++ passAt find keep pairs (offset + 1) := by
  refine passAt_missed fun place hle hlt => ?_
  rwa [show place = offset by omega]

/-- To show something of every offset, show it of the end, and of an offset if it holds behind what
is found there, or behind the next byte if nothing is. -/
theorem pass_induction {mask : Text} {motive : Nat → Prop}
    (hwidth : ∀ offset width new, findAt find mask offset = some (width, new) → 0 < width)
    (done : ∀ offset, mask.length ≤ offset → motive offset)
    (found : ∀ offset width new, offset < mask.length →
      findAt find mask offset = some (width, new) → motive (offset + width) → motive offset)
    (kept : ∀ offset, offset < mask.length → findAt find mask offset = none →
      motive (offset + 1) → motive offset)
    (offset : Nat) : motive offset := by
  induction hleft : mask.length - offset using Nat.strongRecOn generalizing offset with
  | ind left ih =>
    by_cases hend : mask.length ≤ offset
    · exact done offset hend
    · have hnext : ∀ width, 0 < width → motive (offset + width) := by
        intro width hwidth
        exact ih (mask.length - (offset + width)) (by omega) _ rfl
      have hoffset : offset < mask.length := by omega
      cases hfind : findAt find mask offset with
      | some pair => exact found offset pair.1 pair.2 hoffset hfind (hnext _ (hwidth _ _ _ hfind))
      | none => exact kept offset hoffset hfind (hnext 1 Nat.one_pos)

/-- A pass comes by every place that nothing found before reaches over. -/
theorem suffix_passAt {place : Nat} (hplace : place ≤ pairs.length)
    (hwidth : ∀ offset width new, findAt find (pairs.map Prod.snd) offset = some (width, new) →
      0 < width)
    (hclear : ∀ offset width new, findAt find (pairs.map Prod.snd) offset = some (width, new) →
      offset < place → offset + width ≤ place) (offset : Nat) (hle : offset ≤ place) :
    passAt find keep pairs place <:+ passAt find keep pairs offset := by
  have hmask : (pairs.map Prod.snd).length = pairs.length := length_map _
  induction offset using pass_induction hwidth with
  | done offset hdone =>
    obtain rfl : offset = place := by omega
    exact suffix_refl _
  | found offset width new hoffset hfind ih =>
    by_cases heq : offset = place
    · subst heq
      exact suffix_refl _
    · rw [passAt_found (hmask ▸ hoffset) (hwidth _ _ _ hfind) hfind]
      exact (ih (hclear _ _ _ hfind (by omega))).trans (suffix_append _ _)
  | kept offset hoffset hfind ih =>
    by_cases heq : offset = place
    · subst heq
      exact suffix_refl _
    · rw [passAt_kept hfind]
      exact (ih (by omega)).trans (suffix_append _ _)

theorem map_passFrom (read : α → β) (skip : Nat) (before : Option UInt8)
    (pairs : List (UInt8 × UInt8)) :
    (passFrom find keep skip before pairs).map read =
      passFrom (fun before text => (find before text).map fun found =>
        (found.1, found.2.map read)) (read ∘ keep) skip before pairs := by
  induction pairs generalizing skip before with
  | nil => rfl
  | cons pair rest ih =>
    cases skip with
    | succ skip => exact ih skip (some pair.2)
    | zero =>
      simp only [passFrom]
      cases hfind : find before (pair.2 :: rest.map Prod.snd) with
      | none => simp only [Option.map_none, map_cons, ih, Function.comp]
      | some found => simp only [Option.map_some, map_append, ih]

/-- A pass looks at the mask only. -/
theorem passFrom_map (change : UInt8 × UInt8 → UInt8 × UInt8) (h : ∀ pair, (change pair).2 = pair.2)
    (skip : Nat) (before : Option UInt8) (pairs : List (UInt8 × UInt8)) :
    passFrom find keep skip before (pairs.map change) =
      passFrom find (keep ∘ change) skip before pairs := by
  induction pairs generalizing skip before with
  | nil => rfl
  | cons pair rest ih =>
    have hmask : (rest.map change).map Prod.snd = rest.map Prod.snd := by
      rw [map_map]
      exact map_congr_left fun pair _ => h pair
    cases skip with
    | succ skip => simp only [map_cons, passFrom, h, ih]
    | zero => simp only [map_cons, passFrom, h, ih, hmask, Function.comp]

end Passes

variable {token text : Text} {before : Option UInt8} {offset : Nat}

/-- What is found is the token that stands there by itself. -/
theorem findOne_eq_some_iff {α : Type} {new : List α} {found : Nat × List α} :
    findOne token new before text = some found ↔
      (token ≠ [] ∧ standsAt token before text) ∧ (token.length, new) = found := by
  rw [findOne]
  simp

/-- Where the token does not stand by itself it is not found. -/
theorem findOne_eq_none_iff {α : Type} {new : List α} :
    findOne token new before text = none ↔ ¬ (token ≠ [] ∧ standsAt token before text) := by
  unfold findOne
  split <;> simp_all

/-- Whether the token stands by itself at an offset of a text. -/
def standsIn (token text : Text) (offset : Nat) : Bool :=
  standsAt token (text.take offset).getLast? (text.drop offset)

/-- A token that stands at an offset of a text is there in the text. -/
theorem prefix_of_standsIn (h : standsIn token text offset) :
    token <+: text.drop offset := by
  simp only [standsIn, standsAt, Bool.and_eq_true, isPrefixOf_iff_prefix] at h
  exact h.1.1

theorem leftOpen_of_standsIn (h : standsIn token text offset) :
    leftOpen (text.take offset).getLast? := by
  simp only [standsIn, standsAt, Bool.and_eq_true] at h
  exact h.1.2

theorem lt_length_of_standsIn (hne : token ≠ []) (h : standsIn token text offset) :
    offset < text.length := by
  have hlength := (prefix_of_standsIn h).length_le
  rw [length_drop] at hlength
  have := length_pos_iff.mpr hne
  omega

theorem take_of_standsIn (h : standsIn token text offset) :
    text.take (offset + token.length) = text.take offset ++ token := by
  rw [take_add, ← prefix_iff_eq_take.mp (prefix_of_standsIn h)]

/-- Wherever the token stands by itself behind the bytes to skip, an occurrence is found that covers
the place. -/
theorem exists_found_of_standsAt (hne : token ≠ []) {skip index : Nat} (hskip : skip ≤ index)
    (h : standsAt token ((text.take index).getLast?.or before) (text.drop index)) :
    ∃ found ∈ occurrencesFrom token offset skip before text,
      found ≤ offset + index ∧ offset + index < found + token.length := by
  have hpositive : 0 < token.length := length_pos_iff.mpr hne
  induction text generalizing offset skip before index with
  | nil => simp [standsAt, hne] at h
  | cons byte rest ih =>
    cases index with
    | zero =>
      obtain rfl := Nat.le_zero.mp hskip
      have hstands : standsAt token before (byte :: rest) := by simpa using h
      rw [occurrencesFrom, if_pos hstands]
      exact ⟨offset, mem_cons_self, Nat.le_refl _, Nat.lt_add_of_pos_right hpositive⟩
    | succ index =>
      rw [take_succ_cons, getLast?_cons_or] at h
      have later : ∀ {skip}, skip ≤ index →
          ∃ found ∈ occurrencesFrom token (offset + 1) skip (some byte) rest,
            found ≤ offset + (index + 1) ∧ offset + (index + 1) < found + token.length := by
        intro skip hskip
        have hfound := @ih (some byte) (offset + 1) skip index hskip h
        rwa [Nat.add_assoc, Nat.add_comm 1] at hfound
      cases skip with
      | succ skip => exact later (Nat.le_of_succ_le_succ hskip)
      | zero =>
        simp only [occurrencesFrom]
        split
        · by_cases hinside : index + 1 < token.length
          · exact ⟨offset, mem_cons_self, by omega, by omega⟩
          · obtain ⟨found, hmem, hcovers⟩ := @later (token.length - 1) (by omega)
            exact ⟨found, mem_cons_of_mem _ hmem, hcovers⟩
        · exact later (Nat.zero_le _)

/-- Wherever the token stands by itself it occurs, or an occurrence begins shortly before. -/
theorem exists_occurrence (hne : token ≠ []) (h : standsIn token text offset) :
    ∃ found ∈ occurrences token text, found ≤ offset ∧ offset < found + token.length := by
  have hfound := @exists_found_of_standsAt token text none 0 hne 0 offset (Nat.zero_le _)
    (by simpa [standsIn] using h)
  simpa [occurrences, hne] using hfound

/-- A token occurs in a text exactly if it stands somewhere by itself. -/
theorem count_ne_zero_iff (hne : token ≠ []) :
    count token text ≠ 0 ↔ ∃ offset, standsIn token text offset := by
  constructor
  · intro h
    obtain ⟨offset, hmem⟩ := exists_mem_of_length_pos (Nat.pos_of_ne_zero h)
    exact ⟨offset, standsAt_of_mem_occurrences hmem⟩
  · rintro ⟨offset, hstands⟩ hcount
    obtain ⟨found, hmem, -⟩ := exists_occurrence hne hstands
    rw [length_eq_zero_iff.mp hcount] at hmem
    cases hmem

theorem replaceFrom_eq_passFrom (hne : token ≠ []) (replacement : Text) (skip : Nat)
    (before : Option UInt8) (pairs : List (UInt8 × UInt8)) :
    replaceFrom token replacement skip before pairs =
      passFrom (findOne token replacement) Prod.fst skip before pairs := by
  have hempty : token.isEmpty = false := by simpa using hne
  induction pairs generalizing skip before with
  | nil => rfl
  | cons pair rest ih =>
    cases skip with
    | succ skip => exact ih skip (some pair.2)
    | zero =>
      simp only [replaceFrom, passFrom, findOne, hempty, Bool.not_false, Bool.true_and]
      split <;> simp only [ih]

theorem replaceMasked_eq_passFrom {mask : Text} (hlength : text.length = mask.length)
    (token replacement : Text) :
    replaceMasked text mask token replacement =
      passFrom (findOne token replacement) Prod.fst 0 none (text.zip mask) := by
  by_cases hne : token = []
  · -- Nothing is found, and the pass keeps the text.
    subst hne
    rw [passFrom_missed fun index (_ : index < (text.zip mask).length) => rfl, take_length,
      drop_length, map_fst_zip (Nat.le_of_eq hlength), passFrom, append_nil]
    rfl
  · rw [replaceMasked_eq_replaceFrom replacement hne hlength, replaceFrom_eq_passFrom hne]

end Restyle.Token
