import Restyle.Proofs.Text.Chars
import Restyle.Proofs.Token.Occurrences

/-!
# Names of custom properties

The name of a custom property is `--` and words of letters and digits with hyphens between them.
`Token.isCustomName` reads such names and accepts no others (`Token.isCustomName_iff`). Two hyphens
in a row begin the name and stand nowhere else in it, so no name ends with another one:
`Token.isCustomName_append`.
-/

namespace Restyle.Token

open Byte List

/-- The name of a custom property: two hyphens and words of letters and digits, with a hyphen
between neighbours. -/
def IsCustomName (name : Text) : Prop :=
  ∃ words : List Text, words ≠ [] ∧
    (∀ word ∈ words, word ≠ [] ∧ ∀ byte ∈ word, isAlphanumeric byte) ∧
    name = utf8 "--" ++ List.intercalate [hyphen] words

/-- Whether a text goes on with words and hyphens between them; `begun` tells whether the first word
has begun. -/
def isWords (begun : Bool) : Text → Bool
  | [] => begun
  | byte :: rest =>
    if isAlphanumeric byte then isWords true rest
    else begun && byte == hyphen && isWords false rest

/-- Whether a text is the name of a custom property. -/
def isCustomName : Text → Bool
  | first :: second :: rest => first == hyphen && second == hyphen && isWords false rest
  | _ => false

/-- An identifier byte is a character of its own that is no blank. -/
theorem char_of_isIdentifierByte {byte : UInt8} (h : isIdentifierByte byte) :
    byte < 0x80 ∧ isBlank (Char.ofNat byte.toNat) = false := by
  have hall : ∀ code : Fin 256, isIdentifierByte (UInt8.ofFin code) →
      UInt8.ofFin code < 0x80 ∧ isBlank (Char.ofNat (UInt8.ofFin code).toNat) = false := by
    decide +kernel
  exact hall byte.toFin h

/-- Bytes that are no blanks, each a character of its own, make no blanks. -/
theorem isBlank_of_mem_chars {word : Text}
    (h : ∀ byte ∈ word, byte < 0x80 ∧ isBlank (Char.ofNat byte.toNat) = false) :
    ∀ char ∈ Text.chars word, isBlank char = false := by
  induction word with
  | nil => simp [Text.chars]
  | cons byte rest ih =>
    obtain ⟨⟨hascii, hblank⟩, hrest⟩ := forall_mem_cons.mp h
    rw [Text.chars_ascii hascii]
    exact forall_mem_cons.mpr ⟨hblank, ih hrest⟩

/-! ## Names and their words -/

theorem isWords_append {word : Text} (hne : word ≠ [])
    (hword : ∀ byte ∈ word, isAlphanumeric byte) (begun : Bool) (rest : Text) :
    isWords begun (word ++ rest) = isWords true rest := by
  induction word generalizing begun with
  | nil => exact absurd rfl hne
  | cons byte word ih =>
    obtain ⟨hbyte, hword⟩ := forall_mem_cons.mp hword
    rw [cons_append, isWords, if_pos hbyte]
    cases word with
    | nil => rfl
    | cons next word => exact ih (cons_ne_nil _ _) hword true

theorem isWords_intercalate {words : List Text} (hne : words ≠ [])
    (hwords : ∀ word ∈ words, word ≠ [] ∧ ∀ byte ∈ word, isAlphanumeric byte) :
    isWords false (intercalate [hyphen] words) := by
  induction words with
  | nil => exact absurd rfl hne
  | cons word words ih =>
    obtain ⟨⟨hword, hbytes⟩, hwords⟩ := forall_mem_cons.mp hwords
    cases words with
    | nil =>
      have hlast := isWords_append hword hbytes false []
      rw [append_nil] at hlast
      rw [intercalate_singleton]
      exact hlast
    | cons next words =>
      have hnext := ih (cons_ne_nil _ _) hwords
      rw [intercalate_cons_cons, append_assoc, isWords_append hword hbytes]
      exact hnext

variable {begun : Bool} {text : Text}

/-- What is read are words with hyphens between them, the first of which may have begun before. -/
theorem exists_words_of_isWords (h : isWords begun text) :
    ∃ (first : Text) (others : List Text),
      (∀ byte ∈ first, isAlphanumeric byte) ∧ (begun = false → first ≠ []) ∧
      (∀ word ∈ others, word ≠ [] ∧ ∀ byte ∈ word, isAlphanumeric byte) ∧
      text = intercalate [hyphen] (first :: others) := by
  induction text generalizing begun with
  | nil =>
    obtain rfl : begun := h
    exact ⟨[], [], by simp, by simp, by simp, rfl⟩
  | cons byte rest ih =>
    unfold isWords at h
    split at h
    next hbyte =>
      obtain ⟨first, others, hfirst, -, hothers, rfl⟩ := ih h
      refine ⟨byte :: first, others, forall_mem_cons.mpr ⟨hbyte, hfirst⟩,
        fun _ => cons_ne_nil _ _, hothers, ?_⟩
      cases others with
      | nil => rfl
      | cons next others => rw [intercalate_cons_cons, intercalate_cons_cons]; rfl
    · simp only [Bool.and_eq_true, beq_iff_eq] at h
      obtain ⟨⟨hbegun, rfl⟩, hrest⟩ := h
      obtain ⟨first, others, hfirst, hne, hothers, rfl⟩ := ih hrest
      refine ⟨[], first :: others, by simp, by simp [hbegun], ?_, ?_⟩
      · exact forall_mem_cons.mpr ⟨⟨hne rfl, hfirst⟩, hothers⟩
      · rw [intercalate_cons_cons]
        rfl

variable {name : Text}

/-- A name begins with two hyphens, and words follow. -/
theorem exists_of_isCustomName (h : isCustomName name) :
    ∃ rest, name = hyphen :: hyphen :: rest ∧ isWords false rest := by
  unfold isCustomName at h
  split at h
  next first second rest =>
    simp only [Bool.and_eq_true, beq_iff_eq] at h
    obtain ⟨⟨rfl, rfl⟩, hrest⟩ := h
    exact ⟨rest, rfl, hrest⟩
  · cases h

theorem isCustomName_iff : isCustomName name ↔ IsCustomName name := by
  constructor
  · intro h
    obtain ⟨rest, rfl, hrest⟩ := exists_of_isCustomName h
    obtain ⟨word, others, hword, hne, hothers, rfl⟩ := exists_words_of_isWords hrest
    exact ⟨word :: others, cons_ne_nil _ _, forall_mem_cons.mpr ⟨⟨hne rfl, hword⟩, hothers⟩, rfl⟩
  · rintro ⟨words, hne, hwords, rfl⟩
    exact isWords_intercalate hne hwords

/-- Whether a text is the name of a custom property can be computed. -/
instance (name : Text) : Decidable (IsCustomName name) :=
  decidable_of_iff _ isCustomName_iff

/-! ## Bytes of a name -/

theorem isIdentifierByte_of_isWords (h : isWords begun text) :
    ∀ byte ∈ text, isIdentifierByte byte := by
  induction text generalizing begun with
  | nil => simp
  | cons byte rest ih =>
    unfold isWords at h
    split at h
    next hbyte => exact forall_mem_cons.mpr ⟨by simp [isIdentifierByte, hbyte], ih h⟩
    · simp only [Bool.and_eq_true, beq_iff_eq] at h
      obtain ⟨⟨-, rfl⟩, hrest⟩ := h
      exact forall_mem_cons.mpr ⟨by decide, ih hrest⟩

theorem ne_nil_of_isCustomName (h : isCustomName name) : name ≠ [] := by
  rintro rfl
  cases h

theorem isIdentifierByte_of_isCustomName (h : isCustomName name) :
    ∀ byte ∈ name, isIdentifierByte byte := by
  obtain ⟨rest, rfl, hrest⟩ := exists_of_isCustomName h
  exact forall_mem_cons.mpr ⟨by decide,
    forall_mem_cons.mpr ⟨by decide, isIdentifierByte_of_isWords hrest⟩⟩

theorem hasBlank_of_isCustomName (h : isCustomName name) : Text.hasBlank name = false := by
  refine any_eq_false.mpr fun char hmem => ?_
  have hblank := isBlank_of_mem_chars (fun byte hbyte =>
    char_of_isIdentifierByte (isIdentifierByte_of_isCustomName h byte hbyte)) char hmem
  rw [hblank]
  exact Bool.false_ne_true

theorem head?_of_isCustomName (h : isCustomName name) : name.head? = some hyphen := by
  obtain ⟨rest, rfl, -⟩ := exists_of_isCustomName h
  rfl

/-- No token begins behind words that have begun. -/
theorem leftOpen_of_isWords (h : isWords begun text) {before : Option UInt8}
    (hbegun : begun → leftOpen before = false) :
    leftOpen (text.getLast?.or before) = false := by
  induction text generalizing begun before with
  | nil => exact hbegun h
  | cons byte rest ih =>
    rw [getLast?_cons_or]
    unfold isWords at h
    split at h
    next hbyte => exact ih h fun _ => by simp [leftOpen, hbyte]
    · simp only [Bool.and_eq_true] at h
      exact ih h.2 (by simp)

/-- No token begins right behind a name. -/
theorem leftOpen_getLast?_of_isCustomName (h : isCustomName name) (before : Option UInt8) :
    leftOpen (name.getLast?.or before) = false := by
  obtain ⟨rest, rfl, hrest⟩ := exists_of_isCustomName h
  rw [getLast?_cons_or, getLast?_cons_or]
  exact leftOpen_of_isWords hrest (by simp)

/-- Two hyphens in a row stand nowhere among words. -/
theorem isWords_append_hyphens (begun : Bool) (text rest : Text) :
    isWords begun (text ++ hyphen :: hyphen :: rest) = false := by
  induction text generalizing begun with
  | nil => cases begun <;> rfl
  | cons byte text ih =>
    rw [cons_append, isWords, ih, ih]
    simp

theorem isCustomName_append {left : Text} (hname : isCustomName name) (hne : left ≠ []) :
    isCustomName (left ++ name) = false := by
  obtain ⟨rest, rfl, hrest⟩ := exists_of_isCustomName hname
  cases left with
  | nil => exact absurd rfl hne
  | cons first left =>
    cases left with
    | nil => simp [isCustomName, isWords, show isAlphanumeric hyphen = false by decide]
    | cons second left => simp [isCustomName, isWords_append_hyphens]

/-- A name at the end of another is that name. -/
theorem eq_of_suffix {token : Text} (htoken : isCustomName token)
    (hname : isCustomName name) (h : token <:+ name) : name = token := by
  obtain ⟨left, rfl⟩ := h
  cases left with
  | nil => rfl
  | cons byte left =>
    rw [isCustomName_append htoken (cons_ne_nil _ _)] at hname
    cases hname

end Restyle.Token
