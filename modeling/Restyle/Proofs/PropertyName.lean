import Mathlib.Data.List.Forall2
import Restyle.Mapping
import Restyle.Proofs.Text.Encoding

/-!
# Spellings of a property name

A property name is a list of words in small letters, and there are four conventions to spell it. The
words can be read off each of them (`kebabChars_spell`), so two names are compared by their words,
whatever the conventions: `same_spell_iff`.
-/

namespace Restyle.PropertyName

open Alphabet List Text

/-- The ways to spell a property name. -/
inductive Convention where
  | kebab
  | camel
  | snake
  | screaming
  deriving DecidableEq, Repr

/-- The word with a capital for its first letter. -/
def capitalize : List Char → List Char
  | [] => []
  | char :: rest => char.toUpper :: rest

/-- The words spelled as one name. -/
def Convention.spell : Convention → List (List Char) → List Char
  | .kebab, words => intercalate ['-'] words
  | .camel, words => words.head?.getD [] ++ words.tail.flatMap capitalize
  | .snake, words => intercalate ['_'] words
  | .screaming, words => intercalate ['_'] (words.map (·.map Char.toUpper))

/-- A name has words, all of small letters and none of them empty. Only the first and the last of
them may be single letters. -/
structure IsName (words : List (List Char)) : Prop where
  words_ne : words ≠ []
  word_ne : ∀ word ∈ words, word ≠ []
  isLower : ∀ word ∈ words, ∀ char ∈ word, char.isLower
  inner : ∀ word ∈ words.tail.dropLast, 2 ≤ word.length

variable {char separator : Char} {word rest : List Char} {words : List (List Char)} {case : Case}

/-! ## Letters -/

/-- What the alphabet says of a small letter and of its capital. -/
theorem letter_facts (h : char.isLower) :
    (isLower char ∧ isUpper char = false ∧ isAlphanumeric char ∧
      toLower char = [char] ∧ char.toNat ≠ 0x3A3) ∧
    isLower char.toUpper = false ∧ isUpper char.toUpper ∧
      isAlphanumeric char.toUpper ∧ toLower char.toUpper = [char] ∧
      char.toUpper.toNat ≠ 0x3A3 := by
  have hbounds : 97 ≤ char.toNat ∧ char.toNat ≤ 122 := by
    obtain ⟨hlow, hhigh⟩ := Bool.and_eq_true_iff.mp h
    exact ⟨of_decide_eq_true hlow, of_decide_eq_true hhigh⟩
  have hchar : char = Char.ofNat (97 + (char.toNat - 97)) := by
    rw [Nat.add_sub_cancel' hbounds.1, Char.ofNat_toNat]
  rw [hchar]
  generalize hindex : char.toNat - 97 = index
  have hlt : index < 26 := by omega
  clear hindex hchar
  revert index
  decide

/-- A word is shown in its own letters, some of them as capitals. -/
def IsSpelling (word shown : List Char) : Prop :=
  Forall₂ (fun char shown => shown = char ∨ shown = char.toUpper) word shown

theorem isSpelling_self (word : List Char) : IsSpelling word word :=
  forall₂_same.mpr fun _ _ => .inl rfl

theorem isSpelling_toUpper (word : List Char) : IsSpelling word (word.map Char.toUpper) :=
  forall₂_map_right_iff.mpr (forall₂_same.mpr fun _ _ => .inr rfl)

theorem isSpelling_capitalize : (word : List Char) → IsSpelling word (capitalize word)
  | [] => .nil
  | _ :: rest => .cons (.inr rfl) (isSpelling_self rest)

/-- A word can be read off every spelling in letters. -/
theorem IsSpelling.letters {shown : List Char} (hspelling : IsSpelling word shown)
    (h : ∀ char ∈ word, char.isLower) :
    (∀ char ∈ shown, isAlphanumeric char) ∧ lowerWord shown = word := by
  induction hspelling with
  | nil => exact ⟨forall_mem_nil _, rfl⟩
  | @cons char letter word shown hletter htail ih =>
    obtain ⟨hchar, hword⟩ := forall_mem_cons.mp h
    obtain ⟨hlater, hlower⟩ := ih hword
    obtain ⟨⟨-, -, hsmall, hsmall', hsigma⟩, -, -, hcapital, hcapital', hsigma'⟩ :=
      letter_facts hchar
    obtain ⟨halphanumeric, hone, hplain⟩ : isAlphanumeric letter ∧
        toLower letter = [char] ∧ letter.toNat ≠ 0x3A3 := by
      rcases hletter with rfl | rfl
      · exact ⟨hsmall, hsmall', hsigma⟩
      · exact ⟨hcapital, hcapital', hsigma'⟩
    refine ⟨forall_mem_cons.mpr ⟨halphanumeric, hlater⟩, ?_⟩
    cases shown with
    | nil =>
      cases htail
      rw [lowerWord, if_neg (by simpa using hplain), hone]
    | cons next shown => rw [lowerWord, hlower, hone, singleton_append]

/-! ## Words of a run -/

/-- A run of small letters before a capital or the end is a word with what is taken before it. -/
theorem wordsOfRun_lower (hne : word ≠ []) (hword : ∀ char ∈ word, char.isLower)
    (hrest : ∀ char ∈ rest.head?, isUpper char) (case : Case) (taken : List Char) :
    wordsOfRun case taken (word ++ rest) =
      (taken.reverse ++ word) :: wordsOfRun .boundary [] rest := by
  induction word generalizing case taken with
  | nil => exact absurd rfl hne
  | cons char word ih =>
    obtain ⟨hchar, hword⟩ := forall_mem_cons.mp hword
    obtain ⟨⟨hlower, hupper, -⟩, -⟩ := letter_facts hchar
    have hcase : case.next char = .lower := by rw [Case.next, if_pos hlower]
    cases word with
    | nil =>
      cases rest with
      | nil => simp [wordsOfRun]
      | cons next rest => simp [wordsOfRun, hcase, hrest next rfl]
    | cons next word =>
      have hnext := (letter_facts (hword next mem_cons_self)).1.2.1
      have hlater := ih (cons_ne_nil _ _) hword (case.next char) (char :: taken)
      simp only [cons_append] at hlater ⊢
      rw [wordsOfRun]
      simpa [hnext, hupper] using hlater

/-- A capitalised word of two letters or more before another one or the end is a word, and so is a
single capital at the end. -/
theorem wordsOfRun_capitalize (hword : ∀ char ∈ word, char.isLower) (hne : word ≠ [])
    (hrest : ∀ char ∈ rest.head?, isUpper char) (hlength : 2 ≤ word.length ∨ rest = []) :
    wordsOfRun .boundary [] (capitalize word ++ rest) =
      capitalize word :: wordsOfRun .boundary [] rest := by
  cases word with
  | nil => exact absurd rfl hne
  | cons char word =>
    obtain ⟨hchar, hword⟩ := forall_mem_cons.mp hword
    obtain ⟨-, hlower, hupper, -⟩ := letter_facts hchar
    cases word with
    | nil =>
      obtain rfl : rest = [] := hlength.resolve_left (by simp)
      rfl
    | cons next word =>
      have hlater := wordsOfRun_lower (cons_ne_nil next word) hword hrest .upper [char.toUpper]
      rw [capitalize, cons_append, cons_append, wordsOfRun]
      simpa [Case.next, hlower, hupper] using hlater

theorem wordsOfRun_camel (hne : ∀ word ∈ words, word ≠ [])
    (hlower : ∀ word ∈ words, ∀ char ∈ word, char.isLower)
    (hlength : ∀ word ∈ words.dropLast, 2 ≤ word.length) :
    wordsOfRun .boundary [] (words.flatMap capitalize) = words.map capitalize ∧
      ∀ char ∈ (words.flatMap capitalize).head?, isUpper char := by
  induction words with
  | nil => exact ⟨rfl, by simp⟩
  | cons word words ih =>
    obtain ⟨hword, hne⟩ := forall_mem_cons.mp hne
    obtain ⟨hchars, hlower⟩ := forall_mem_cons.mp hlower
    have hlater := ih hne hlower fun other hmem => hlength other (by
      cases words with
      | nil => cases hmem
      | cons next words => exact mem_cons_of_mem _ hmem)
    rw [flatMap_cons]
    constructor
    · rw [wordsOfRun_capitalize hchars hword hlater.2, hlater.1, map_cons]
      cases words with
      | nil => exact .inr rfl
      | cons next words => exact .inl (hlength word mem_cons_self)
    · cases word with
      | nil => exact absurd rfl hword
      | cons char word =>
        rintro _ ⟨⟩
        exact (letter_facts (hchars char mem_cons_self)).2.2.1

/-- A run of capitals is a word. -/
theorem wordsOfRun_upper (hne : word ≠ []) (hword : ∀ char ∈ word, char.isLower)
    (hcase : case ≠ .lower) (taken : List Char) :
    wordsOfRun case taken (word.map Char.toUpper) = [taken.reverse ++ word.map Char.toUpper] := by
  induction word generalizing case taken with
  | nil => exact absurd rfl hne
  | cons char word ih =>
    obtain ⟨hchar, hword⟩ := forall_mem_cons.mp hword
    obtain ⟨-, hlower, hupper, -⟩ := letter_facts hchar
    cases word with
    | nil => simp [wordsOfRun]
    | cons next word =>
      have hnext := (letter_facts (hword next mem_cons_self)).2.1
      have hlater := ih (cons_ne_nil _ _) hword (by simp : Case.upper ≠ .lower)
        (char.toUpper :: taken)
      rw [map_cons] at hlater
      rw [map_cons, map_cons, wordsOfRun]
      simpa [Case.next, hlower, hupper, hnext] using hlater

/-! ## Runs -/

/-- Letters and digits are in one run with what is before the next separator. -/
theorem runs_append {run : List Char} {others : List (List Char)}
    (hword : ∀ char ∈ word, isAlphanumeric char) (rest : List Char)
    (hrest : runs rest = run :: others) : runs (word ++ rest) = (word ++ run) :: others := by
  induction word with
  | nil => exact hrest
  | cons char word ih =>
    obtain ⟨hchar, hword⟩ := forall_mem_cons.mp hword
    simp [runs, hchar, ih hword]

/-- The runs of a name are what stands between its separators. -/
theorem runs_intercalate (hseparator : isAlphanumeric separator = false) (hne : words ≠ [])
    (hwords : ∀ word ∈ words, ∀ char ∈ word, isAlphanumeric char) :
    runs (intercalate [separator] words) = words := by
  induction words with
  | nil => exact absurd rfl hne
  | cons word words ih =>
    obtain ⟨hword, hwords⟩ := forall_mem_cons.mp hwords
    cases words with
    | nil => simpa using runs_append hword [] rfl
    | cons next words =>
      have hlater : runs (separator :: intercalate [separator] (next :: words)) =
          [] :: next :: words := by
        rw [runs, if_neg (by simp [hseparator]), ih (cons_ne_nil _ _) hwords]
      rw [intercalate_cons_cons, append_assoc, singleton_append, runs_append hword _ hlater,
        append_nil]

/-! ## Names -/

section

variable {spell : List Char → List Char} (hspell : ∀ word, IsSpelling word (spell word))
  (hlower : ∀ word ∈ words, ∀ char ∈ word, char.isLower)

include hspell hlower

theorem map_lowerWord : (words.map spell).map lowerWord = words := by
  rw [map_map]
  exact (map_congr_left fun word hmem => ((hspell word).letters (hlower word hmem)).2).trans
    (map_id' words)

/-- The kebab form of a name that is spelled with separators. -/
theorem kebabChars_intercalate (hseparator : isAlphanumeric separator = false) (hne : words ≠ [])
    (hone : ∀ word ∈ words, wordsOfRun .boundary [] (spell word) = [spell word]) :
    kebabChars (intercalate [separator] (words.map spell)) = intercalate ['-'] words := by
  have hruns : runs (intercalate [separator] (words.map spell)) = words.map spell :=
    runs_intercalate hseparator (by simpa using hne)
      (forall_mem_map.mpr fun word hmem => ((hspell word).letters (hlower word hmem)).1)
  have hwords : (words.map spell).flatMap (wordsOfRun .boundary []) = words.map spell := by
    rw [flatMap_map, map_eq_flatMap]
    exact flatMap_congr hone
  rw [kebabChars, PropertyName.words, hruns, hwords, map_lowerWord hspell hlower]

end

/-- The kebab form of a name in camel case. -/
theorem kebabChars_camel (h : IsName words) :
    kebabChars (Convention.camel.spell words) = intercalate ['-'] words := by
  obtain ⟨first, others, rfl⟩ := exists_cons_of_ne_nil h.words_ne
  obtain ⟨hfirst, hne⟩ := forall_mem_cons.mp h.word_ne
  obtain ⟨hchars, hlower⟩ := forall_mem_cons.mp h.isLower
  obtain ⟨hothers, hupper⟩ := wordsOfRun_camel hne hlower h.inner
  obtain ⟨hletters, hself⟩ := (isSpelling_self first).letters hchars
  have hruns := runs_append (forall_mem_append.mpr ⟨hletters, forall_mem_flatMap.mpr
    fun word hmem => ((isSpelling_capitalize word).letters (hlower word hmem)).1⟩) [] rfl
  have hwords := wordsOfRun_lower hfirst hchars hupper .boundary []
  rw [reverse_nil, nil_append, hothers] at hwords
  rw [append_nil] at hruns
  rw [Convention.spell, head?_cons, Option.getD_some, tail_cons, kebabChars, words,
    hruns, flatMap_singleton, hwords, map_cons, hself, map_lowerWord isSpelling_capitalize hlower]

/-- The kebab form of a spelled name is its words between hyphens. -/
theorem kebabChars_spell (h : IsName words) (convention : Convention) :
    kebabChars (convention.spell words) = intercalate ['-'] words := by
  have hplain : ∀ separator, isAlphanumeric separator = false →
      kebabChars (intercalate [separator] words) = intercalate ['-'] words := by
    intro separator hseparator
    have hkebab := kebabChars_intercalate isSpelling_self h.isLower hseparator h.words_ne
      fun word hmem => by
        have hword := @wordsOfRun_lower _ [] (h.word_ne word hmem) (h.isLower word hmem)
          (by simp) .boundary []
        simpa [wordsOfRun] using hword
    rwa [map_id'] at hkebab
  cases convention with
  | kebab => exact hplain '-' (by decide)
  | snake => exact hplain '_' (by decide)
  | camel => exact kebabChars_camel h
  | screaming =>
    exact kebabChars_intercalate isSpelling_toUpper h.isLower (by decide) h.words_ne
      fun word hmem => wordsOfRun_upper (h.word_ne word hmem) (h.isLower word hmem) (by simp) []

/-- The words of a name are the runs between its hyphens. -/
theorem runs_words (h : IsName words) : runs (intercalate ['-'] words) = words :=
  runs_intercalate (by decide) h.words_ne fun word hmem =>
    ((isSpelling_self word).letters (h.isLower word hmem)).1

theorem kebab_spell (h : IsName words) (convention : Convention) :
    kebab (ofChars (convention.spell words)) = ofChars (intercalate ['-'] words) := by
  rw [kebab, chars_ofChars_self, kebabChars_spell h]

/-- Two names are the same in any two conventions exactly if their words are. So it does not matter
in which convention a property is spelled for whether a clause covers it, nor a name of the clause,
nor for whether the property has a list of parts or is a known one. -/
theorem same_spell_iff {words others : List (List Char)} (h : IsName words)
    (hothers : IsName others) (first second : Convention) :
    (same (Text.ofChars (first.spell words)) (Text.ofChars (second.spell others)) = true ↔
      words = others) ∧
    (∀ clause : Clause, clause.covers (Text.ofChars (first.spell words)) =
      clause.covers (Text.ofChars (second.spell words))) ∧
    (∀ (before after : List Text) (replacement : Replacement) (property : Text),
      Clause.covers ⟨before ++ Text.ofChars (first.spell words) :: after, replacement⟩ property =
        Clause.covers ⟨before ++ Text.ofChars (second.spell words) :: after, replacement⟩
          property) ∧
    isComposite (Text.ofChars (first.spell words)) =
      isComposite (Text.ofChars (second.spell words)) ∧
    isStyle (Text.ofChars (first.spell words)) = isStyle (Text.ofChars (second.spell words)) := by
  have hsame : kebab (ofChars (first.spell words)) =
      kebab (ofChars (second.spell words)) := by
    rw [kebab_spell h, kebab_spell h]
  refine ⟨?_, fun clause => ?_, fun before after replacement property => ?_, ?_, ?_⟩
  · rw [same, kebab_spell h, kebab_spell hothers, beq_iff_eq]
    refine ⟨fun heq => ?_, fun heq => heq ▸ rfl⟩
    have hchars := congrArg chars heq
    rw [chars_ofChars_self, chars_ofChars_self] at hchars
    rw [← runs_words h, hchars, runs_words hothers]
  · simp only [Clause.covers, same, hsame]
  · simp only [Clause.covers, same, any_append, any_cons, hsame]
    cases before <;> rfl
  · rw [isComposite, isComposite, hsame]
  · rw [isStyle, isStyle, hsame]

/-- The words of `x-offset-y`, of which the first and the last are single letters. -/
theorem same_spell_iff_offset :
    IsName ["x".toList, "offset".toList, "y".toList] ∧
    same (utf8 "xOffsetY") (utf8 "X_OFFSET_Y") = true ∧
    isComposite (utf8 "boxShadow") = isComposite (utf8 "BOX_SHADOW") ∧
    same (utf8 "xOffsetY") (utf8 "box-shadow") = false := by
  have hoffset : IsName ["x".toList, "offset".toList, "y".toList] :=
    ⟨by decide, by decide, by simp, by decide⟩
  have hshadow : IsName ["box".toList, "shadow".toList] :=
    ⟨by decide, by decide, by simp, by decide⟩
  refine ⟨hoffset, (same_spell_iff hoffset hoffset .camel .screaming).1.mpr rfl,
    (same_spell_iff hshadow hshadow .camel .screaming).2.2.2.1, ?_⟩
  exact Bool.eq_false_iff.mpr (mt (same_spell_iff hoffset hshadow .camel .kebab).1.mp (by decide))

end Restyle.PropertyName
