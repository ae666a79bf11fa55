import Restyle.Dialect.Structure
import Restyle.Proofs.Dialect.Comments

/-!
# Visible bytes around a word

The reader of visible bytes counts the bytes that an interpolation has left. `Gaze` counts the depth
of its braces instead, and sees the same (`Gaze.visible_eq`). A word without braces and quotation
marks does not change where a gaze stands, however long it is, so what can be seen of a text around
a word does not depend on the word: `Dialect.visible_word`.
-/

namespace Restyle

open Byte List

open Token (isIdentifierByte)

/-- A byte of an identifier, or a space. -/
def isPlain (byte : UInt8) : Bool :=
  isIdentifierByte byte || byte == space

theorem beq_of_isPlain {byte other : UInt8} (hbyte : isPlain byte)
    (hother : isPlain other = false) : (byte == other) = false := by
  rw [beq_eq_false_iff_ne]
  rintro rfl
  rw [hbyte] at hother
  cases hother

theorem Dialect.isQuote_of_isPlain {byte : UInt8} (h : isPlain byte) (dialect : Dialect) :
    dialect.isQuote byte = false := by
  simp only [Dialect.isQuote, beq_of_isPlain h (by decide : isPlain doubleQuote = false),
    beq_of_isPlain h (by decide : isPlain apostrophe = false),
    beq_of_isPlain h (by decide : isPlain backtick = false), Bool.and_false, Bool.or_false]

/-- A word in a comment or outside is plain. -/
theorem Dialect.isPlain_of_mem_veilWord {hidden : Bool} {word : Text}
    (hword : ∀ byte ∈ word, isIdentifierByte byte) :
    ∀ byte ∈ veilWord hidden word, isPlain byte := by
  intro byte hmem
  unfold veilWord at hmem
  split at hmem
  · obtain rfl := eq_of_mem_replicate hmem
    decide
  · simp [isPlain, hword byte hmem]

theorem Dialect.length_veilWord (hidden : Bool) (word : Text) :
    (veilWord hidden word).length = word.length := by
  unfold veilWord
  split <;> simp

theorem Dialect.veilWord_ne_nil {hidden : Bool} {word : Text} (h : word ≠ []) :
    veilWord hidden word ≠ [] := by
  rw [← length_pos_iff, length_veilWord, length_pos_iff]
  exact h

/-! ## Depths of interpolations -/

/-- Where the reader of visible bytes stands, an interpolation told by the depth of its braces. -/
inductive Gaze where
  | clear
  | literal (quote : UInt8)
  | escape (quote : UInt8)
  | interpolation (depth : Nat)

namespace Gaze

/-- Where the reader stands after one more byte of an open literal. -/
def literalNext (quote byte : UInt8) : Gaze :=
  if byte == backslash then .escape quote
  else if byte == quote || (byte == newline && quote != backtick) then .clear
  else .literal quote

/-- Where the reader stands after one more byte of an interpolation. -/
def interpolationNext (depth : Nat) (byte : UInt8) : Gaze :=
  if byte == openBrace then .interpolation (depth + 1)
  else if byte == closeBrace then
    if depth ≤ 1 then .clear else .interpolation (depth - 1)
  else .interpolation depth

/-- Whether an interpolation that is closed opens behind a hash with the text. -/
def opens (rest : Text) : Bool :=
  rest.head? == some openBrace && (braceLength? 0 rest).isSome

/-- Whether the next byte can be seen and where the reader stands after it. `opened` tells whether
an interpolation opens if the byte is a hash. -/
def next (dialect : Dialect) (gaze : Gaze) (byte : UInt8) (opened : Bool) : Bool × Gaze :=
  match gaze with
  | .clear =>
    if dialect.isQuote byte then (false, .literal byte)
    else if dialect == .scss && byte == hash && opened then (false, .interpolation 0)
    else (true, .clear)
  | .literal quote => (false, literalNext quote byte)
  | .escape quote => (false, .literal quote)
  | .interpolation depth => (false, interpolationNext depth byte)

/-- The bytes of a text, each with whether it can be seen. -/
def visible (dialect : Dialect) (gaze : Gaze) : Text → List (UInt8 × Bool)
  | [] => []
  | byte :: rest =>
    (byte, (gaze.next dialect byte (opens rest)).1) ::
      visible dialect (gaze.next dialect byte (opens rest)).2 rest

/-- The reader stands in the same place, and so many bytes of an interpolation are left as its depth
of braces tells. -/
def Shows (rest : Text) : Gaze → Sight → Prop
  | .clear, .clear => True
  | .literal quote, .literal quote' => quote = quote'
  | .escape quote, .escape quote' => quote = quote'
  | .interpolation depth, .interpolation more => braceLength? depth rest = some (more + 1)
  | _, _ => False

/-- The brace that closes an interpolation is one of its bytes. -/
theorem braceLength_pos {depth length : Nat} {text : Text}
    (h : braceLength? depth text = some length) : ∃ more, length = more + 1 := by
  cases text with
  | nil => cases h
  | cons byte rest =>
    unfold braceLength? at h
    split at h
    · obtain ⟨more, -, rfl⟩ := Option.map_eq_some_iff.mp h
      exact ⟨more, rfl⟩
    · split at h
      · split at h
        · exact ⟨0, (Option.some.inj h).symm⟩
        · obtain ⟨more, -, rfl⟩ := Option.map_eq_some_iff.mp h
          exact ⟨more, rfl⟩
      · obtain ⟨more, -, rfl⟩ := Option.map_eq_some_iff.mp h
        exact ⟨more, rfl⟩

theorem shows_literalNext (rest : Text) (quote byte : UInt8) :
    Shows rest (literalNext quote byte) (Sight.literalNext quote byte) := by
  unfold literalNext Sight.literalNext Scan.literalNext
  split
  · rfl
  · split
    · trivial
    · rfl

/-- One more byte of an interpolation leads to the same place. -/
theorem shows_interpolationNext {depth more : Nat} {byte : UInt8} {rest : Text}
    (h : braceLength? depth (byte :: rest) = some (more + 1)) :
    Shows rest (interpolationNext depth byte) (Sight.interpolationNext more) := by
  -- If the byte is not the brace that closes, the bytes that are left begin behind it.
  have later : ∀ {depth'}, (braceLength? depth' rest).map (· + 1) = some (more + 1) →
      Shows rest (.interpolation depth') (Sight.interpolationNext more) := by
    intro depth' hlater
    obtain ⟨length, hlength, heq⟩ := Option.map_eq_some_iff.mp hlater
    obtain ⟨more', rfl⟩ := braceLength_pos hlength
    obtain rfl : more' + 1 = more := Nat.succ.inj heq
    exact hlength
  unfold braceLength? at h
  unfold interpolationNext
  split at h
  next hopen =>
    rw [if_pos hopen]
    exact later h
  next hopen =>
    rw [if_neg hopen]
    split at h
    next hclose =>
      rw [if_pos hclose]
      split at h
      next hdepth =>
        obtain rfl : more = 0 := by
          have := Option.some.inj h
          omega
        rw [if_pos hdepth]
        trivial
      next hdepth =>
        rw [if_neg hdepth]
        exact later h
    next hclose =>
      rw [if_neg hclose]
      exact later h

/-- A closed interpolation opens behind a hash exactly if a gaze says so, and it has the bytes up to
the brace that closes it. -/
theorem interpolationLength_eq (dialect : Dialect) (byte : UInt8) (rest : Text) :
    dialect.interpolationLength? (byte :: rest) =
      if dialect == .scss && byte == hash && opens rest then
        (braceLength? 0 rest).map (· + 1) else none := by
  unfold Dialect.interpolationLength? opens
  cases hlength : braceLength? 0 rest with
  | none => simp [hlength]
  | some length => simp [hlength, Bool.and_assoc]

variable {gaze : Gaze}

/-- One more byte is seen alike and leads to the same place. -/
theorem Shows.next {dialect : Dialect} {byte : UInt8} {rest : Text} {sight : Sight}
    (h : Shows (byte :: rest) gaze sight) :
    (sight.next dialect byte rest).1 = (gaze.next dialect byte (opens rest)).1 ∧
      Shows rest (gaze.next dialect byte (opens rest)).2 (sight.next dialect byte rest).2 := by
  match gaze, sight, h with
  | .clear, .clear, _ =>
    unfold Sight.next Gaze.next
    rw [interpolationLength_eq]
    by_cases hquote : dialect.isQuote byte
    · rw [if_pos hquote, if_pos hquote]
      exact ⟨rfl, rfl⟩
    by_cases hopens : (dialect == .scss && byte == hash && opens rest)
    · obtain ⟨length, hlength⟩ : ∃ length, braceLength? 0 rest = some length := by
        simp only [opens, Bool.and_eq_true] at hopens
        exact Option.isSome_iff_exists.mp hopens.2.2
      obtain ⟨more, rfl⟩ := braceLength_pos hlength
      simp only [hquote, hopens, if_true, hlength, Option.map_some]
      exact ⟨rfl, hlength⟩
    · simp only [hquote, hopens]
      exact ⟨rfl, trivial⟩
  | .literal quote, .literal _, rfl => exact ⟨rfl, shows_literalNext ..⟩
  | .escape quote, .escape _, rfl => exact ⟨rfl, rfl⟩
  | .interpolation depth, .interpolation more, h => exact ⟨rfl, shows_interpolationNext h⟩

/-- A gaze sees what the reader of visible bytes sees. -/
theorem visible_eq {dialect : Dialect} {text : Text} {sight : Sight} (h : Shows text gaze sight) :
    sight.visible dialect text = gaze.visible dialect text := by
  induction text generalizing gaze sight with
  | nil => rfl
  | cons byte rest ih =>
    obtain ⟨hseen, hnext⟩ := @Shows.next gaze dialect _ _ _ h
    change (byte, (sight.next ..).1) :: (sight.next ..).2.visible dialect rest = _
    rw [visible, hseen, ih hnext]

/-! ## Words -/

/-- The quotation mark of an open literal is none of the plain bytes. -/
def Sound (gaze : Gaze) : Prop :=
  ∀ quote, gaze = .literal quote ∨ gaze = .escape quote → isPlain quote = false

/-- Where the reader stands after a word. Only a backslash before the word makes a difference. -/
def afterWord : Gaze → Gaze
  | .escape quote => .literal quote
  | gaze => gaze

/-- Whether a word that follows can be seen. -/
def showsWord : Gaze → Bool
  | .clear => true
  | _ => false

/-- A byte of a word is seen as the word is and moves the reader as the word does. -/
theorem next_plain (h : gaze.Sound) (dialect : Dialect) {byte : UInt8} (hbyte : isPlain byte)
    (opened : Bool) : gaze.next dialect byte opened = (gaze.showsWord, gaze.afterWord) := by
  have hne : ∀ other, isPlain other = false → (byte == other) = false :=
    fun other => beq_of_isPlain hbyte
  cases gaze with
  | clear =>
    simp only [next, Dialect.isQuote_of_isPlain hbyte, hne hash (by decide), Bool.and_false,
      Bool.false_and, Bool.false_eq_true, if_false]
    rfl
  | literal quote =>
    simp only [next, literalNext, hne quote (h quote (Or.inl rfl)), hne backslash (by decide),
      hne newline (by decide), Bool.false_and, Bool.or_false, Bool.false_eq_true, if_false]
    rfl
  | escape quote => rfl
  | interpolation depth =>
    simp only [next, interpolationNext, hne openBrace (by decide),
      hne closeBrace (by decide), Bool.false_eq_true, if_false]
    rfl

theorem Sound.next (h : gaze.Sound) (dialect : Dialect) (byte : UInt8) (opened : Bool) :
    (gaze.next dialect byte opened).2.Sound := by
  intro quote hquote
  cases gaze with
  | clear =>
    simp only [Gaze.next] at hquote
    split at hquote
    next hisQuote =>
      obtain rfl : byte = quote := by simpa using hquote
      rw [Bool.eq_false_iff]
      intro hplain
      rw [Dialect.isQuote_of_isPlain hplain] at hisQuote
      cases hisQuote
    · split at hquote <;> simp at hquote
  | literal previous =>
    simp only [Gaze.next, literalNext] at hquote
    have hprevious := h previous (Or.inl rfl)
    split at hquote
    · obtain rfl : previous = quote := by simpa using hquote
      exact hprevious
    · split at hquote
      · simp at hquote
      · obtain rfl : previous = quote := by simpa using hquote
        exact hprevious
  | escape previous =>
    obtain rfl : previous = quote := by simpa [Gaze.next] using hquote
    exact h previous (Or.inr rfl)
  | interpolation depth =>
    simp only [Gaze.next, interpolationNext] at hquote
    split at hquote
    · simp at hquote
    · split at hquote
      · split at hquote <;> simp at hquote
      · simp at hquote

theorem Sound.afterWord (h : gaze.Sound) : gaze.afterWord.Sound := by
  cases gaze with
  | escape quote =>
    intro other hother
    obtain rfl : quote = other := by simpa [afterWord] using hother
    exact h quote (Or.inr rfl)
  | clear | literal | interpolation => exact h

/-- A word can be seen as a whole or not at all, and the reader goes on in the same way behind every
word. -/
theorem visible_plain (h : gaze.Sound) (dialect : Dialect) {word : Text} (hne : word ≠ [])
    (hword : ∀ byte ∈ word, isPlain byte) (rest : Text) :
    gaze.visible dialect (word ++ rest) =
      word.map (·, gaze.showsWord) ++ gaze.afterWord.visible dialect rest := by
  induction word generalizing gaze with
  | nil => exact absurd rfl hne
  | cons byte word ih =>
    obtain ⟨hbyte, hlater⟩ := forall_mem_cons.mp hword
    rw [cons_append, visible, next_plain h dialect hbyte, map_cons, cons_append]
    cases word with
    | nil => rfl
    | cons next word =>
      have hshows : gaze.afterWord.showsWord = gaze.showsWord := by cases gaze <;> rfl
      have hafter : gaze.afterWord.afterWord = gaze.afterWord := by cases gaze <;> rfl
      rw [ih h.afterWord (by simp) hlater, hshows, hafter]

/-- Whether braces are closed does not depend on a word among them. -/
theorem braceLength_word (depth : Nat) (left : Text) {word : Text}
    (hword : ∀ byte ∈ word, isPlain byte) (right : Text) :
    (braceLength? depth (left ++ word ++ right)).isSome =
      (braceLength? depth (left ++ right)).isSome := by
  induction left generalizing depth with
  | nil =>
    induction word with
    | nil => rfl
    | cons byte word ih =>
      obtain ⟨hbyte, hlater⟩ := forall_mem_cons.mp hword
      simp only [nil_append, cons_append, braceLength?,
        beq_of_isPlain hbyte (by decide : isPlain openBrace = false),
        beq_of_isPlain hbyte (by decide : isPlain closeBrace = false),
        Bool.false_eq_true, if_false, Option.isSome_map]
      exact ih hlater
  | cons byte left ih =>
    simp only [cons_append, braceLength?]
    split
    · rw [Option.isSome_map, Option.isSome_map, ih]
    · split
      · split
        · rfl
        · rw [Option.isSome_map, Option.isSome_map, ih]
      · rw [Option.isSome_map, Option.isSome_map, ih]

/-- Whether an interpolation opens does not depend on a word in the text. -/
theorem opens_word (left right : Text) :
    ∃ opened, ∀ word, word ≠ [] → (∀ byte ∈ word, isPlain byte) →
      opens (left ++ word ++ right) = opened := by
  cases left with
  | nil =>
    refine ⟨false, fun word hne hword => ?_⟩
    cases word with
    | nil => exact absurd rfl hne
    | cons byte word =>
      have hbyte := hword byte mem_cons_self
      simp only [opens, nil_append, cons_append, head?_cons, Option.some_beq_some,
        beq_of_isPlain hbyte (by decide : isPlain openBrace = false), Bool.false_and]
  | cons first left =>
    refine ⟨opens (first :: left ++ right), fun word hne hword => ?_⟩
    rw [opens, braceLength_word 0 (first :: left) hword]
    rfl

/-- What can be seen of a text around a word does not depend on the word. -/
theorem exists_visible_word (h : gaze.Sound) (dialect : Dialect) (left right : Text) :
    ∃ left' seen right', left'.length = left.length ∧
      ∀ word, word ≠ [] → (∀ byte ∈ word, isPlain byte) →
        gaze.visible dialect (left ++ word ++ right) = left' ++ word.map (·, seen) ++ right' := by
  induction left generalizing gaze with
  | nil =>
    exact ⟨[], gaze.showsWord, gaze.afterWord.visible dialect right, rfl,
      fun word hne hword => visible_plain h dialect hne hword right⟩
  | cons byte left ih =>
    obtain ⟨opened, hopened⟩ := opens_word ..
    obtain ⟨left', seen, right', hleft, hvisible⟩ := ih (h.next dialect byte opened)
    refine ⟨(byte, (gaze.next dialect byte opened).1) :: left', seen, right', ?_, ?_⟩
    · rw [length_cons, length_cons, hleft]
    · intro word hne hword
      rw [cons_append, cons_append, visible, hopened word hne hword, hvisible word hne hword]
      rfl

end Gaze

/-- What can be seen of a text around a word does not depend on the word, and the word can be seen
as a whole or not at all. -/
theorem Dialect.visible_word (dialect : Dialect) (left right : Text) :
    ∃ left' seen right', left'.length = left.length ∧
      ∀ word, word ≠ [] → (∀ byte ∈ word, isPlain byte) →
        dialect.visible (left ++ word ++ right) = left' ++ word.map (·, seen) ++ right' := by
  have hsound : Gaze.clear.Sound := by
    intro quote hquote
    rcases hquote with hquote | hquote <;> cases hquote
  obtain ⟨left', seen, right', hleft, hvisible⟩ :=
    Gaze.exists_visible_word hsound dialect left right
  refine ⟨left', seen, right', hleft, fun word hne hword => ?_⟩
  rw [← hvisible word hne hword]
  exact Gaze.visible_eq trivial

end Restyle
