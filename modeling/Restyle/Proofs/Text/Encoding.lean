import Restyle.Proofs.Text.Chars

/-!
# Encoded characters

Reading the encoding of some characters gives them back, whatever follows: `Text.chars_ofChars`. So
the well-formed texts are the encodings (`Text.wellFormed_iff`), and one of them may take the place
of another inside a third: `Text.wellFormed_between`.
-/

namespace Restyle.Text

open Byte List

/-! ## One character -/

variable (char : Char) {second first : UInt8} {right left : Text} {third : UInt8}

/-- A pair is read as one character, whatever follows. -/
theorem chars_pair {char : Char} (h : pair? first second = some char) (rest : Text) :
    chars (first :: second :: rest) = char :: chars rest := by
  have hhigh : ¬ first < 0x80 := by
    simp only [pair?, Option.ite_none_right_eq_some, Bool.and_eq_true, decide_eq_true_eq,
      UInt8.le_iff_toNat_le, UInt8.reduceToNat] at h
    simp only [UInt8.lt_iff_toNat_lt, UInt8.reduceToNat]
    omega
  rw [chars.eq_def]
  simp [hhigh, h]

/-- A triple is read as one character: its first byte begins no pair. -/
theorem chars_triple {char : Char} (h : triple? first second third = some char) (rest : Text) :
    chars (first :: second :: third :: rest) = char :: chars rest := by
  obtain ⟨hhigh, hpair⟩ : ¬ first < 0x80 ∧ pair? first second = none := by
    simp only [triple?, Option.ite_none_right_eq_some, Bool.and_eq_true, decide_eq_true_eq,
      UInt8.le_iff_toNat_le, UInt8.reduceToNat] at h
    simp only [UInt8.lt_iff_toNat_lt, UInt8.reduceToNat, pair?, ite_eq_right_iff, Bool.and_eq_true,
      decide_eq_true_eq, UInt8.le_iff_toNat_le, reduceCtorEq, imp_false]
    omega
  rw [chars.eq_def]
  simp [hhigh, hpair, h]

/-- A quadruple is read as one character: its first byte begins neither pair nor triple. -/
theorem chars_quadruple {fourth : UInt8} {char : Char}
    (h : quadruple? first second third fourth = some char) (rest : Text) :
    chars (first :: second :: third :: fourth :: rest) = char :: chars rest := by
  obtain ⟨hhigh, hpair, htriple⟩ : ¬ first < 0x80 ∧ pair? first second = none ∧
      triple? first second third = none := by
    simp only [quadruple?, Option.ite_none_right_eq_some, Bool.and_eq_true, decide_eq_true_eq,
      UInt8.le_iff_toNat_le, UInt8.reduceToNat] at h
    have htriple : triple? first second third = none := by
      rw [triple?, if_neg]
      simp only [Bool.and_eq_true, decide_eq_true_eq, UInt8.le_iff_toNat_le, UInt8.reduceToNat]
      omega
    refine ⟨?_, ?_, htriple⟩
    · simp only [UInt8.lt_iff_toNat_lt, UInt8.reduceToNat]
      omega
    · rw [pair?, if_neg]
      simp only [Bool.and_eq_true, decide_eq_true_eq, UInt8.le_iff_toNat_le, UInt8.reduceToNat]
      omega
  rw [chars.eq_def]
  simp [hhigh, hpair, htriple, h]

theorem toNat_byte {number : Nat} (h : number < 256) : (UInt8.ofNat number).toNat = number := by
  rw [UInt8.toNat_ofNat']
  omega

/-- The encoding of a character is read as that character, whatever follows. -/
theorem chars_encode (rest : Text) :
    chars (String.utf8EncodeChar char ++ rest) = char :: chars rest := by
  have hvalid : char.val.toNat < 0xD800 ∨ 0xDFFF < char.val.toNat ∧ char.val.toNat < 0x110000 :=
    char.valid
  have hcode : Char.ofNat char.val.toNat = char := Char.ofNat_toNat char
  simp only [String.utf8EncodeChar]
  generalize char.val.toNat = code at hvalid hcode
  have hlast := @toNat_byte (code % 64 + 128) (by omega)
  have hsecondLast := @toNat_byte (code / 64 % 64 + 128) (by omega)
  split
  next hone =>
    have hbyte := @toNat_byte code (by omega)
    rw [cons_append, nil_append, chars_ascii, hbyte, hcode]
    rw [UInt8.lt_iff_toNat_lt, hbyte]
    exact Nat.lt_succ_of_le hone
  next hone =>
    split
    next htwo =>
      have hfirst := @toNat_byte (code / 64 % 32 + 192) (by omega)
      refine chars_pair ?_ rest
      rw [pair?, if_pos, ← hcode]
      · exact congrArg (fun code => some (Char.ofNat code)) (by omega)
      · simp only [Bool.and_eq_true, decide_eq_true_eq, isContinuation_iff,
          UInt8.le_iff_toNat_le, hfirst, hlast, UInt8.reduceToNat]
        omega
    next htwo =>
      split
      next hthree =>
        have hfirst := @toNat_byte (code / 4096 % 16 + 224) (by omega)
        refine chars_triple ?_ rest
        rw [triple?, if_pos]
        · simp only [hfirst, hsecondLast, hlast]
          rw [if_neg, ← hcode]
          · exact congrArg (fun code => some (Char.ofNat code)) (by omega)
          · simp only [Bool.or_eq_true, Bool.and_eq_true, decide_eq_true_eq]
            omega
        · simp only [Bool.and_eq_true, decide_eq_true_eq, isContinuation_iff,
            UInt8.le_iff_toNat_le, hfirst, hsecondLast, hlast, UInt8.reduceToNat]
          omega
      next hthree =>
        have hfirst := @toNat_byte (code / 262144 % 8 + 240) (by omega)
        have hsecond := @toNat_byte (code / 4096 % 64 + 128) (by omega)
        refine chars_quadruple ?_ rest
        rw [quadruple?, if_pos]
        · simp only [hfirst, hsecond, hsecondLast, hlast]
          rw [if_neg, ← hcode]
          · exact congrArg (fun code => some (Char.ofNat code)) (by omega)
          · simp only [Bool.or_eq_true, decide_eq_true_eq]
            omega
        · simp only [Bool.and_eq_true, decide_eq_true_eq, isContinuation_iff,
            UInt8.le_iff_toNat_le, hfirst, hsecond, hsecondLast, hlast, UInt8.reduceToNat]
          omega

/-! ## Encodings -/

/-- The encoding of characters is read as those characters, whatever follows. -/
theorem chars_ofChars (chars' : List Char) (rest : Text) :
    chars (ofChars chars' ++ rest) = chars' ++ chars rest := by
  induction chars' with
  | nil => rfl
  | cons char later ih =>
    rw [ofChars, flatMap_cons, append_assoc, chars_encode, cons_append, ← ih]
    rfl

theorem chars_ofChars_self (chars' : List Char) : chars (ofChars chars') = chars' := by
  simpa [chars] using chars_ofChars chars' []

theorem ofChars_append (left right : List Char) :
    ofChars (left ++ right) = ofChars left ++ ofChars right :=
  flatMap_append

/-- The well-formed texts are the encodings. -/
theorem wellFormed_iff {text : Text} : wellFormed text ↔ ∃ chars', text = ofChars chars' := by
  rw [wellFormed, beq_iff_eq]
  constructor
  · exact fun h => ⟨chars text, h.symm⟩
  · rintro ⟨chars', rfl⟩
    rw [chars_ofChars_self]

/-- The bytes of a string are the encoding of its characters. -/
theorem utf8_eq (string : String) : utf8 string = ofChars string.toList := by
  have hbytes : string.toByteArray = string.toList.utf8Encode := by
    rw [← String.toByteArray_ofList, String.ofList_toList]
  rw [utf8, hbytes, utf8Encode, data_toByteArray]
  rfl

theorem wellFormed_utf8 (string : String) : wellFormed (utf8 string) :=
  wellFormed_iff.mpr ⟨string.toList, utf8_eq string⟩

/-- Two well-formed texts make one. -/
theorem wellFormed_append (hleft : wellFormed left) (hright : wellFormed right) :
    wellFormed (left ++ right) := by
  obtain ⟨leftChars, rfl⟩ := wellFormed_iff.mp hleft
  obtain ⟨rightChars, rfl⟩ := wellFormed_iff.mp hright
  exact wellFormed_iff.mpr ⟨leftChars ++ rightChars, (ofChars_append _ _).symm⟩

/-- What follows a well-formed text in a well-formed text is well formed. -/
theorem wellFormed_of_append (hleft : wellFormed left)
    (h : wellFormed (left ++ right)) : wellFormed right := by
  obtain ⟨leftChars, rfl⟩ := wellFormed_iff.mp hleft
  rw [wellFormed, beq_iff_eq, chars_ofChars, ofChars_append, append_cancel_left_eq] at h
  rw [wellFormed, h, beq_self_eq_true]

/-- A character is encoded by one byte below 80, or by a byte that begins a longer encoding and
bytes that continue it. -/
theorem encode_shape :
    (∃ byte, String.utf8EncodeChar char = [byte] ∧ byte < 0x80 ∧ Char.ofNat byte.toNat = char) ∨
      ∃ first rest, String.utf8EncodeChar char = first :: rest ∧ 0xC0 ≤ first.toNat ∧
        ∀ byte ∈ rest, isContinuation byte := by
  have hcontinues : ∀ {number}, 0x80 ≤ number → number < 0xC0 →
      isContinuation (UInt8.ofNat number) := by
    intro number hlow hhigh
    rw [isContinuation_iff, toNat_byte (Nat.lt_trans hhigh (by omega))]
    exact ⟨hlow, hhigh⟩
  have hbegins : ∀ {number}, 0xC0 ≤ number → number < 256 →
      0xC0 ≤ (UInt8.ofNat number).toNat := by
    intro number hlow hsmall
    rwa [toNat_byte hsmall]
  simp only [String.utf8EncodeChar]
  split
  next hone =>
    refine .inl ⟨_, rfl, ?_, ?_⟩
    · rw [UInt8.lt_iff_toNat_lt, toNat_byte (by omega)]
      simp only [UInt8.reduceToNat]
      omega
    · rw [toNat_byte (by omega)]
      exact Char.ofNat_toNat char
  · right
    split
    · refine ⟨_, _, rfl, hbegins (by omega) (by omega), ?_⟩
      simp only [forall_mem_cons]
      exact ⟨hcontinues (by omega) (by omega), by simp⟩
    · split
      · refine ⟨_, _, rfl, hbegins (by omega) (by omega), ?_⟩
        simp only [forall_mem_cons]
        exact ⟨hcontinues (by omega) (by omega), hcontinues (by omega) (by omega), by simp⟩
      · refine ⟨_, _, rfl, hbegins (by omega) (by omega), ?_⟩
        simp only [forall_mem_cons]
        exact ⟨hcontinues (by omega) (by omega), hcontinues (by omega) (by omega),
          hcontinues (by omega) (by omega), by simp⟩

/-- An encoding begins with a byte that continues none. -/
theorem encode_head : ∃ byte rest, String.utf8EncodeChar char = byte :: rest ∧
    isContinuation byte = false := by
  rcases encode_shape char with ⟨byte, hencode, hlow, -⟩ | ⟨byte, rest, hencode, hhigh, -⟩
  · exact ⟨byte, [], hencode, not_isContinuation hlow⟩
  · refine ⟨byte, rest, hencode, Bool.eq_false_iff.mpr fun h => ?_⟩
    have := (isContinuation_iff byte).mp h
    omega

/-- All bytes of an encoding but the first continue it. -/
theorem encode_tail :
    ∀ byte ∈ (String.utf8EncodeChar char).tail, isContinuation byte := by
  rcases encode_shape char with ⟨byte, hencode, -, -⟩ | ⟨byte, rest, hencode, -, hrest⟩
  · simp [hencode]
  · rwa [hencode]

/-- A character is encoded by one byte below 80, or by bytes of which none is below 80. -/
theorem encode_cases :
    (∃ byte, String.utf8EncodeChar char = [byte] ∧ byte < 0x80 ∧ Char.ofNat byte.toNat = char) ∨
      ∀ byte ∈ String.utf8EncodeChar char, ¬ byte < 0x80 := by
  refine (encode_shape char).imp_right ?_
  rintro ⟨first, rest, hencode, hfirst, hrest⟩
  rw [hencode]
  refine forall_mem_cons.mpr ⟨fun h => ?_, fun byte hmem h => ?_⟩
  · have hlow : first.toNat < 0x80 := by simpa [UInt8.lt_iff_toNat_lt] using h
    omega
  · exact absurd (hrest byte hmem) (by simp [not_isContinuation h])

/-- An encoding is as long as its characters take bytes. -/
theorem length_ofChars (chars' : List Char) : (ofChars chars').length = byteSize chars' := by
  induction chars' with
  | nil => rfl
  | cons char later ih =>
    rw [ofChars, flatMap_cons, length_append, String.length_utf8EncodeChar]
    exact congrArg (char.utf8Size + ·) ih

/-- What stands around a well-formed text inside a well-formed text is well formed. -/
theorem wellFormed_around {middle : Text} (hne : middle ≠ []) (hmiddle : wellFormed middle)
    (h : wellFormed (left ++ (middle ++ right))) :
    wellFormed left ∧ wellFormed right := by
  obtain ⟨middleChars, rfl⟩ := wellFormed_iff.mp hmiddle
  cases middleChars with
  | nil => exact absurd rfl hne
  | cons char later =>
    obtain ⟨byte, bytes, hencode, hbyte⟩ := encode_head char
    have hsplit : ofChars (char :: later) ++ right =
        byte :: (bytes ++ (ofChars later ++ right)) := by
      rw [ofChars, flatMap_cons, hencode]
      simp [ofChars]
    -- No character goes over the seam, so both sides are encodings by themselves.
    have hread := h
    rw [wellFormed, beq_iff_eq, hsplit, chars_append hbyte, ofChars_append, ← hsplit] at hread
    obtain ⟨hleft, hrest⟩ := append_inj hread (by rw [length_ofChars, byteSize_chars])
    have hrest : wellFormed (ofChars (char :: later) ++ right) := by
      rw [wellFormed, hrest, beq_self_eq_true]
    exact ⟨by rw [wellFormed, hleft, beq_self_eq_true], wellFormed_of_append hmiddle hrest⟩

/-! ## Blanks at the end -/

/-- A byte below 80 in an encoding is one of the characters. -/
theorem mem_of_mem_ofChars {byte : UInt8} {chars' : List Char} (hascii : byte < 0x80)
    (h : byte ∈ ofChars chars') : Char.ofNat byte.toNat ∈ chars' := by
  obtain ⟨char, hchar, hbyte⟩ := mem_flatMap.mp h
  rcases encode_cases char with ⟨only, honly, -, hread⟩ | hhigh
  · rw [honly, mem_singleton] at hbyte
    rwa [hbyte, hread]
  · exact absurd hascii (hhigh byte hbyte)

/-- Trimming a well-formed text that begins with no blank takes blanks off its end only. -/
theorem trim_append {text : Text} (h : wellFormed text)
    (hfirst : (chars text).head?.any isBlank = false) :
    ∃ blanks, (∀ char ∈ blanks, isBlank char) ∧ text = trim text ++ ofChars blanks := by
  have hfront : (chars text).dropWhile isBlank = chars text := by
    cases hchars : chars text with
    | nil => rfl
    | cons char later =>
      rw [hchars] at hfirst
      rw [dropWhile_cons_of_neg (by simpa using hfirst)]
  refine ⟨((chars text).reverse.takeWhile isBlank).reverse, ?_, ?_⟩
  · intro char hmem
    exact all_eq_true.mp all_takeWhile char (mem_reverse.mp hmem)
  · rw [trim, trimChars, hfront, ← ofChars_append, ← reverse_append,
      takeWhile_append_dropWhile, reverse_reverse]
    rw [wellFormed, beq_iff_eq] at h
    exact h.symm

end Restyle.Text
