import Restyle.Proofs.Value.Comments
import Restyle.Proofs.Value.Numeral
import Restyle.Rule.StyleObject

/-!
# Values inside literals

`Literal.read` follows a literal from its opening quote to where it ends. What stands between the
quotes keeps the literal open (`Literal.keepsOpen`) if and only if the quote behind it is the one
that closes the literal: `Literal.readFrom_iff`. A text without quotes of that kind, backslashes and
line feeds does (`Literal.isClean`), and it is left so by replacements that are clean themselves. A
text with escapes in it keeps the literal open if clean texts take the place of tokens in it that
hold no backslash: `Literal.keepsOpen_replaceToken`.
-/

namespace Restyle

open Byte List Scan StyleObject Value

namespace Literal

/-! ## Reading -/

/-- The mode after one more byte of a literal. Once the literal has ended it stays so. -/
def next (quote : UInt8) (mode : Scan.Mode) (byte : UInt8) : Scan.Mode :=
  match mode with
  | .literal _ => literalNext quote byte
  | .escape _ => .literal quote
  | ended => ended

/-- How many bytes of a text belong to a literal that is read on from a mode, and whether its quote
closes it there. A line feed cuts it off, unless the quote is a backtick, and so does the end. -/
def readFrom (quote : UInt8) (mode : Scan.Mode) : Text → Nat × Bool
  | [] => (0, false)
  | byte :: rest =>
    match next quote mode byte with
    | .code => if byte == quote then (1, true) else (0, false)
    | after => ((readFrom quote after rest).1 + 1, (readFrom quote after rest).2)

/-- The offset behind the literal whose opening quote stands at an offset of the text, and whether
its quote closes it there. -/
def read (text : Text) (start : Nat) : Nat × Bool :=
  match text.drop start with
  | [] => (start, false)
  | quote :: rest =>
    (start + 1 + (readFrom quote (.literal quote) rest).1, (readFrom quote (.literal quote) rest).2)

/-- Whether a literal is still open behind what follows its opening quote, and no escape is
begun. -/
def keepsOpen (quote : UInt8) (inside : Text) : Bool :=
  inside.foldl (next quote) (.literal quote) == .literal quote

/-- Whether a text has no quote of the kind, no backslash and, unless the quote is a backtick, no
line feed. -/
def isClean (quote : UInt8) (text : Text) : Bool :=
  text.all fun byte => byte != backslash && byte != quote && (byte != newline || quote == backtick)

variable {quote : UInt8} {mode : Scan.Mode} {text inside behind left right : Text}

/-- A literal is open in this mode. -/
def IsOpen (quote : UInt8) (mode : Scan.Mode) : Prop :=
  mode = .literal quote ∨ mode = .escape quote

/-- A byte leaves a literal open, or the literal ends with it. -/
theorem next_cases (h : IsOpen quote mode) (byte : UInt8) :
    IsOpen quote (next quote mode byte) ∨ mode = .literal quote ∧ next quote mode byte = .code := by
  rcases h with rfl | rfl
  · show IsOpen quote (literalNext quote byte) ∨ _ ∧ literalNext quote byte = .code
    unfold literalNext
    split
    · exact .inl (.inr rfl)
    · split
      · exact .inr ⟨rfl, rfl⟩
      · exact .inl (.inl rfl)
  · exact .inl (.inl rfl)

theorem foldl_code (text : Text) : text.foldl (next quote) .code = .code := by
  induction text with
  | nil => rfl
  | cons byte rest ih => exact ih

theorem readFrom_cons {byte : UInt8} (h : IsOpen quote (next quote mode byte)) (rest : Text) :
    readFrom quote mode (byte :: rest) =
      ((readFrom quote (next quote mode byte) rest).1 + 1,
        (readFrom quote (next quote mode byte) rest).2) := by
  rw [readFrom]
  rcases h with h | h <;> simp only [h]

theorem readFrom_pos (h : IsOpen quote mode) (hclosed : (readFrom quote mode text).2) :
    0 < (readFrom quote mode text).1 := by
  cases text with
  | nil => cases hclosed
  | cons byte rest =>
    rcases next_cases h byte with hopen | ⟨-, hcode⟩
    · rw [readFrom_cons hopen]
      exact Nat.succ_pos _
    · rw [readFrom, hcode] at hclosed ⊢
      simp only at hclosed ⊢
      split at hclosed
      next hquote => rw [if_pos hquote]; exact Nat.one_pos
      · cases hclosed

/-- The quote behind a text closes the literal that is read on over it if and only if the text
leaves the literal open. -/
theorem readFrom_iff (hquote : quote ≠ backslash) (h : IsOpen quote mode)
    (inside behind : Text) :
    readFrom quote mode (inside ++ quote :: behind) = (inside.length + 1, true) ↔
      inside.foldl (next quote) mode = .literal quote := by
  induction inside generalizing mode with
  | nil =>
    rcases h with rfl | rfl
    · have hcode : next quote (.literal quote) quote = .code := by
        simp [next, literalNext, hquote]
      simp [readFrom, hcode]
    · -- The quote is escaped, so one further on would have to close the literal.
      rw [nil_append, readFrom_cons (.inl rfl)]
      simp only [foldl_nil, reduceCtorEq, iff_false, length_nil, Prod.mk.injEq, not_and]
      intro hlength hclosed
      have hpos : 0 < (readFrom quote (next quote (.escape quote) quote) behind).1 :=
        readFrom_pos (.inl rfl) hclosed
      omega
  | cons byte inside ih =>
    rw [cons_append, foldl_cons, length_cons]
    rcases next_cases h byte with hopen | ⟨-, hcode⟩
    · rw [readFrom_cons hopen, ← ih hopen, Prod.ext_iff, Prod.ext_iff]
      exact and_congr Nat.add_right_cancel_iff Iff.rfl
    · rw [hcode, foldl_code, readFrom, hcode]
      simp only [reduceCtorEq, iff_false]
      split
      · simp
      · simp

/-- A literal in a text is closed by the quote behind what stands inside if and only if that keeps
it open. -/
theorem read_iff (hquote : quote ≠ backslash) (front inside behind : Text) :
    read (front ++ quote :: (inside ++ quote :: behind)) front.length =
        (front.length + inside.length + 2, true) ↔ keepsOpen quote inside := by
  rw [read, drop_left, keepsOpen, beq_iff_eq,
    ← readFrom_iff hquote (.inl rfl) inside, Prod.ext_iff, Prod.ext_iff]
  refine and_congr ?_ Iff.rfl
  show front.length + 1 + _ = _ ↔ _ = inside.length + 1
  omega

/-- A literal that is closed has its quote behind what stands inside. -/
theorem exists_of_readFrom {length : Nat} (h : IsOpen quote mode)
    (hread : readFrom quote mode text = (length, true)) :
    ∃ inside behind, text = inside ++ quote :: behind ∧ length = inside.length + 1 ∧
      inside.foldl (next quote) mode = .literal quote := by
  induction text generalizing mode length with
  | nil => cases hread
  | cons byte rest ih =>
    rcases next_cases h byte with hopen | ⟨hmode, hcode⟩
    · rw [readFrom_cons hopen, Prod.mk.injEq] at hread
      obtain ⟨count, hcount⟩ : ∃ count,
        (readFrom quote (next quote mode byte) rest).1 = count := ⟨_, rfl⟩
      obtain ⟨inside, behind, rfl, rfl, hinside⟩ := ih hopen (Prod.ext hcount hread.2)
      exact ⟨byte :: inside, behind, rfl, by rw [← hread.1, hcount]; rfl, hinside⟩
    · rw [readFrom, hcode] at hread
      simp only at hread
      split at hread
      next hquote =>
        obtain ⟨rfl, -⟩ := Prod.mk.inj hread
        exact ⟨[], rest, by rw [beq_iff_eq.mp hquote]; rfl, rfl, hmode⟩
      · cases hread

/-- A closed literal of a text, its quotes and what stands inside. -/
theorem exists_of_read {start stop : Nat} (hquote : text[start]? = some quote)
    (hread : read text start = (stop, true)) :
    ∃ inside behind, text = text.take start ++ quote :: (inside ++ quote :: behind) ∧
      (text.take start).length = start ∧ stop = start + inside.length + 2 ∧
      keepsOpen quote inside := by
  obtain ⟨hlt, hbyte⟩ := List.getElem?_eq_some_iff.mp hquote
  have hdrop := drop_eq_getElem_cons hlt
  rw [hbyte] at hdrop
  rw [read, hdrop] at hread
  simp only [Prod.mk.injEq] at hread
  obtain ⟨count, hcount⟩ : ∃ count,
    (readFrom quote (.literal quote) (text.drop (start + 1))).1 = count := ⟨_, rfl⟩
  obtain ⟨inside, behind, hrest, hlength, hinside⟩ :=
    exists_of_readFrom (.inl rfl) (Prod.ext hcount hread.2)
  rw [hcount] at hread
  refine ⟨inside, behind, ?_, ?_, by omega, by rw [keepsOpen, beq_iff_eq]; exact hinside⟩
  · rw [← hrest, ← hdrop, take_append_drop]
  · rw [length_take]
    omega

/-! ## Clean texts -/

theorem next_of_clean {byte : UInt8} (h : isClean quote [byte]) (hopen : IsOpen quote mode) :
    next quote mode byte = .literal quote := by
  rcases hopen with rfl | rfl
  · simp only [isClean, all_cons, all_nil, Bool.and_true, Bool.and_eq_true,
      bne_iff_ne, Bool.or_eq_true, beq_iff_eq] at h
    obtain ⟨⟨hbackslash, hquote⟩, hnewline⟩ := h
    simp only [next, literalNext, beq_iff_eq, hbackslash, hquote, Bool.or_eq_true,
      Bool.and_eq_true, bne_iff_ne, false_or, if_false]
    rw [if_neg]
    rintro ⟨hfeed, htick⟩
    exact hnewline.elim (· hfeed) htick
  · rfl

theorem isClean_iff : isClean quote text ↔ ∀ byte ∈ text, isClean quote [byte] := by
  simp only [isClean, all_eq_true, mem_singleton, forall_eq]

theorem isClean_of_subset (h : isClean quote text) (hsubset : inside ⊆ text) :
    isClean quote inside :=
  isClean_iff.mpr fun byte hbyte => isClean_iff.mp h byte (hsubset hbyte)

theorem isClean_append :
    isClean quote (left ++ right) ↔ isClean quote left ∧ isClean quote right := by
  rw [isClean, all_append, Bool.and_eq_true]
  rfl

/-- A clean text with something in it ends the escape before it and begins none. -/
theorem foldl_of_isClean (h : isClean quote text) (hne : text ≠ [])
    (hopen : IsOpen quote mode) : text.foldl (next quote) mode = .literal quote := by
  induction text generalizing mode with
  | nil => exact absurd rfl hne
  | cons byte rest ih =>
    have hbyte := isClean_iff.mp h byte mem_cons_self
    rw [foldl_cons, next_of_clean hbyte hopen]
    cases rest with
    | nil => rfl
    | cons second rest =>
      exact ih (isClean_of_subset h fun _ => mem_cons_of_mem byte) (by simp) (.inl rfl)

theorem keepsOpen_of_isClean (h : isClean quote text) : keepsOpen quote text := by
  rw [keepsOpen, beq_iff_eq]
  by_cases hne : text = []
  · rw [hne]
    rfl
  · exact foldl_of_isClean h hne (.inl rfl)

/-- Without backslashes only a clean text keeps a literal open. -/
theorem isClean_of_keepsOpen (h : keepsOpen quote text) (hbackslash : backslash ∉ text) :
    isClean quote text := by
  induction text with
  | nil => rfl
  | cons byte rest ih =>
    obtain ⟨hbyte, hrest⟩ := not_or.mp (mt mem_cons.mpr hbackslash)
    rw [keepsOpen, beq_iff_eq, foldl_cons] at h
    rcases next_cases (.inl rfl) byte with hopen | ⟨-, hcode⟩
    · have hnext : next quote (.literal quote) byte = .literal quote ∧
          isClean quote [byte] := by
        change IsOpen quote (literalNext quote byte) at hopen
        change literalNext quote byte = _ ∧ _
        unfold literalNext at hopen ⊢
        rw [if_neg (by simpa using Ne.symm hbyte)] at hopen ⊢
        split at hopen
        · rcases hopen with hopen | hopen <;> cases hopen
        next hends =>
          simp only [Bool.or_eq_true, beq_iff_eq, Bool.and_eq_true, bne_iff_ne, not_or,
            not_and, Classical.not_not] at hends
          refine ⟨if_neg (by simpa using hends), ?_⟩
          simp only [isClean, all_cons, all_nil, Bool.and_true, Bool.and_eq_true,
            bne_iff_ne, Bool.or_eq_true, beq_iff_eq]
          exact ⟨⟨Ne.symm hbyte, hends.1⟩, Classical.or_iff_not_imp_left.mpr fun hfeed =>
            hends.2 (Classical.not_not.mp hfeed)⟩
      rw [hnext.1] at h
      have hclean := ih (by rw [keepsOpen, beq_iff_eq]; exact h) hrest
      exact isClean_iff.mpr (forall_mem_cons.mpr ⟨hnext.2, isClean_iff.mp hclean⟩)
    · rw [hcode, foldl_code] at h
      cases h

end Literal

namespace Text

theorem mem_of_mem_chars {byte : UInt8} {text : Text} (hascii : byte < 0x80)
    (hsubstitute : Char.ofNat byte.toNat ≠ substitute) (h : Char.ofNat byte.toNat ∈ chars text) :
    byte ∈ text := by
  have hsize := utf8Size_of_ascii hascii
  fun_induction chars text with
  | case1 => cases h
  | case2 first rest hfirst ih =>
    rcases mem_cons.mp h with heq | hmem
    · have hnumber := congrArg (fun char : Char => char.val.toNat) heq
      have hvalid : ∀ byte : UInt8, byte < 0x80 → byte.toNat.isValidChar := by
        intro byte hbyte
        simp only [UInt8.lt_iff_toNat_lt, UInt8.reduceToNat] at hbyte
        exact .inl (by omega)
      simp only [toNat_ofNat (hvalid _ hascii), toNat_ofNat (hvalid _ hfirst)] at hnumber
      rw [UInt8.toNat_inj.mp hnumber]
      exact mem_cons_self
    · exact mem_cons_of_mem first (ih hmem)
  | case3 => exact absurd (mem_singleton.mp h) hsubstitute
  | case4 first hhigh second rest char hpair ih =>
    rcases mem_cons.mp h with rfl | hmem
    · rw [utf8Size_of_pair hpair] at hsize
      cases hsize
    · exact mem_cons_of_mem _ (mem_cons_of_mem _ (ih hmem))
  | case6 first hhigh second hpair third rest char htriple ih =>
    rcases mem_cons.mp h with rfl | hmem
    · rw [utf8Size_of_triple htriple] at hsize
      cases hsize
    · exact mem_cons_of_mem _ (mem_cons_of_mem _ (mem_cons_of_mem _ (ih hmem)))
  | case8 first hhigh second hpair third htriple fourth rest char hquadruple ih =>
    rcases mem_cons.mp h with rfl | hmem
    · rw [utf8Size_of_quadruple hquadruple] at hsize
      cases hsize
    · exact mem_cons_of_mem _ (mem_cons_of_mem _ (mem_cons_of_mem _ (mem_cons_of_mem _ (ih hmem))))
  | case5 | case7 | case9 =>
    rename_i ih
    rcases mem_cons.mp h with heq | hmem
    · exact absurd heq hsubstitute
    · exact mem_cons_of_mem _ (ih hmem)

theorem mem_of_mem_trim {byte : UInt8} {text : Text} (hascii : byte < 0x80)
    (hsubstitute : Char.ofNat byte.toNat ≠ substitute) (h : byte ∈ trim text) : byte ∈ text := by
  refine mem_of_mem_chars hascii hsubstitute ?_
  have hmem := mem_of_mem_ofChars hascii h
  rw [trimChars, mem_reverse] at hmem
  exact dropWhile_sublist _ |>.subset (mem_reverse.mp (dropWhile_sublist _ |>.subset hmem))

end Text

namespace Literal

variable {quote : UInt8} {dialect : Dialect} {value token replacement : Text}

/-! ## Clean values -/

theorem quote_cases (h : isQuote quote) :
    quote = apostrophe ∨ quote = doubleQuote ∨ quote = backtick := by
  simpa [isQuote, or_assoc] using h

theorem not_clean_cases {byte : UInt8} (h : isClean quote [byte] ≠ true) :
    byte = backslash ∨ byte = quote ∨ byte = newline := by
  refine Classical.byContradiction fun hnone => h ?_
  rw [not_or, not_or] at hnone
  simp [isClean, hnone]

/-- A byte that is not clean is below 80, and not the one that marks a byte of no character. -/
theorem ascii_of_not_clean (hquote : isQuote quote) {byte : UInt8}
    (h : isClean quote [byte] ≠ true) :
    byte < 0x80 ∧ Char.ofNat byte.toNat ≠ Text.substitute := by
  rcases quote_cases hquote with rfl | rfl | rfl <;>
    rcases not_clean_cases h with rfl | rfl | rfl <;> decide

theorem isClean_trim (hquote : isQuote quote) (h : isClean quote value) :
    isClean quote (Text.trim value) := by
  refine isClean_iff.mpr fun byte hbyte => Classical.byContradiction fun hdirty => hdirty ?_
  obtain ⟨hascii, hsubstitute⟩ := ascii_of_not_clean hquote hdirty
  exact isClean_iff.mp h byte (Text.mem_of_mem_trim hascii hsubstitute hbyte)

theorem isClean_referTo (hquote : isQuote quote)
    (h : isClean quote value) : isClean quote (referTo value) := by
  have hends : isClean quote (utf8 "var(") ∧ isClean quote (utf8 ")") := by
    rcases quote_cases hquote with rfl | rfl | rfl <;> decide
  exact isClean_append.mpr ⟨isClean_append.mpr ⟨hends.1, h⟩, hends.2⟩

theorem isClean_splice (hreplacement : isClean quote replacement) (width : Nat)
    {positions : List Nat} {offset : Nat} (h : isClean quote value) :
    isClean quote (Token.splice width replacement offset value positions) := by
  induction positions generalizing offset value with
  | nil => exact h
  | cons position later ih =>
    refine isClean_append.mpr ⟨isClean_append.mpr ⟨?_, hreplacement⟩, ih ?_⟩
    · exact isClean_of_subset h (take_subset _ _)
    · exact isClean_of_subset h (drop_subset _ _)

/-- Replacing a token in a clean value by a clean text leaves it clean. -/
theorem isClean_replaceToken (hreplacement : isClean quote replacement)
    (h : isClean quote value) :
    isClean quote (replaceToken dialect value token replacement) := by
  unfold replaceToken
  refine isClean_splice hreplacement _ ?_
  split
  · exact isClean_splice hreplacement _ h
  · exact h

/-- A clean replacement is clean in the form of the part that it replaces. -/
theorem isClean_fitForm (hquote : isQuote quote) (part : Text)
    (h : isClean quote replacement) :
    isClean quote (fitForm part replacement) := by
  unfold fitForm
  split
  · exact isClean_referTo hquote h
  · split
    · refine isClean_trim hquote (isClean_of_subset h ?_)
      exact fun byte hbyte => drop_subset _ _ (dropLast_subset _ hbyte)
    · exact h

/-- Filling spans of a clean text with clean ones leaves it clean. -/
theorem isClean_fill {items : List (Span × Text)} {offset : Nat} (h : isClean quote value)
    (hitems : ∀ item ∈ items, isClean quote item.2) :
    isClean quote (value.fill offset items) := by
  induction items generalizing offset with
  | nil => exact isClean_of_subset h (drop_subset _ _)
  | cons item later ih =>
    obtain ⟨hitem, hlater⟩ := forall_mem_cons.mp hitems
    refine isClean_append.mpr ⟨isClean_append.mpr ⟨?_, hitem⟩, ih hlater⟩
    exact isClean_of_subset h fun byte hbyte =>
      drop_subset _ _ (take_subset _ _ hbyte)

theorem isClean_positional (hquote : isQuote quote) (number : Binary64) :
    isClean quote (utf8 number.positional) := by
  obtain ⟨negative, digits, heq, hdigits⟩ := number.exists_positional
  rw [heq, isClean_append]
  refine ⟨?_, isClean_iff.mpr fun byte hmem => Classical.byContradiction fun hdirty => ?_⟩
  · rcases quote_cases hquote with rfl | rfl | rfl <;> cases negative <;> decide
  · have hbyte := hdigits byte hmem
    rcases not_clean_cases hdirty with rfl | rfl | rfl
    · revert hbyte
      decide
    · rcases quote_cases hquote with rfl | rfl | rfl <;> revert hbyte <;> decide
    · revert hbyte
      decide

/-! ## Escapes -/

variable {mode : Scan.Mode}

/-- Behind a text that holds no backslash no escape is begun. -/
theorem foldl_of_not_mem {text : Text} (hne : text ≠ []) (hbackslash : backslash ∉ text)
    (hopen : IsOpen quote mode) :
    text.foldl (next quote) mode = .literal quote ∨ text.foldl (next quote) mode = .code := by
  have hnext : ∀ (mode : Scan.Mode) (byte : UInt8), IsOpen quote mode → byte ≠ backslash →
      next quote mode byte = .literal quote ∨ next quote mode byte = .code := by
    rintro mode byte (rfl | rfl) hbyte
    · simp only [next, literalNext, beq_iff_eq, hbyte, if_false]
      split
      · exact .inr rfl
      · exact .inl rfl
    · exact .inl rfl
  induction text generalizing mode with
  | nil => exact absurd rfl hne
  | cons byte rest ih =>
    obtain ⟨hbyte, hrest⟩ := not_or.mp (mt mem_cons.mpr hbackslash)
    rw [foldl_cons]
    rcases hnext mode byte hopen (Ne.symm hbyte) with hliteral | hcode
    · rw [hliteral]
      by_cases hnil : rest = []
      · rw [hnil]
        exact .inl rfl
      · exact ih hnil hrest (.inl rfl)
    · rw [hcode, foldl_code]
      exact .inr rfl

/-- The mode behind a text that is read from an open literal is open, or the literal has ended. -/
theorem foldl_cases (hopen : IsOpen quote mode) (text : Text) :
    IsOpen quote (text.foldl (next quote) mode) ∨ text.foldl (next quote) mode = .code := by
  induction text generalizing mode with
  | nil => exact .inl hopen
  | cons byte rest ih =>
    rw [foldl_cons]
    rcases next_cases hopen byte with hnext | ⟨-, hcode⟩
    · exact ih hnext
    · rw [hcode]
      exact .inr (foldl_code rest)

/-- A literal stays open if tokens without backslashes give way to a clean text. -/
theorem foldl_rewritten {scan : Scan} {text new : Text}
    (h : dialect.Rewritten token replacement scan text new) (hne : token ≠ [])
    (hbackslash : backslash ∉ token) (hclean : isClean quote replacement)
    (hnonempty : replacement ≠ []) (hopen : IsOpen quote mode)
    (hkeeps : text.foldl (next quote) mode = .literal quote) :
    new.foldl (next quote) mode = .literal quote := by
  induction h generalizing mode with
  | refl => exact hkeeps
  | @next scan middle left rest new _ _ _ ih =>
    rw [foldl_append, foldl_append] at hkeeps ⊢
    rcases foldl_cases hopen left with hleft | hcode
    · rw [foldl_of_isClean hclean hnonempty hleft]
      -- Behind the token the literal is open without an escape, as behind the replacement.
      rcases foldl_of_not_mem hne hbackslash hleft with htoken | hcode
      · rw [htoken] at hkeeps
        exact ih (.inl rfl) hkeeps
      · rw [hcode, foldl_code] at hkeeps
        cases hkeeps
    · rw [hcode, foldl_code, foldl_code] at hkeeps
      cases hkeeps

/-- Replacing a token without blanks and backslashes in a value by a clean text keeps the literal
around the value open. -/
theorem keepsOpen_replaceToken
    (htoken : ∀ byte ∈ token, byte ≠ space ∧ byte ≠ newline ∧ byte ≠ backslash)
    (hclean : isClean quote replacement) (hnonempty : replacement ≠ [])
    (h : keepsOpen quote value) :
    keepsOpen quote (replaceToken dialect value token replacement) := by
  have hcode : ∀ value token : Text,
      (∀ byte ∈ token, byte ≠ space ∧ byte ≠ newline ∧ byte ≠ backslash) →
      keepsOpen quote value →
      keepsOpen quote (replaceCode dialect value token replacement) := by
    intro value token htoken hvalue
    rw [keepsOpen, beq_iff_eq] at hvalue ⊢
    by_cases hne : token = []
    · rw [hne]
      exact hvalue
    · have hblank : ∀ byte ∈ token, byte ≠ space ∧ byte ≠ newline := fun byte hbyte =>
        ⟨(htoken byte hbyte).1, (htoken byte hbyte).2.1⟩
      exact foldl_rewritten (Dialect.rewritten_splice hblank replacement
        (Token.hits_occurrences token (dialect.stripComments value))) hne
        (fun hmem => (htoken _ hmem).2.2 rfl) hclean hnonempty (.inl rfl) hvalue
  unfold replaceToken
  refine hcode _ _ htoken ?_
  split
  · refine hcode _ _ (fun byte hbyte => ?_) h
    have hends : ∀ byte ∈ utf8 "var(" ++ utf8 ")",
        byte ≠ space ∧ byte ≠ newline ∧ byte ≠ backslash := by decide +kernel
    simp only [referTo, mem_append] at hbyte hends
    rcases hbyte with (hbyte | hbyte) | hbyte
    · exact hends byte (.inl hbyte)
    · exact htoken byte hbyte
    · exact hends byte (.inr hbyte)
  · exact h

end Literal

end Restyle
