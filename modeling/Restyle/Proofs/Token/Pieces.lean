import Restyle.Proofs.Token.CustomName

/-!
# Texts in pieces

A text with its mask is cut into the custom names that stand by themselves and the bytes between
them. A list of pieces is `Piece.Canonical` if every name that stands by itself is a piece of its
own. Every text with its mask has such pieces (`Piece.exists_canonical`), and in terms of them a
token occurs once for each piece that is its name (`Piece.count_mask`) and is replaced by renaming
these pieces (`Piece.replaceMasked_eq`). Names may be renamed without limit: the pieces stay
canonical (`Piece.Canonical.rename`). So no occurrence is lost, none is made at a seam, and a name
that is new to the text can be taken back: `Token.replace_renames`.
-/

namespace Restyle

open List Token

/-- A byte of a text beside its byte of the mask, or a name that both have. -/
inductive Piece where
  | byte (source shown : UInt8)
  | name (text : Text)
  deriving DecidableEq

namespace Piece

open Token (isIdentifierByte isCustomName leftOpen standsAt replaceFrom)

/-- What the piece is in the text. -/
def source : Piece → Text
  | .byte source _ => [source]
  | .name text => text

/-- What the piece is in the mask. -/
def shown : Piece → Text
  | .byte _ shown => [shown]
  | .name text => text

/-- The text of pieces. -/
def sources (pieces : List Piece) : Text :=
  pieces.flatMap source

/-- The mask of pieces. -/
def mask (pieces : List Piece) : Text :=
  pieces.flatMap shown

/-- The piece with its name changed, if it is one. -/
def rename (change : Text → Text) : Piece → Piece
  | .byte source shown => .byte source shown
  | .name text => .name (change text)

/-- The change of one name to another text. -/
def only (token new : Text) : Text → Text := fun name => if name = token then new else name

/-- A name that stands by itself is a piece of its own, and no other piece is a name. `isOpen` tells
whether a token may begin with the first piece. -/
def Canonical (isOpen : Bool) : List Piece → Prop
  | [] => True
  | .byte _ shown :: rest =>
    ¬ (isOpen ∧ isCustomName ((shown :: mask rest).takeWhile isIdentifierByte)) ∧
      Canonical (leftOpen (some shown)) rest
  | .name text :: rest =>
    isOpen ∧ isCustomName text ∧ (mask rest).head?.all (! isIdentifierByte ·) ∧
      Canonical false rest

theorem length_sources (pieces : List Piece) : (sources pieces).length = (mask pieces).length := by
  induction pieces with
  | nil => rfl
  | cons piece pieces ih =>
    have hpiece : piece.source.length = piece.shown.length := by cases piece <;> rfl
    simp only [sources, mask, flatMap_cons, length_append] at ih ⊢
    omega

/-! ## Every text has pieces -/

theorem take_of_agree {text mask : Text} (hlength : text.length = mask.length)
    (hagree : ∀ pair ∈ text.zip mask, isIdentifierByte pair.2 → pair.1 = pair.2) :
    text.take (mask.takeWhile isIdentifierByte).length = mask.takeWhile isIdentifierByte := by
  induction mask generalizing text with
  | nil => simp
  | cons shown mask ih =>
    cases text with
    | nil => simp at hlength
    | cons byte text =>
      obtain ⟨hbyte, hrest⟩ := forall_mem_cons.mp hagree
      by_cases hshown : isIdentifierByte shown
      · rw [takeWhile_cons_of_pos hshown, length_cons, take_succ_cons,
          ih (by simpa using hlength) hrest, show byte = shown from hbyte hshown]
      · rw [takeWhile_cons_of_neg hshown]
        rfl

/-- A text and a mask that agree in the identifiers of the mask have canonical pieces. -/
theorem exists_canonical {text mask : Text} (isOpen : Bool) (hlength : text.length = mask.length)
    (hagree : ∀ pair ∈ text.zip mask, isIdentifierByte pair.2 → pair.1 = pair.2) :
    ∃ pieces, sources pieces = text ∧ Piece.mask pieces = mask ∧ Canonical isOpen pieces := by
  induction hsize : mask.length using Nat.strongRecOn generalizing text mask isOpen with
  | ind size ih =>
    by_cases hname : isOpen ∧ isCustomName (mask.takeWhile isIdentifierByte)
    · -- The run at the start is a name, and what it leaves of text and mask is shorter.
      obtain ⟨hopen, hname⟩ := hname
      have hpos : 0 < (mask.takeWhile isIdentifierByte).length := by
        obtain ⟨rest, hrest, -⟩ := exists_of_isCustomName hname
        simp [hrest]
      have hle := (takeWhile_sublist isIdentifierByte (l := mask)).length_le
      have hrun := take_of_agree hlength hagree
      have hmask : mask.drop (mask.takeWhile isIdentifierByte).length =
          mask.dropWhile isIdentifierByte := by
        have hparts := @List.takeWhile_append_dropWhile _ isIdentifierByte mask
        calc mask.drop (mask.takeWhile isIdentifierByte).length
            = (mask.takeWhile isIdentifierByte ++ mask.dropWhile isIdentifierByte).drop
                (mask.takeWhile isIdentifierByte).length := by rw [hparts]
          _ = mask.dropWhile isIdentifierByte := drop_left
      obtain ⟨pieces, hsources, hshown, hpieces⟩ := @ih (mask.dropWhile isIdentifierByte).length
        (by rw [← hmask, length_drop]; omega)
        (text.drop (mask.takeWhile isIdentifierByte).length) (mask.dropWhile isIdentifierByte)
        false (by rw [← hmask, length_drop, length_drop, hlength])
        (by
          rw [← hmask, zip_eq_zipWith, ← drop_zipWith]
          exact fun pair hmem => hagree pair (mem_of_mem_drop hmem)) rfl
      refine ⟨.name (mask.takeWhile isIdentifierByte) :: pieces, ?_, ?_, hopen, hname, ?_, hpieces⟩
      · rw [sources, flatMap_cons, ← sources, hsources]
        refine Eq.trans (congrArg (· ++ _) hrun.symm) ?_
        exact take_append_drop _ _
      · rw [Piece.mask, flatMap_cons, ← Piece.mask, hshown, shown, takeWhile_append_dropWhile]
      · rw [hshown]
        have hstop := head?_dropWhile_not isIdentifierByte mask
        cases hhead : (mask.dropWhile isIdentifierByte).head? <;> simp_all
    · cases mask with
      | nil => exact ⟨[], (length_eq_zero_iff.mp hlength).symm, rfl, trivial⟩
      | cons shown mask =>
        cases text with
        | nil => simp at hlength
        | cons byte text =>
          obtain ⟨-, hrest⟩ := forall_mem_cons.mp hagree
          obtain ⟨pieces, rfl, rfl, hpieces⟩ := ih mask.length
            (by rw [← hsize]; exact Nat.lt_succ_self _)
            (leftOpen (some shown)) (by simpa using hlength) hrest rfl
          exact ⟨.byte byte shown :: pieces, rfl, rfl, hname, hpieces⟩

/-! ## Replacing and counting -/

variable {token rest : Text} {before : Option UInt8} {pieces : List Piece} {isOpen : Bool}
  {change : Text → Text}

/-- A run that is a name is replaced if it is the token. -/
theorem rewriteRun_eq {name : Text} (new : Text) (htoken : isCustomName token)
    (hname : isCustomName name) (hbefore : leftOpen before) :
    rewriteRun token new before name = only token new name := by
  unfold rewriteRun only
  by_cases heq : name = token
  · subst heq
    simp [hbefore]
  · have hsuffix : token.isSuffixOf name = false := by
      rw [Bool.eq_false_iff, ne_eq, isSuffixOf_iff_suffix]
      exact fun h => heq (eq_of_suffix htoken hname h)
    simp [hsuffix, heq]

/-- No token stands at a byte of canonical pieces. -/
theorem Canonical.standsAt_eq_false (htoken : isCustomName token) {source shown : UInt8}
    (h : Canonical (leftOpen before) (.byte source shown :: pieces)) :
    standsAt token before (shown :: mask pieces) = false := by
  rw [standsAt_eq_takeWhile (isIdentifierByte_of_isCustomName htoken),
    Bool.eq_false_iff, ne_eq, Bool.and_eq_true, beq_iff_eq]
  rintro ⟨hopen, hrun⟩
  exact h.1 ⟨hopen, by rw [hrun, htoken]⟩

/-- Replacing a token in canonical pieces renames those that are its name. -/
theorem replaceFrom_eq (new : Text) (htoken : isCustomName token)
    (h : Canonical (leftOpen before) pieces) :
    replaceFrom token new 0 before ((sources pieces).zip (mask pieces)) =
      sources (pieces.map (rename (only token new))) := by
  have hbytes := isIdentifierByte_of_isCustomName htoken
  induction pieces generalizing before with
  | nil => rfl
  | cons piece pieces ih =>
    have hsnd : ((sources pieces).zip (mask pieces)).map Prod.snd = mask pieces :=
      map_snd_zip (Nat.le_of_eq (length_sources pieces).symm)
    cases piece with
    | byte source shown =>
      change replaceFrom token new 0 before
        ((source, shown) :: (sources pieces).zip (mask pieces)) =
        source :: sources (pieces.map (rename (only token new)))
      rw [replaceFrom, hsnd, h.standsAt_eq_false htoken, ih h.2]
      rfl
    | name text =>
      obtain ⟨hopen, hname, hhead, hrest⟩ := h
      have hself : (text.zip text).map Prod.snd = text := map_snd_zip (Nat.le_refl _)
      change replaceFrom token new 0 before ((text ++ sources pieces).zip (text ++ mask pieces)) =
        only token new text ++ sources (pieces.map (rename (only token new)))
      rw [zip_append rfl, replaceFrom_append new hbytes (Nat.zero_le _)
        (Or.inr (by rwa [hsnd])), hself,
        replaceFrom_run new (ne_nil_of_isCustomName htoken) hbytes
          (isIdentifierByte_of_isCustomName hname),
        rewriteRun_eq new htoken hname hopen, ih]
      rwa [leftOpen_getLast?_of_isCustomName hname]

/-- Replacing a token in a text by its mask renames the pieces that are its name. -/
theorem replaceMasked_eq (new : Text) (htoken : isCustomName token) (h : Canonical true pieces) :
    replaceMasked (sources pieces) (mask pieces) token new =
      sources (pieces.map (rename (only token new))) := by
  rw [replaceMasked_eq_replaceFrom new (ne_nil_of_isCustomName htoken)
    (length_sources pieces), @replaceFrom_eq token none pieces new htoken h]

/-- The run at the start of a text that begins with one ends where it does. -/
theorem takeWhile_run {run : Text} (hne : run ≠ []) (hrun : ∀ byte ∈ run, isIdentifierByte byte)
    (hrest : rest.head?.all (! isIdentifierByte ·)) :
    (run ++ rest).takeWhile isIdentifierByte = run := by
  rw [takeWhile_append_of_separated hne (Or.inr hrest)]
  simpa using @List.takeWhile_append_of_pos _ _ _ [] hrun

theorem occurrencesFrom_skip {word : Text} {offset skip : Nat} (hskip : skip = word.length) :
    occurrencesFrom token offset skip before (word ++ rest) =
      occurrencesFrom token (offset + word.length) 0 (word.getLast?.or before) rest := by
  induction word generalizing offset skip before with
  | nil =>
    subst hskip
    rfl
  | cons byte word ih =>
    subst hskip
    rw [length_cons, cons_append, occurrencesFrom, ih rfl, getLast?_cons_or,
      Nat.add_assoc, Nat.add_comm 1]

/-- The search goes on behind a run no end of which is the token. -/
theorem occurrencesFrom_run {run : Text} {offset : Nat}
    (hbytes : ∀ byte ∈ token, isIdentifierByte byte) (hrun : ∀ byte ∈ run, isIdentifierByte byte)
    (hrest : rest.head?.all (! isIdentifierByte ·)) (hsuffix : ¬ token <:+ run) :
    occurrencesFrom token offset 0 before (run ++ rest) =
      occurrencesFrom token (offset + run.length) 0 (run.getLast?.or before) rest := by
  induction run generalizing offset before with
  | nil => rfl
  | cons byte run ih =>
    have hwhole : (byte :: (run ++ rest)).takeWhile isIdentifierByte = byte :: run :=
      takeWhile_run (cons_ne_nil _ _) hrun hrest
    have hstands : standsAt token before (byte :: (run ++ rest)) = false := by
      rw [standsAt_eq_takeWhile hbytes, hwhole, Bool.eq_false_iff, ne_eq, Bool.and_eq_true,
        beq_iff_eq]
      rintro ⟨-, rfl⟩
      exact hsuffix (suffix_refl _)
    rw [cons_append, occurrencesFrom, hstands, if_neg (by simp),
      ih (fun next hmem => hrun next (mem_cons_of_mem _ hmem))
        (fun h => hsuffix (h.trans (suffix_cons _ _))), getLast?_cons_or,
      length_cons, Nat.add_assoc, Nat.add_comm 1]

/-- A token occurs in canonical pieces once for each that is its name. -/
theorem length_occurrencesFrom (htoken : isCustomName token) {offset : Nat}
    (h : Canonical (leftOpen before) pieces) :
    (occurrencesFrom token offset 0 before (mask pieces)).length =
      pieces.count (.name token) := by
  have hbytes := isIdentifierByte_of_isCustomName htoken
  induction pieces generalizing offset before with
  | nil => rfl
  | cons piece pieces ih =>
    cases piece with
    | byte source shown =>
      change (occurrencesFrom token offset 0 before (shown :: mask pieces)).length = _
      rw [occurrencesFrom, h.standsAt_eq_false htoken, if_neg (by simp), ih h.2,
        count_cons_of_ne (by simp)]
    | name text =>
      obtain ⟨hopen, hname, hhead, hrest⟩ := h
      change (occurrencesFrom token offset 0 before (text ++ mask pieces)).length = _
      have hlater : Canonical (leftOpen (text.getLast?.or before)) pieces := by
        rwa [leftOpen_getLast?_of_isCustomName hname]
      by_cases heq : text = token
      · subst heq
        have hstands : standsAt text before (text ++ mask pieces) := by
          rw [standsAt_eq_takeWhile hbytes,
            takeWhile_run (ne_nil_of_isCustomName hname) hbytes hhead, hopen,
            Bool.true_and, beq_self_eq_true]
        rw [count_cons_self]
        cases text with
        | nil => cases hname
        | cons byte text =>
          rw [cons_append] at hstands ⊢
          rw [occurrencesFrom, if_pos hstands, length_cons, occurrencesFrom_skip (by simp),
            ← getLast?_cons_or, ih hlater]
      · have hsuffix : ¬ token <:+ text := fun h => heq (eq_of_suffix htoken hname h)
        rw [occurrencesFrom_run hbytes (isIdentifierByte_of_isCustomName hname) hhead
          hsuffix, ih hlater, count_cons_of_ne (by simpa using heq)]

/-- A token occurs in a mask once for each canonical piece that is its name. -/
theorem count_mask (htoken : isCustomName token) (h : Canonical true pieces) :
    Token.count token (mask pieces) = pieces.count (.name token) := by
  have hne : token.isEmpty = false := by simpa using ne_nil_of_isCustomName htoken
  rw [Token.count, occurrences, hne]
  exact @length_occurrencesFrom token none pieces htoken 0 h

/-! ## Renaming -/

/-- Renaming keeps the first byte of a text and of its mask. -/
theorem Canonical.head?_rename (hchange : ∀ name, isCustomName name → isCustomName (change name))
    (h : Canonical isOpen pieces) :
    (sources (pieces.map (rename change))).head? = (sources pieces).head? ∧
      (mask (pieces.map (rename change))).head? = (mask pieces).head? := by
  cases pieces with
  | nil => exact ⟨rfl, rfl⟩
  | cons piece pieces =>
    cases piece with
    | byte source shown => exact ⟨rfl, rfl⟩
    | name text =>
      have hold := head?_of_isCustomName h.2.1
      have hnew := head?_of_isCustomName (hchange text h.2.1)
      have hhead : ∀ rest rest' : Text, (change text ++ rest).head? = (text ++ rest').head? := by
        intro rest rest'
        rw [head?_append, head?_append, hold, hnew]
        rfl
      exact ⟨hhead _ _, hhead _ _⟩

/-- The run at the start of a mask that begins with a name is the name. -/
theorem takeWhile_name {text : Text} (hname : isCustomName text)
    (hrest : rest.head?.all (! isIdentifierByte ·)) :
    (text ++ rest).takeWhile isIdentifierByte = text :=
  takeWhile_run (ne_nil_of_isCustomName hname) (isIdentifierByte_of_isCustomName hname) hrest

/-- Renaming changes the run at the start of a mask only if the run ends with a name. -/
theorem Canonical.takeWhile_rename
    (hchange : ∀ name, isCustomName name → isCustomName (change name))
    (h : Canonical isOpen pieces) :
    (mask (pieces.map (rename change))).takeWhile isIdentifierByte =
        (mask pieces).takeWhile isIdentifierByte ∨
      ∃ left name, isCustomName name ∧
        (mask pieces).takeWhile isIdentifierByte = left ++ name ∧
        (mask (pieces.map (rename change))).takeWhile isIdentifierByte = left ++ change name := by
  induction pieces generalizing isOpen with
  | nil => exact Or.inl rfl
  | cons piece pieces ih =>
    cases piece with
    | byte source shown =>
      change (shown :: mask (pieces.map (rename change))).takeWhile isIdentifierByte =
          (shown :: mask pieces).takeWhile isIdentifierByte ∨ ∃ left name, _ ∧
        (shown :: mask pieces).takeWhile isIdentifierByte = left ++ name ∧
        (shown :: mask (pieces.map (rename change))).takeWhile isIdentifierByte =
          left ++ change name
      by_cases hshown : isIdentifierByte shown
      · rw [takeWhile_cons_of_pos hshown, takeWhile_cons_of_pos hshown]
        rcases ih h.2 with hsame | ⟨left, name, hname, hold, hnew⟩
        · exact Or.inl (by rw [hsame])
        · exact Or.inr ⟨shown :: left, name, hname, by rw [hold]; rfl, by rw [hnew]; rfl⟩
      · rw [takeWhile_cons_of_neg hshown, takeWhile_cons_of_neg hshown]
        exact Or.inl rfl
    | name text =>
      obtain ⟨-, hname, hhead, hrest⟩ := h
      refine Or.inr ⟨[], text, hname, takeWhile_name hname hhead,
        takeWhile_name (hchange text hname) ?_⟩
      change (mask (pieces.map (rename change))).head?.all _
      rw [(hrest.head?_rename hchange).2, hhead]

/-- Names may be renamed without limit. -/
theorem Canonical.rename (hchange : ∀ name, isCustomName name → isCustomName (change name))
    (h : Canonical isOpen pieces) : Canonical isOpen (pieces.map (rename change)) := by
  induction pieces generalizing isOpen with
  | nil => trivial
  | cons piece pieces ih =>
    cases piece with
    | byte source shown =>
      refine ⟨fun ⟨hopen, hname⟩ => ?_, ih h.2⟩
      by_cases hshown : isIdentifierByte shown
      · rw [takeWhile_cons_of_pos hshown] at hname
        rcases h.2.takeWhile_rename hchange with hsame | ⟨left, name, hleft, -, hnew⟩
        · refine h.1 ⟨hopen, ?_⟩
          rwa [takeWhile_cons_of_pos hshown, ← hsame]
        · -- A run that ends with a name, but does not begin with it, is none.
          rw [hnew, ← cons_append,
            isCustomName_append (hchange name hleft) (cons_ne_nil _ _)] at hname
          cases hname
      · rw [takeWhile_cons_of_neg hshown] at hname
        cases hname
    | name text =>
      obtain ⟨hopen, hname, hhead, hrest⟩ := h
      refine ⟨hopen, hchange text hname, ?_, ih hrest⟩
      rw [(hrest.head?_rename hchange).2, hhead]

theorem map_rename_eq_self (h : ∀ name, .name name ∈ pieces → change name = name) :
    pieces.map (rename change) = pieces := by
  refine (map_congr_left fun piece hmem => ?_).trans (map_id _)
  cases piece with
  | byte source shown => rfl
  | name text => rw [rename, h text hmem]; rfl

end Piece

/-! ## Renaming names in a text -/

namespace Piece

open Token (isCustomName isIdentifierByte)

/-- Canonical pieces of a text that is its own mask. -/
structure Spells (pieces : List Piece) (text : Text) : Prop where
  sources : sources pieces = text
  mask : mask pieces = text
  canonical : Canonical true pieces

theorem exists_spells (text : Text) : ∃ pieces, Spells pieces text := by
  have hagree : ∀ pair ∈ text.zip text, isIdentifierByte pair.2 → pair.1 = pair.2 := by
    intro pair hmem _
    rw [zip_eq_zipWith, zipWith_self] at hmem
    obtain ⟨byte, -, rfl⟩ := mem_map.mp hmem
    rfl
  obtain ⟨pieces, hsources, hmask, hcanonical⟩ := exists_canonical true rfl hagree
  exact ⟨pieces, hsources, hmask, hcanonical⟩

/-- A text and its mask that agree do so when names are changed. -/
theorem mask_rename {pieces : List Piece} (h : sources pieces = mask pieces)
    (change : Text → Text) :
    mask (pieces.map (rename change)) = sources (pieces.map (rename change)) := by
  induction pieces with
  | nil => rfl
  | cons piece pieces ih =>
    -- Both texts of a piece are equally long, so they agree piece by piece.
    have hlength : piece.source.length = piece.shown.length := by cases piece <;> rfl
    obtain ⟨hpiece, hrest⟩ : piece.source = piece.shown ∧ sources pieces = mask pieces :=
      append_inj h hlength
    have hrenamed : (piece.rename change).shown = (piece.rename change).source := by
      cases piece with
      | byte source shown => exact hpiece.symm
      | name text => rfl
    show (piece.rename change).shown ++ mask (pieces.map (rename change)) =
      (piece.rename change).source ++ sources (pieces.map (rename change))
    rw [hrenamed, ih hrest]

namespace Spells

variable {pieces : List Piece} {text : Text}

/-- A name occurs in a text once for each piece that is the name. -/
theorem count_eq (h : Spells pieces text) {name : Text} (hname : isCustomName name) :
    Token.count name text = pieces.count (.name name) := by
  rw [← h.mask, count_mask hname h.canonical]

/-- The pieces of a text in which a name is replaced by another are renamed. -/
theorem replace (h : Spells pieces text) {token new : Text}
    (htoken : isCustomName token) (hnew : isCustomName new) :
    Spells (pieces.map (rename (only token new))) (Token.replace text token new) := by
  have hreplaced := replaceMasked_eq new htoken h.canonical
  rw [h.sources, h.mask] at hreplaced
  have hchange : ∀ name, isCustomName name →
      isCustomName (only token new name) := by
    intro name hname
    unfold only
    split
    · exact hnew
    · exact hname
  refine ⟨hreplaced.symm, ?_, h.canonical.rename hchange⟩
  rw [mask_rename (h.sources.trans h.mask.symm)]
  exact hreplaced.symm

end Spells

/-- How often a name is among pieces of which one name was changed to another. -/
theorem count_rename {token new : Text} (hne : token ≠ new) (other : Text) (pieces : List Piece) :
    (pieces.map (rename (only token new))).count (.name other) =
      if other = token then 0
      else if other = new then pieces.count (.name other) + pieces.count (.name token)
      else pieces.count (.name other) := by
  induction pieces with
  | nil => simp
  | cons piece pieces ih =>
    cases piece with
    | byte source shown =>
      show (.byte source shown :: pieces.map (rename (only token new))).count (.name other) = _
      rw [count_cons_of_ne (by simp), count_cons_of_ne (by simp), count_cons_of_ne (by simp), ih]
    | name text =>
      show (.name (only token new text) ::
        pieces.map (rename (only token new))).count (.name other) = _
      simp only [only]
      -- Which of the two names the text is, if any, decides all counts.
      by_cases htext : text = token <;> grind

theorem map_rename_back {token new : Text} {pieces : List Piece} (hnone : .name new ∉ pieces) :
    (pieces.map (rename (only token new))).map (rename (only new token)) = pieces := by
  rw [map_map]
  have hcompose : rename (only new token) ∘ rename (only token new) =
      rename (only new token ∘ only token new) := by
    funext piece
    cases piece <;> rfl
  rw [hcompose]
  refine map_rename_eq_self fun name hname => ?_
  by_cases htoken : name = token
  · simp [only, htoken]
  · have hother : name ≠ new := by
      rintro rfl
      exact hnone hname
    simp [only, htoken, hother]

end Piece

namespace Token

/-- Of two different custom names let the first be replaced by the second in a text. Then the first
occurs no more, the second occurs as often as both did before, and every other custom name occurs as
often as it did. If the second name did not occur before, replacing it by the first gives the text
back. -/
theorem replace_renames (text : Text) {token new : Text} (htoken : IsCustomName token)
    (hnew : IsCustomName new) (hne : token ≠ new) :
    let renamed := replace text token new
    count token renamed = 0 ∧
    count new renamed = count new text + count token text ∧
    (∀ other, IsCustomName other → other ≠ token → other ≠ new →
      count other renamed = count other text) ∧
    (count new text = 0 → replace renamed new token = text) := by
  rw [← isCustomName_iff] at htoken hnew
  obtain ⟨pieces, hpieces⟩ := Piece.exists_spells text
  have hrenamed := hpieces.replace htoken hnew
  refine ⟨?_, ?_, fun other hother hothertoken hotherreplacement => ?_, fun hnone => ?_⟩
  · rw [hrenamed.count_eq htoken, Piece.count_rename hne, if_pos rfl]
  · rw [hrenamed.count_eq hnew, hpieces.count_eq hnew, hpieces.count_eq htoken,
      Piece.count_rename hne, if_neg hne.symm, if_pos rfl]
  · rw [← isCustomName_iff] at hother
    rw [hrenamed.count_eq hother, hpieces.count_eq hother, Piece.count_rename hne,
      if_neg hothertoken, if_neg hotherreplacement]
  · rw [hpieces.count_eq hnew, count_eq_zero] at hnone
    have hback := (hrenamed.replace hnew htoken).sources
    rw [Piece.map_rename_back hnone] at hback
    exact hback.symm.trans hpieces.sources

/-- Names beside one another, with prefixes and doubled hyphens: only the two names that stand by
themselves are renamed, and they can be renamed back. -/
theorem replace_renames_crowded :
    (IsCustomName (utf8 "--a") ∧ IsCustomName (utf8 "--b-1") ∧ utf8 "--a" ≠ utf8 "--b-1" ∧
      count (utf8 "--b-1") (utf8 "--a--a ---a,--a_--a-1") = 0) ∧
    replace (utf8 "--a--a ---a,--a_--a-1") (utf8 "--a") (utf8 "--b-1") =
      utf8 "--a--a ---b-1,--b-1_--a-1" ∧
    count (utf8 "--b-1") (utf8 "--a--a ---b-1,--b-1_--a-1") = 2 ∧
    replace (utf8 "--a--a ---b-1,--b-1_--a-1") (utf8 "--b-1") (utf8 "--a") =
      utf8 "--a--a ---a,--a_--a-1" := by
  have htoken : IsCustomName (utf8 "--a") := by decide
  have hreplacement : IsCustomName (utf8 "--b-1") := by decide
  have hne : utf8 "--a" ≠ utf8 "--b-1" := by decide
  have hnew : count (utf8 "--b-1") (utf8 "--a--a ---a,--a_--a-1") = 0 := by decide
  have hreplaced : replace (utf8 "--a--a ---a,--a_--a-1") (utf8 "--a") (utf8 "--b-1") =
      utf8 "--a--a ---b-1,--b-1_--a-1" := by decide
  obtain ⟨-, hcount, -, hback⟩ :=
    replace_renames (utf8 "--a--a ---a,--a_--a-1") htoken hreplacement hne
  rw [hreplaced] at hcount hback
  refine ⟨⟨htoken, hreplacement, hne, hnew⟩, hreplaced, ?_, hback hnew⟩
  rw [hcount, hnew]
  decide

end Token

end Restyle
