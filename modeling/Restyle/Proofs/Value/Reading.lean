import Restyle.Proofs.Dialect.Comments
import Restyle.Proofs.Token.Pieces
import Restyle.Value.Reference

/-!
# Values read in pieces

A value is read into the custom names in its code and the bytes between them, those of its comments
included: `Value.Reads`. To replace one name by another is to rename pieces, and the value that
comes out is read as the renamed pieces (`Value.Reads.rename`), so any number of replacements is a
single renaming of the pieces of the first value.
-/

namespace Restyle

open Dialect Piece Token

open Token (isIdentifierByte isCustomName)

/-- The scan may go on with the text: it stands where a word may follow if one follows. -/
def Scan.Ready (scan : Scan) (text : Text) : Prop :=
  scan.QuoteSound ∧ ∀ first, text.head? = some first → isIdentifierByte first → scan.Settled

theorem Scan.Ready.next {scan : Scan} {byte : UInt8} {rest : Text} (h : scan.Ready (byte :: rest))
    (dialect : Dialect) : (scan.next dialect byte rest.head?).Ready rest := by
  refine ⟨h.1.next dialect byte _, fun first hfirst hword => ?_⟩
  rw [hfirst]
  exact h.1.settled_next dialect byte hword

theorem Scan.Settled.ready_afterWord {scan : Scan} (h : scan.Settled) (rest : Text) :
    scan.afterWord.Ready rest :=
  ⟨h.afterWord.1, fun _ _ _ => h.afterWord⟩

namespace Value

/-- The pieces are those of the value and of its code. -/
structure Reads (dialect : Dialect) (value : Text) (pieces : List Piece) : Prop where
  sources : sources pieces = value
  mask : mask pieces = dialect.stripComments value
  canonical : Piece.Canonical true pieces

variable {change : Text → Text} {value : Text} (dialect : Dialect)

/-- A byte of an identifier in the code is a byte of the value. -/
theorem stripFrom_agree (scan : Scan) (value : Text) :
    ∀ pair ∈ value.zip (dialect.stripFrom scan value), isIdentifierByte pair.2 →
      pair.1 = pair.2 := by
  induction value generalizing scan with
  | nil => simp
  | cons byte rest ih =>
    rw [stripFrom_cons]
    refine List.forall_mem_cons.mpr ⟨fun hword => ?_, ih _⟩
    split at hword
    next hcomment =>
      have hblank : isIdentifierByte (blankByte byte) = false := by
        rcases blankByte_cases byte with h | h <;> rw [h] <;> decide
      rw [hblank] at hword
      cases hword
    next hcode => rw [if_neg hcode]

theorem exists_reads (value : Text) : ∃ pieces, Reads dialect value pieces := by
  obtain ⟨pieces, hsources, hmask, hcanonical⟩ := exists_canonical true
    (length_stripFrom dialect Scan.start value).symm
    (stripFrom_agree dialect Scan.start value)
  exact ⟨pieces, hsources, hmask, hcanonical⟩

variable {dialect : Dialect} {pieces : List Piece}

/-- Renaming what is read keeps what is in comments. -/
theorem stripFrom_rename {scan : Scan} {isOpen : Bool}
    (hchange : ∀ name, isCustomName name → isCustomName (change name))
    (hscan : scan.Ready (sources pieces)) (hcanonical : Piece.Canonical isOpen pieces)
    (h : dialect.stripFrom scan (sources pieces) = mask pieces) :
    dialect.stripFrom scan (sources (pieces.map (rename change))) =
      mask (pieces.map (rename change)) := by
  induction pieces generalizing scan isOpen with
  | nil => exact h
  | cons piece pieces ih =>
    cases piece with
    | byte source shown =>
      have hhead := (hcanonical.2.head?_rename hchange).1
      change dialect.stripFrom scan (source :: sources pieces) =
        shown :: mask pieces at h
      change dialect.stripFrom scan (source :: sources (pieces.map (rename change))) =
        shown :: mask (pieces.map (rename change))
      rw [stripFrom_cons, List.cons.injEq] at h ⊢
      rw [hhead]
      exact ⟨h.1, ih (hscan.next dialect) hcanonical.2 h.2⟩
    | name text =>
      obtain ⟨-, hname, -, hrest⟩ := hcanonical
      have hword := isIdentifierByte_of_isCustomName hname
      have hne := ne_nil_of_isCustomName hname
      have hsettled : scan.Settled := by
        refine hscan.2 Byte.hyphen ?_ (by decide)
        change (text ++ _).head? = _
        rw [List.head?_append, head?_of_isCustomName hname]
        rfl
      change dialect.stripFrom scan (text ++ sources pieces) = text ++ mask pieces at h
      rw [stripFrom_word dialect hsettled hne hword] at h
      have hlength : (veilWord scan.hidesWord text).length = text.length := by
        unfold veilWord
        split <;> simp
      obtain ⟨hseen, hlater⟩ := List.append_inj h hlength
      -- A name that can be read is in no comment, and neither is any name in its place.
      have hhides : scan.hidesWord = false := by
        rw [Bool.eq_false_iff]
        intro hhides
        rw [hhides] at hseen
        have hspace := hword Byte.space (by
          rw [← hseen]
          exact List.mem_replicate.mpr ⟨by simpa using hne, rfl⟩)
        cases hspace
      have hnew := hchange text hname
      change dialect.stripFrom scan
        (change text ++ sources (pieces.map (rename change))) =
        change text ++ mask (pieces.map (rename change))
      rw [stripFrom_word dialect hsettled (ne_nil_of_isCustomName hnew)
        (isIdentifierByte_of_isCustomName hnew), hhides,
        ih (hsettled.ready_afterWord _) hrest hlater]
      rfl

/-- The value that renamed pieces make is read as these pieces. -/
theorem Reads.rename (h : Reads dialect value pieces)
    (hchange : ∀ name, isCustomName name → isCustomName (change name)) :
    Reads dialect (Piece.sources (pieces.map (Piece.rename change)))
      (pieces.map (rename change)) where
  sources := rfl
  mask := by
    refine (stripFrom_rename hchange ?_ h.canonical ?_).symm
    · exact ⟨Scan.start_settled.1, fun _ _ _ => Scan.start_settled⟩
    · rw [h.mask, h.sources]
      rfl
  canonical := h.canonical.rename hchange

theorem isReference_eq_false {name : Text} (h : isCustomName name) :
    isReference name = false := by
  obtain ⟨rest, rfl, -⟩ := exists_of_isCustomName h
  rfl

/-- Replacing one name by another renames the pieces that are the name. -/
theorem Reads.replaceToken {token replacement : Text} (h : Reads dialect value pieces)
    (htoken : isCustomName token) (hreplacement : isCustomName replacement) :
    Value.replaceToken dialect value token replacement =
      Piece.sources (pieces.map (Piece.rename (Piece.only token replacement))) := by
  rw [Value.replaceToken, isReference_eq_false hreplacement, if_neg (by simp),
    replaceCode, ← h.mask, ← h.sources]
  exact Piece.replaceMasked_eq replacement htoken h.canonical

/-- A name occurs in the code of a value once for each piece that is the name. -/
theorem Reads.count {token : Text} (h : Reads dialect value pieces)
    (htoken : isCustomName token) :
    count token (dialect.stripComments value) = pieces.count (.name token) := by
  rw [← h.mask, count_mask htoken h.canonical]

end Value

end Restyle
