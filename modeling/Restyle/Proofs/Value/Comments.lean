import Mathlib.Tactic.MkIffOfInductiveProp
import Restyle.Proofs.Dialect.Marks
import Restyle.Proofs.Text.Encoding
import Restyle.Proofs.Value.Parts
import Restyle.Value.Numeral

/-!
# Comments of a value that is rewritten

A token without blanks that occurs in the code of a value stands outside its comments. A replacement
that opens and closes nothing leaves the scan of the value as it was, so the comments of the value
stay (`Value.keeps_replaceToken`) and its code is the old code with the token replaced
(`Value.stripComments_replaceCode`).
-/

namespace Restyle

open Byte Dialect List Scan Text Token

namespace Token

/-- The token stands at every position of the text, which begins at `offset`, and no two of them
overlap. -/
def Hits (token : Text) (offset : Nat) (text : Text) : List Nat → Prop
  | [] => True
  | position :: later =>
    offset ≤ position ∧ token <+: text.drop (position - offset) ∧
      Hits token (position + token.length) (text.drop (position - offset + token.length)) later

theorem Hits.cons {token text : Text} {offset : Nat} {positions : List Nat}
    (h : Hits token (offset + 1) text positions) (byte : UInt8) :
    Hits token offset (byte :: text) positions := by
  cases positions with
  | nil => trivial
  | cons position later =>
    obtain ⟨hle, hprefix, hlater⟩ := h
    have hdrop : position - offset = position - (offset + 1) + 1 := by omega
    refine ⟨Nat.le_of_succ_le hle, ?_, ?_⟩
    · rwa [hdrop, drop_succ_cons]
    · rwa [hdrop, Nat.add_right_comm, drop_succ_cons]

theorem hits_occurrencesFrom {token : Text} (hne : token ≠ []) (offset skip : Nat)
    (before : Option UInt8) (text : Text) :
    Hits token (offset + skip) (text.drop skip)
      (occurrencesFrom token offset skip before text) := by
  induction text generalizing offset skip before with
  | nil => trivial
  | cons byte rest ih =>
    cases skip with
    | succ skip =>
      have hlater := ih (offset + 1) skip (some byte)
      rwa [Nat.add_right_comm] at hlater
    | zero =>
      simp only [occurrencesFrom]
      split
      next hstands =>
        have hpositive : 0 < token.length := length_pos_iff.mpr hne
        have hlater := ih (offset + 1) (token.length - 1) (some byte)
        have hprefix : token <+: byte :: rest := by
          simp only [standsAt, Bool.and_eq_true, isPrefixOf_iff_prefix] at hstands
          exact hstands.1.1
        refine ⟨Nat.le_refl _, by simpa using hprefix, ?_⟩
        rw [Nat.add_zero, Nat.sub_self, Nat.zero_add, drop_zero]
        rw [show offset + 1 + (token.length - 1) = offset + token.length by omega] at hlater
        rwa [show token.length = token.length - 1 + 1 by omega, drop_succ_cons,
          ← show token.length = token.length - 1 + 1 by omega]
      · exact (ih (offset + 1) 0 (some byte)).cons byte

theorem hits_occurrences (token text : Text) : Hits token 0 text (occurrences token text) := by
  unfold occurrences
  split
  · trivial
  next hne => exact hits_occurrencesFrom (by simpa using hne) 0 0 none text

end Token

namespace Dialect

variable {dialect : Dialect} {scan : Scan}

variable {token replacement : Text} {positions : List Nat} {text : Text}

/-- A text without blanks that stands in the code of another stands outside its comments. -/
theorem unmarked_of_isPrefix (hblank : ∀ byte ∈ token, byte ≠ space ∧ byte ≠ newline)
    (h : token <+: dialect.stripFrom scan text) :
    ∃ rest, text = token ++ rest ∧
      ∀ mark ∈ scan.marksUntil dialect rest.head? token, mark.2 = false := by
  induction token generalizing scan text with
  | nil => exact ⟨text, rfl, fun mark hmark => by cases hmark⟩
  | cons byte token ih =>
    obtain ⟨hbyte, hblank⟩ := forall_mem_cons.mp hblank
    cases text with
    | nil => simp [stripFrom] at h
    | cons first text =>
      rw [stripFrom_cons, cons_prefix_cons] at h
      obtain ⟨hfirst, hlater⟩ := h
      obtain ⟨rest, rfl, hmarks⟩ := ih hblank hlater
      -- A byte of a comment would have been blanked.
      obtain ⟨hmark, hshown⟩ := unmarked_of_shown (hfirst ▸ hbyte)
      obtain rfl : byte = first := hfirst.trans hshown
      rw [head?_append] at hmark hmarks
      refine ⟨rest, rfl, ?_⟩
      rw [marksUntil_cons, forall_mem_cons]
      exact ⟨hmark, hmarks⟩

/-- The token has been replaced at some places outside comments in a text that is read from a state
of the scan. -/
inductive Rewritten (dialect : Dialect) (token replacement : Text) : Scan → Text → Text → Prop where
  | refl (scan : Scan) (text : Text) : Rewritten dialect token replacement scan text text
  | next {scan middle : Scan} {left rest new : Text} :
      scan.run dialect (token ++ rest).head? left = middle →
      (∀ mark ∈ middle.marksUntil dialect rest.head? token, mark.2 = false) →
      Rewritten dialect token replacement (middle.run dialect rest.head? token) rest new →
      Rewritten dialect token replacement scan (left ++ (token ++ rest))
        (left ++ (replacement ++ new))

/-- A token without blanks is replaced outside comments if it is replaced where it stands in the
code. -/
theorem rewritten_splice (hblank : ∀ byte ∈ token, byte ≠ space ∧ byte ≠ newline)
    (replacement : Text) {offset : Nat}
    (h : Token.Hits token offset (dialect.stripFrom scan text) positions) :
    Rewritten dialect token replacement scan text
      (splice token.length replacement offset text positions) := by
  induction positions generalizing scan text offset with
  | nil => exact .refl scan text
  | cons position later ih =>
    obtain ⟨-, hprefix, hlater⟩ := h
    rw [← drop_drop, drop_stripFrom] at hlater
    rw [drop_stripFrom] at hprefix
    rw [splice, ← drop_drop, append_assoc]
    obtain ⟨rest, hrest, hmarks⟩ := unmarked_of_isPrefix hblank hprefix
    rw [hrest, drop_stripFrom, stateAt, drop_left, take_left] at hlater
    have htext : text = text.take (position - offset) ++ (token ++ rest) := by
      rw [← hrest, take_append_drop]
    rw [stateAt, hrest] at hmarks hlater
    rw [hrest, drop_left]
    conv => arg 5; rw [htext]
    exact .next rfl hmarks (ih hlater)

/-- What stands outside comments between two parts of a text stays as it is when they are blanked,
and the parts are blanked by themselves. -/
theorem stripFrom_around {left middle right : Text}
    (h : ∀ mark ∈ (scan.run dialect (middle ++ right).head? left).marksUntil dialect right.head?
      middle, mark.2 = false) :
    dialect.stripFrom scan (left ++ (middle ++ right)) =
      ((scan.marksUntil dialect (middle ++ right).head? left).map fun mark =>
        if mark.2 then blankByte mark.1 else mark.1) ++
      (middle ++ dialect.stripFrom
        ((scan.run dialect (middle ++ right).head? left).run dialect right.head? middle)
          right) := by
  rw [stripFrom_eq_map, marks_append, marks_append, map_append, map_append, ← stripFrom_eq_map]
  refine congrArg (_ ++ ·) (congrArg (· ++ _) ?_)
  refine Eq.trans (map_congr_left fun mark hmark => ?_) (map_fst_marksUntil ..)
  rw [h mark hmark, if_neg Bool.false_ne_true]

/-- A token outside comments gives way to a replacement that opens and closes nothing: the scan
marks what stands in front as it did, it marks nothing of the replacement, and it goes on behind it
as behind the token. -/
theorem scan_replacement {scan' : Scan} {left token rest replacement : Text} (hne : token ≠ [])
    (htoken : dialect.isEven token) (hreplacement : dialect.isInert replacement)
    (hsound : scan.Sound dialect) (halike : scan.Alike dialect scan')
    (hmarks : ∀ mark ∈ (scan.run dialect (token ++ rest).head? left).marksUntil dialect rest.head?
      token, mark.2 = false) (new : Text) :
    let middle := scan'.run dialect (replacement ++ new).head? left
    scan'.marksUntil dialect (replacement ++ new).head? left =
        scan.marksUntil dialect (token ++ rest).head? left ∧
      (∀ mark ∈ middle.marksUntil dialect new.head? replacement, mark.2 = false) ∧
      Scan.Alike dialect
        ((scan.run dialect (token ++ rest).head? left).run dialect rest.head? token)
        (middle.run dialect new.head? replacement) := by
  obtain ⟨heven, hnonempty, hbytes⟩ := isInert_iff.mp hreplacement
  have hmiddleSound := hsound.run (token ++ rest).head? left
  obtain ⟨houtside, hpass⟩ := run_unmarked hmiddleSound hne (isPassed_of_isEven htoken) hmarks
  -- Up to the token the new text is read as the old one.
  have hmiddle := halike.run (token ++ rest).head? left
  have houtside' : (scan'.run dialect (token ++ rest).head? left).isOutside := by
    rw [← hmiddle.isOutside, houtside]
  obtain ⟨hrun, hleft⟩ := run_of_isHarmless houtside' (isHarmless_of_isInert hreplacement new)
  have hsound' := hmiddle.sound hmiddleSound
  have hmarks' := @Scan.unmarked_of_slash_notMem dialect _ _ (fun hmem => (hbytes _ hmem).1 rfl)
    houtside' new.head?
  obtain ⟨-, hpass'⟩ := run_unmarked hsound' hnonempty (isPassed_of_isEven heven) hmarks'
  -- Behind the replacement the scan stands as behind the token.
  simp only [hrun, hpass, hpass']
  exact ⟨hleft.trans (halike.marksUntil _ _).symm, hmarks', hmiddle.pass htoken heven⟩

namespace Rewritten

variable {token replacement text new : Text}

/-- A replacement that opens and closes nothing keeps the comments of the text, and whether it ends
in one. -/
theorem runs_eq (h : Rewritten dialect token replacement scan text new) (hne : token ≠ [])
    (htoken : dialect.isEven token) (hreplacement : dialect.isInert replacement)
    {scan' : Scan} (hsound : scan.Sound dialect) (halike : scan.Alike dialect scan') :
    (scan'.marks dialect new).runs = (scan.marks dialect text).runs ∧
      (scan'.marks dialect new).endsMarked = (scan.marks dialect text).endsMarked := by
  induction h generalizing scan' with
  | refl scan text => rw [halike.marks]; exact ⟨rfl, rfl⟩
  | @next scan middle left rest new hrun hmarks hrest ih =>
    subst hrun
    obtain ⟨-, hnonempty, -⟩ := isInert_iff.mp hreplacement
    obtain ⟨hleft, hmarks', hbehind⟩ :=
      scan_replacement hne htoken hreplacement hsound halike hmarks new
    obtain ⟨hruns, hends⟩ := ih ((hsound.run _ left).run _ token) hbehind
    obtain ⟨holdRuns, holdEnds⟩ := scan.runs_marks_around dialect hne hmarks
    obtain ⟨hnewRuns, hnewEnds⟩ := scan'.runs_marks_around dialect hnonempty hmarks'
    rw [holdRuns, hnewRuns, holdEnds, hnewEnds, hleft, hruns, hends]
    exact ⟨rfl, rfl⟩

/-- A well-formed replacement of a well-formed token keeps a text well formed. -/
theorem wellFormed (h : Rewritten dialect token replacement scan text new) (hne : token ≠ [])
    (htoken : Text.wellFormed token) (hreplacement : Text.wellFormed replacement)
    (htext : Text.wellFormed text) : Text.wellFormed new := by
  induction h with
  | refl => exact htext
  | next _ _ _ ih =>
    obtain ⟨hleft, hrest⟩ := wellFormed_around hne htoken htext
    exact wellFormed_append hleft (wellFormed_append hreplacement (ih hrest))

end Rewritten

/-- Replacing a token in the code of a text by what opens and closes nothing leaves the code of the
text with the token replaced. -/
theorem stripFrom_splice (hblank : ∀ byte ∈ token, byte ≠ space ∧ byte ≠ newline)
    (hne : token ≠ []) (htoken : dialect.isEven token)
    (hreplacement : dialect.isInert replacement) {scan' : Scan}
    (hsound : scan.Sound dialect) (halike : scan.Alike dialect scan') {offset : Nat}
    (h : Token.Hits token offset (dialect.stripFrom scan text) positions) :
    dialect.stripFrom scan' (splice token.length replacement offset text positions) =
      splice token.length replacement offset (dialect.stripFrom scan text) positions := by
  induction positions generalizing scan scan' text offset with
  | nil =>
    show dialect.stripFrom scan' text = dialect.stripFrom scan text
    rw [stripFrom_eq_map, stripFrom_eq_map, halike.marks]
  | cons position later ih =>
    obtain ⟨-, hprefix, hlater⟩ := h
    rw [drop_stripFrom] at hprefix
    obtain ⟨rest, hrest, hmarks⟩ := unmarked_of_isPrefix hblank hprefix
    obtain ⟨left, hleft⟩ : ∃ left, text.take (position - offset) = left := ⟨_, rfl⟩
    have htext : text = left ++ (token ++ rest) := by
      rw [← hleft, ← hrest, take_append_drop]
    have hwidth : left.length = position - offset := by
      have hlength := congrArg length hrest
      rw [length_drop, length_append] at hlength
      have hpositive : 0 < token.length := length_pos_iff.mpr hne
      rw [← hleft, length_take]
      omega
    rw [stateAt, hleft, hrest] at hmarks
    -- The text and its code are cut at the token in the same way.
    have hcode := stripFrom_around hmarks
    rw [← htext] at hcode
    have hmapped : ((scan.marksUntil dialect (token ++ rest).head? left).map fun mark =>
        if mark.2 then blankByte mark.1 else mark.1).length = left.length := by
      rw [length_map, length_marksUntil]
    rw [hcode, ← hwidth, ← drop_drop, drop_left' hmapped, drop_left] at hlater
    rw [hcode, splice, splice, ← hwidth, ← drop_drop, ← drop_drop,
      drop_left' hmapped, drop_left, take_left' hmapped, htext, take_left,
      drop_left, drop_left, append_assoc, append_assoc]
    obtain ⟨hfront, hinside, hbehind⟩ := scan_replacement hne htoken hreplacement hsound halike
      hmarks (splice token.length replacement (position + token.length) rest later)
    rw [stripFrom_around hinside, hfront, ih ((hsound.run _ left).run _ token) hbehind hlater]

/-- The replacement can take the token's place wherever the token occurs in code, and no comment is
opened or closed by that. -/
@[mk_iff]
structure Fits (dialect : Dialect) (token replacement : Text) : Prop where
  blank : ∀ byte ∈ token, byte ≠ space ∧ byte ≠ newline
  even : dialect.isEven token
  inert : dialect.isInert replacement
  tokenFormed : wellFormed token
  replacementFormed : wellFormed replacement

/-- What may take the place of a token may also take that of a reference to it. -/
theorem Fits.referTo (h : dialect.Fits token replacement) :
    dialect.Fits (Value.referTo token) replacement where
  blank := by
    intro byte hbyte
    simp only [Value.referTo, mem_append] at hbyte
    rcases hbyte with (hbyte | hbyte) | hbyte
    · have hopening : ∀ byte ∈ utf8 "var(", byte ≠ space ∧ byte ≠ newline := by
        decide +kernel
      exact hopening byte hbyte
    · exact h.blank byte hbyte
    · have hclosing : ∀ byte ∈ utf8 ")", byte ≠ space ∧ byte ≠ newline := by
        decide +kernel
      exact hclosing byte hbyte
  even := by
    have hbytes : ∀ dialect : Dialect, (utf8 "var(").all (isPassed dialect) ∧
        (utf8 ")").all (isPassed dialect) := by
      intro dialect
      cases dialect <;> decide
    have heven := h.even
    simp only [isEven, Value.referTo, Bool.and_eq_true, Bool.or_eq_true, all_append] at heven ⊢
    refine ⟨⟨⟨(hbytes dialect).1, heven.1⟩, (hbytes dialect).2⟩, heven.2.imp id fun hbalanced => ?_⟩
    have hclosed : isBalanced (0 + 1) (token ++ utf8 ")") := isBalanced_append hbalanced (by decide)
    have hopened : ∀ rest, isBalanced 0 (utf8 "var(" ++ rest) = isBalanced 1 rest := fun _ => rfl
    rwa [append_assoc, hopened]
  inert := h.inert
  tokenFormed := wellFormed_append
    (wellFormed_append (wellFormed_utf8 "var(") h.tokenFormed) (wellFormed_utf8 ")")
  replacementFormed := h.replacementFormed

end Dialect

namespace Value

theorem opening_eq : utf8 "var(" = [0x76, 0x61, 0x72, 0x28] :=
  rfl

theorem opening_ne_nil : utf8 "var(" ≠ [] :=
  cons_ne_nil _ _

theorem length_opening : (utf8 "var(").length = 4 :=
  rfl

theorem closing_eq : utf8 ")" = [closeParen] :=
  rfl

variable {dialect : Dialect} {token replacement : Text}

/-- The code of a value in which a token was replaced is the code of the value with the token
replaced. -/
theorem stripComments_replaceCode
    (hblank : ∀ byte ∈ token, byte ≠ space ∧ byte ≠ newline)
    (htoken : dialect.isEven token) (hreplacement : dialect.isInert replacement)
    (value : Text) :
    dialect.stripComments (replaceCode dialect value token replacement) =
      Token.replace (dialect.stripComments value) token replacement := by
  by_cases hne : token = []
  · subst hne
    rfl
  · exact stripFrom_splice hblank hne htoken hreplacement (start_sound dialect)
      ⟨rfl, fun _ => rfl⟩ (hits_occurrences token (dialect.stripComments value))

/-- A value has become another, with the same comments. -/
structure Keeps (dialect : Dialect) (old new : Text) : Prop where
  comments : dialect.comments new = dialect.comments old
  ends : (dialect.marks new).endsMarked = (dialect.marks old).endsMarked
  formed : wellFormed old → wellFormed new

theorem Keeps.refl (dialect : Dialect) (value : Text) : Keeps dialect value value :=
  ⟨rfl, rfl, id⟩

theorem Keeps.trans {first second third : Text} (h : Keeps dialect first second)
    (h' : Keeps dialect second third) : Keeps dialect first third :=
  ⟨h'.comments.trans h.comments, h'.ends.trans h.ends, fun hformed => h'.formed (h.formed hformed)⟩

/-- Replacing a token in the code of a value keeps its comments. -/
theorem keeps_replaceCode (h : dialect.Fits token replacement) (value : Text) :
    Keeps dialect value (replaceCode dialect value token replacement) := by
  by_cases hne : token = []
  · subst hne
    exact Keeps.refl ..
  · have hrewritten := rewritten_splice h.blank replacement
      (hits_occurrences token (dialect.stripComments value))
    obtain ⟨hruns, hends⟩ :=
      hrewritten.runs_eq hne h.even h.inert (start_sound dialect) ⟨rfl, fun _ => rfl⟩
    exact ⟨hruns, hends, hrewritten.wellFormed hne h.tokenFormed h.replacementFormed⟩

/-- Replacing a token in a value keeps its comments, also where references to the token are
replaced. -/
theorem keeps_replaceToken (h : dialect.Fits token replacement) (value : Text) :
    Keeps dialect value (replaceToken dialect value token replacement) := by
  unfold replaceToken
  split
  · exact (keeps_replaceCode h.referTo value).trans (keeps_replaceCode h _)
  · exact keeps_replaceCode h value

end Value

end Restyle
