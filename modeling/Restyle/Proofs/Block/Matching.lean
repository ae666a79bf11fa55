import Restyle.Proofs.Declaration.Entries
import Restyle.Proofs.Text.Brackets

/-!
# Blocks are pairs of matching braces

Two braces that can be seen make a block if and only if the braces to be seen between them are
nested. Any two blocks are apart or one is inside the other, and every brace that opens inside a
block opens a block inside it: `Block.scan_exact` says all of this, and that the closing brace is
looked up by the opening one.
-/

namespace Restyle.Block

open Byte List

open DyckStep
open Declaration (Matched.levelAt_defined)

/-- The braces that can be seen among marks, in their order. -/
def braces (marks : List (UInt8 × Bool)) : List DyckStep :=
  brackets openBrace closeBrace ((marks.filter Prod.snd).map Prod.fst)

section Levels

variable {marks : List (UInt8 × Bool)} {depth result : Nat}

theorem level_cons (depth : Nat) (mark : UInt8 × Bool) (marks : List (UInt8 × Bool)) :
    level depth (mark :: marks) = (levelStep depth mark).bind (level · marks) :=
  rfl

/-- A mark is a brace that can be seen, or it changes neither the level nor the braces. -/
theorem mark_cases (mark : UInt8 × Bool) :
    mark = (openBrace, true) ∨ mark = (closeBrace, true) ∨
      (∀ depth, levelStep depth mark = some depth) ∧
        ∀ marks, braces (mark :: marks) = braces marks := by
  by_cases hopens : (mark.2 && mark.1 == openBrace)
  · simp only [Bool.and_eq_true, beq_iff_eq] at hopens
    exact .inl (Prod.ext hopens.2 hopens.1)
  by_cases hcloses : (mark.2 && mark.1 == closeBrace)
  · simp only [Bool.and_eq_true, beq_iff_eq] at hcloses
    exact .inr (.inl (Prod.ext hcloses.2 hcloses.1))
  refine .inr (.inr ⟨levelStep_plain hopens hcloses, fun marks => ?_⟩)
  obtain ⟨byte, seen⟩ := mark
  cases seen with
  | false => rfl
  | true => simp_all [braces, brackets, bracket?]

/-- The level of braces is how many more were opened than closed, if at no place more were
closed. -/
theorem level_eq_some_iff : level depth marks = some result ↔
    (∀ index, ((braces marks).take index).count D ≤ depth + ((braces marks).take index).count U) ∧
      depth + (braces marks).count U = result + (braces marks).count D := by
  induction marks generalizing depth with
  | nil => simp [level, braces, brackets]
  | cons mark marks ih =>
    rw [level_cons]
    rcases mark_cases mark with rfl | rfl | ⟨hplain, hbraces⟩
    · have hbraces : braces ((openBrace, true) :: marks) = U :: braces marks := rfl
      have hstep : levelStep depth (openBrace, true) = some (depth + 1) := rfl
      rw [hstep, Option.bind_some, ih, hbraces, ← Nat.and_forall_add_one (p := fun index =>
        ((U :: braces marks).take index).count D ≤ _)]
      simp [Nat.add_assoc, Nat.add_comm]
    · have hbraces : braces ((closeBrace, true) :: marks) = D :: braces marks := rfl
      rw [hbraces]
      cases depth with
      | zero =>
        refine iff_of_false (fun h => by cases h) fun h => ?_
        simpa using h.1 1
      | succ depth =>
        have hstep : levelStep (depth + 1) (closeBrace, true) = some depth := rfl
        rw [hstep, Option.bind_some, ih, ← Nat.and_forall_add_one (p := fun index =>
          ((D :: braces marks).take index).count D ≤ _)]
        simp [Nat.add_right_comm _ 1, ← Nat.add_assoc]
    · rw [hplain, Option.bind_some, ih, hbraces]

/-- Where there is no level, a brace closes nothing. -/
theorem exists_of_level_eq_none (h : level depth marks = none) : ∃ index,
    marks[index]? = some (closeBrace, true) ∧ level depth (marks.take index) = some 0 := by
  induction marks generalizing depth with
  | nil => cases h
  | cons mark marks ih =>
    rw [level_cons] at h
    cases hstep : levelStep depth mark with
    | some next =>
      rw [hstep] at h
      obtain ⟨index, hcloses, hlevel⟩ := ih h
      refine ⟨index + 1, hcloses, ?_⟩
      rw [take_succ_cons, level_cons, hstep]
      exact hlevel
    | none =>
      rcases mark_cases mark with rfl | rfl | ⟨hplain, -⟩
      · cases hstep
      · cases depth with
        | zero => exact ⟨0, rfl, rfl⟩
        | succ depth => cases hstep
      · rw [hplain] at hstep
        cases hstep

end Levels

section Matched

variable {marks : List (UInt8 × Bool)}

/-- Braces match if and only if those between them are nested. -/
theorem matched_iff {block : Block} : Matched marks block ↔
    marks[block.opening]? = some (openBrace, true) ∧
      marks[block.closing]? = some (closeBrace, true) ∧ block.opening < block.closing ∧
      IsDyck (braces ((marks.drop (block.opening + 1)).take
        (block.closing - (block.opening + 1)))) := by
  have hlevel : levelAt marks (block.opening + 1) block.closing = some 0 ↔
      IsDyck (braces ((marks.drop (block.opening + 1)).take
        (block.closing - (block.opening + 1)))) := by
    rw [levelAt, level_eq_some_iff, isDyck_iff, and_comm]
    simp only [Nat.zero_add]
  rw [← hlevel]
  constructor
  · exact fun h => ⟨h.opens, h.closes, h.opening_lt, h.level_zero⟩
  · rintro ⟨hopens, hcloses, hlt, hzero⟩
    exact ⟨hopens, hcloses, hlt, hzero⟩

/-- A block that opens inside another one is closed inside it. -/
theorem Matched.closing_lt {outer inner : Block} (houter : Matched marks outer)
    (hinner : Matched marks inner) (hopening : outer.opening < inner.opening)
    (hclosing : inner.opening < outer.closing) : inner.closing < outer.closing := by
  refine Nat.not_le.mp fun hle => ?_
  obtain ⟨depth, hdepth⟩ := Matched.levelAt_defined houter hopening (Nat.le_of_lt hclosing)
  obtain ⟨level, hlevel⟩ := hinner.levelAt_pos hopening hdepth hclosing hle
  rw [houter.level_zero] at hlevel
  cases hlevel

/-- Two blocks are apart, or the one that opens later is inside the other. -/
theorem Matched.apart_or_inside {first second : Block} (hfirst : Matched marks first)
    (hsecond : Matched marks second) (h : first.opening < second.opening) :
    first.closing < second.opening ∨ second.closing < first.closing := by
  rcases Nat.lt_trichotomy .. with hlt | heq | hgt
  · exact .inl hlt
  · have hcloses := hfirst.closes
    rw [heq, hsecond.opens] at hcloses
    exact absurd hcloses (by decide)
  · exact .inr (hfirst.closing_lt hsecond h hgt)

/-- A brace that opens inside a block is closed. -/
theorem Matched.exists_inner {block : Block} (h : Matched marks block) {place : Nat}
    (hafter : block.opening < place) (hbefore : place < block.closing)
    (hopens : marks[place]? = some (openBrace, true)) :
    ∃ closing, Matched marks ⟨place, closing⟩ := by
  obtain ⟨depth, hdepth⟩ := Matched.levelAt_defined h hafter (Nat.le_of_lt hbefore)
  have hzero := h.level_zero
  rw [levelAt_trans (Nat.le_succ_of_le hafter) hbefore, levelAt_succ hafter hopens, hdepth] at hzero
  change level (depth + 1) _ = some 0 at hzero
  -- If the brace stayed open up to the end of the block, the level there would be positive.
  have hnone : level 0 ((marks.drop (place + 1)).take (block.closing - (place + 1))) = none := by
    rw [Option.eq_none_iff_forall_ne_some]
    intro result hresult
    rw [← Nat.zero_add (depth + 1), level_add hresult, Option.some.injEq] at hzero
    omega
  obtain ⟨index, hcloses, hlevel⟩ := exists_of_level_eq_none hnone
  obtain ⟨hlt, -⟩ := List.getElem?_eq_some_iff.mp hcloses
  rw [getElem?_take_of_lt (by simp at hlt; omega), getElem?_drop] at hcloses
  refine ⟨place + 1 + index, hopens, hcloses, by simp; omega, ?_⟩
  rw [take_take, Nat.min_eq_left (by simp at hlt; omega)] at hlevel
  simpa [levelAt] using hlevel

end Matched

/-- The closing brace of a block is found by its opening one. -/
theorem closeOf?_eq_some_iff {blocks : List Block} {opening closing : Nat}
    (h : blocks.Pairwise fun left right => left.opening < right.opening) :
    closeOf? blocks opening = some closing ↔ ⟨opening, closing⟩ ∈ blocks := by
  rw [closeOf?, Option.map_eq_some_iff]
  constructor
  · rintro ⟨block, hfind, rfl⟩
    obtain rfl : block.opening = opening := by simpa using find?_some hfind
    exact mem_of_find?_eq_some hfind
  · intro hmem
    have hsome : (blocks.find? fun block => block.opening == opening).isSome :=
      find?_isSome.mpr ⟨_, hmem, beq_self_eq_true opening⟩
    obtain ⟨block, hfind⟩ := Option.isSome_iff_exists.mp hsome
    have hopening : block.opening = opening := by simpa using find?_some hfind
    have hnodup : (blocks.map Block.opening).Nodup := pairwise_map.mpr (h.imp Nat.ne_of_lt)
    obtain rfl := inj_on_of_nodup_map hnodup (mem_of_find?_eq_some hfind) hmem hopening
    exact ⟨_, hfind, rfl⟩

/-- The blocks of a text are the pairs of braces to be seen with nested braces between them, in the
order in which they open. Any two are apart or one is inside the other, the closing brace of each is
found by its opening one, and every brace to be seen that opens inside a block opens a block inside
it. -/
theorem scan_exact (dialect : Dialect) (text : Text) :
    (∀ block, block ∈ scan dialect text ↔
      (dialect.visible text)[block.opening]? = some (Byte.openBrace, true) ∧
        (dialect.visible text)[block.closing]? = some (Byte.closeBrace, true) ∧
        block.opening < block.closing ∧
        IsDyck (braces (((dialect.visible text).drop (block.opening + 1)).take
          (block.closing - (block.opening + 1))))) ∧
    (scan dialect text).Pairwise (fun left right => left.opening < right.opening ∧
      (left.closing < right.opening ∨ right.closing < left.closing)) ∧
    (∀ opening closing, closeOf? (scan dialect text) opening = some closing ↔
      ⟨opening, closing⟩ ∈ scan dialect text) ∧
    ∀ block ∈ scan dialect text, ∀ place, block.opening < place → place < block.closing →
      (dialect.visible text)[place]? = some (Byte.openBrace, true) →
      ∃ inner ∈ scan dialect text, inner.opening = place ∧ inner.closing < block.closing := by
  have hpairwise := Declaration.scan_pairwise_opening dialect text
  refine ⟨fun block => mem_scan_iff.trans matched_iff, hpairwise.imp_of_mem ?_,
    fun opening closing => closeOf?_eq_some_iff hpairwise, ?_⟩
  · intro left right hleft hright hlt
    exact ⟨hlt, (matched_of_mem_scan hleft).apart_or_inside (matched_of_mem_scan hright) hlt⟩
  · intro block hblock place hafter hbefore hopens
    have hmatched := matched_of_mem_scan hblock
    obtain ⟨closing, hinner⟩ := hmatched.exists_inner hafter hbefore hopens
    exact ⟨_, mem_scan_iff.mpr hinner, rfl, hmatched.closing_lt hinner hafter hbefore⟩

/-- A stylesheet with a brace in a literal, an interpolation with braces in it and braces without a
partner at both ends. -/
def mixedBraces : Text :=
  utf8 "\x7da\x7bb:'\x7d';#\x7bx\x7by\x7d\x7d\x7bc\x7d\x7d\x7b"

theorem scan_exact_mixedBraces :
    ⟨2, 19⟩ ∈ scan .scss mixedBraces ∧ closeOf? (scan .scss mixedBraces) 2 = some 19 ∧
      ∃ inner ∈ scan .scss mixedBraces, inner.opening = 16 ∧ inner.closing < 19 := by
  have hexact := scan_exact .scss mixedBraces
  have hblock : ⟨2, 19⟩ ∈ scan .scss mixedBraces :=
    (hexact.1 _).mpr ⟨by decide, by decide, by decide, DyckWord.nest 0, by decide⟩
  exact ⟨hblock, (hexact.2.2.1 _ _).mpr hblock,
    hexact.2.2.2 _ hblock 16 (by decide) (by decide) (by decide)⟩

end Restyle.Block
