import Restyle.Block

/-!
# Levels of braces

The level of a place inside a block is the number of nested blocks around it. `Block.level` counts
it from the block's start, and fails where a brace closes more than was opened. Every block that the
scan finds is a pair of braces with level zero between them (`Block.matched_of_mem_scan`), so what
stands inside a nested block has a positive level there (`Block.Matched.levelAt_pos`). That is what
keeps the entries of two blocks apart.
-/

namespace Restyle

open Byte List

theorem sorted_of_mergeSort {α : Type} (start : α → Nat) (items : List α) :
    (items.mergeSort fun left right => start left ≤ start right).Pairwise fun left right =>
      start left ≤ start right := by
  refine (pairwise_mergeSort ?_ ?_ _).imp of_decide_eq_true
  · intro first second third hfirst hsecond
    exact decide_eq_true (Nat.le_trans (of_decide_eq_true hfirst) (of_decide_eq_true hsecond))
  · intro left right
    simpa using Nat.le_total (start left) (start right)

/-- Blocks that are closed in order are found as they are. -/
theorem Block.scan_of_closed {dialect : Dialect} {text : Text} (blocks : List Block)
    (hblocks : closed 0 [] (dialect.visible text) = blocks)
    (hsorted : blocks.Pairwise fun left right => left.opening ≤ right.opening) :
    scan dialect text = blocks := by
  rw [scan, hblocks]
  exact mergeSort_of_pairwise (hsorted.imp decide_eq_true)

variable (dialect : Dialect)

theorem Sight.map_fst_visible (sight : Sight) (text : Text) :
    (sight.visible dialect text).map Prod.fst = text := by
  induction text generalizing sight with
  | nil => rfl
  | cons byte rest ih => rw [Sight.visible, map_cons, ih]

theorem Dialect.length_visible (text : Text) : (dialect.visible text).length = text.length := by
  rw [← length_map Prod.fst, Dialect.visible, Sight.map_fst_visible]

namespace Block

/-- What one mark makes of the depth of braces. A closing brace at depth zero closes nothing. -/
def levelStep (depth : Nat) (mark : UInt8 × Bool) : Option Nat :=
  if mark.2 && mark.1 == openBrace then some (depth + 1)
  else if mark.2 && mark.1 == closeBrace then
    match depth with
    | 0 => none
    | depth + 1 => some depth
  else some depth

/-- The depth of braces after marks, if no brace among them closes more than was opened. -/
def level (depth : Nat) (marks : List (UInt8 × Bool)) : Option Nat :=
  marks.foldlM levelStep depth

/-- The depth of braces at `place`, counted from `start`. -/
def levelAt (marks : List (UInt8 × Bool)) (start place : Nat) : Option Nat :=
  level 0 ((marks.drop start).take (place - start))

theorem level_append (depth : Nat) (left right : List (UInt8 × Bool)) :
    level depth (left ++ right) = (level depth left).bind (level · right) := by
  simp only [level, foldlM_append]
  rfl

variable {mark : UInt8 × Bool} {marks : List (UInt8 × Bool)}

variable {rest : List (UInt8 × Bool)} {depth start place : Nat} {dialect : Dialect} {block : Block}

/-- More open braces around a mark add to the level after it. -/
theorem levelStep_add {next : Nat} (h : levelStep depth mark = some next) (more : Nat) :
    levelStep (depth + more) mark = some (next + more) := by
  unfold levelStep at h ⊢
  by_cases hopens : (mark.2 && mark.1 == openBrace)
  · rw [if_pos hopens, Option.some.injEq] at h ⊢
    omega
  · rw [if_neg hopens] at h ⊢
    by_cases hcloses : (mark.2 && mark.1 == closeBrace)
    · rw [if_pos hcloses] at h ⊢
      cases depth with
      | zero => simp at h
      | succ depth =>
        rw [Nat.succ_add]
        simp_all
    · rw [if_neg hcloses, Option.some.injEq] at h ⊢
      omega

/-- More open braces around marks add to every level among them. -/
theorem level_add {result : Nat} (h : level depth marks = some result) (more : Nat) :
    level (depth + more) marks = some (result + more) := by
  induction marks generalizing depth with
  | nil =>
    have : depth = result := by simpa [level] using h
    simp [level, this]
  | cons mark marks ih =>
    simp only [level, foldlM_cons, Option.bind_eq_bind, Option.bind_eq_some_iff] at h ⊢
    obtain ⟨next, hnext, hrest⟩ := h
    exact ⟨next + more, levelStep_add hnext more, ih hrest⟩

theorem levelAt_self (marks : List (UInt8 × Bool)) (start : Nat) :
    levelAt marks start start = some 0 := by
  simp [levelAt, level]

/-- The level at a place, counted over an earlier one. -/
theorem levelAt_trans {marks : List (UInt8 × Bool)} {middle : Nat} (hstart : start ≤ middle)
    (hplace : middle ≤ place) :
    levelAt marks start place = (levelAt marks start middle).bind
      (level · ((marks.drop middle).take (place - middle))) := by
  rw [levelAt, show place - start = (middle - start) + (place - middle) by omega, take_add,
    level_append, drop_drop, show start + (middle - start) = middle by omega]
  rfl

theorem levelAt_succ (hstart : start ≤ place) (hmark : marks[place]? = some mark) :
    levelAt marks start (place + 1) = (levelAt marks start place).bind (levelStep · mark) := by
  have hcut : (marks.drop place).take (place + 1 - place) = [mark] := by
    rw [Nat.add_sub_cancel_left, take_one, head?_drop, hmark]
    rfl
  rw [levelAt_trans hstart (Nat.le_succ place), hcut]
  simp [level]

/-- A block is a pair of matching braces among the marks: the levels between them begin and end at
zero. -/
structure Matched (marks : List (UInt8 × Bool)) (block : Block) : Prop where
  opens : marks[block.opening]? = some (openBrace, true)
  closes : marks[block.closing]? = some (closeBrace, true)
  opening_lt : block.opening < block.closing
  level_zero : levelAt marks (block.opening + 1) block.closing = some 0

/-- A place inside a block has a positive level in every block that is open around it. -/
theorem Matched.levelAt_pos {inner : Block} (hinner : Matched marks inner)
    (hstart : start ≤ inner.opening) (hdepth : levelAt marks start inner.opening = some depth)
    (hafter : inner.opening < place) (hbefore : place ≤ inner.closing) :
    ∃ level, levelAt marks start place = some (level + 1) := by
  have hopened : levelAt marks start (inner.opening + 1) = some (depth + 1) := by
    rw [levelAt_succ hstart hinner.opens, hdepth]
    rfl
  have hzero := hinner.level_zero
  rw [levelAt_trans hafter hbefore] at hzero
  obtain ⟨here, hhere, -⟩ := Option.bind_eq_some_iff.mp hzero
  refine ⟨here + depth, ?_⟩
  rw [levelAt_trans (Nat.le_succ_of_le hstart) hafter, hopened]
  have hadd := level_add hhere (depth + 1)
  simpa [Nat.add_assoc] using hadd

/-- The stack holds the braces that are open: those before `offset` with as many braces open behind
them as stand above them on the stack. -/
def StackMatched (marks : List (UInt8 × Bool)) (offset : Nat) (stack : List Nat) : Prop :=
  ∀ depth opening, stack[depth]? = some opening ↔
    opening < offset ∧ marks[opening]? = some (openBrace, true) ∧
      levelAt marks (opening + 1) offset = some depth

section Stack

variable {marks : List (UInt8 × Bool)} {offset : Nat} {stack : List Nat}

theorem stackMatched_nil (marks : List (UInt8 × Bool)) : StackMatched marks 0 [] := by
  simp [StackMatched]

/-- Behind a mark that opens nothing the same braces are open as before it, but for the level. -/
theorem open_succ_iff {opening depth : Nat} (hmark : marks[offset]? = some mark)
    (hne : mark ≠ (openBrace, true)) :
    (opening < offset + 1 ∧ marks[opening]? = some (openBrace, true) ∧
        levelAt marks (opening + 1) (offset + 1) = some depth) ↔
      opening < offset ∧ marks[opening]? = some (openBrace, true) ∧
        (levelAt marks (opening + 1) offset).bind (levelStep · mark) = some depth := by
  constructor
  · rintro ⟨hlt, hopens, hlevel⟩
    have hoffset : opening ≠ offset := by
      rintro rfl
      exact hne (Option.some.inj (hmark.symm.trans hopens))
    have hlt : opening < offset := by omega
    exact ⟨hlt, hopens, levelAt_succ hlt hmark ▸ hlevel⟩
  · rintro ⟨hlt, hopens, hlevel⟩
    exact ⟨Nat.lt_succ_of_lt hlt, hopens, (levelAt_succ hlt hmark).trans hlevel⟩

theorem StackMatched.skip (h : StackMatched marks offset stack)
    (hmark : marks[offset]? = some mark) (hplain : ∀ depth, levelStep depth mark = some depth) :
    StackMatched marks (offset + 1) stack := by
  intro depth opening
  have hne : mark ≠ (openBrace, true) := by
    rintro rfl
    exact absurd (hplain 0) (by decide)
  rw [open_succ_iff hmark hne, h]
  simp [hplain]

theorem StackMatched.push (h : StackMatched marks offset stack)
    (hmark : marks[offset]? = some (openBrace, true)) :
    StackMatched marks (offset + 1) (offset :: stack) := by
  intro depth opening
  by_cases hlt : opening < offset
  · have hne : offset ≠ opening := Nat.ne_of_gt hlt
    rw [levelAt_succ hlt hmark]
    cases depth with
    | zero => simp [levelStep, Option.bind_eq_some_iff, hne]
    | succ depth =>
      rw [getElem?_cons_succ, h]
      simp [levelStep, Option.bind_eq_some_iff, hlt, Nat.lt_succ_of_lt hlt]
  · have hnot : ∀ depth, stack[depth]? ≠ some opening := fun depth hget => hlt ((h _ _).mp hget).1
    by_cases heq : opening = offset
    · subst heq
      cases depth with
      | zero => simp [hmark, levelAt_self]
      | succ depth => simp [hnot, levelAt_self]
    · have hbeyond : ¬ opening < offset + 1 := by omega
      cases depth with
      | zero => simp [hbeyond, Ne.symm heq]
      | succ depth => simp [hbeyond, hnot]

theorem StackMatched.pop (h : StackMatched marks offset stack)
    (hmark : marks[offset]? = some (closeBrace, true)) :
    StackMatched marks (offset + 1) stack.tail := by
  intro depth opening
  rw [open_succ_iff hmark (by decide), getElem?_tail, h]
  refine and_congr_right fun _ => and_congr_right fun _ => ?_
  have hne : closeBrace ≠ openBrace := by decide
  rcases levelAt marks (opening + 1) offset with _ | _ | level <;> simp [levelStep, hne]

/-- A brace closes the block on top of the stack. -/
theorem StackMatched.matched_iff (h : StackMatched marks offset stack) {block : Block}
    (hclosing : block.closing = offset) :
    Matched marks block ↔
      marks[offset]? = some (closeBrace, true) ∧ stack[0]? = some block.opening := by
  subst hclosing
  rw [h]
  constructor
  · rintro ⟨hopens, hcloses, hlt, hlevel⟩
    exact ⟨hcloses, hlt, hopens, hlevel⟩
  · rintro ⟨hcloses, hlt, hopens, hlevel⟩
    exact ⟨hopens, hcloses, hlt, hlevel⟩

end Stack

theorem getElem?_of_drop_eq_cons {offset : Nat} (h : marks.drop offset = mark :: rest) :
    marks[offset]? = some mark ∧ marks.drop (offset + 1) = rest := by
  constructor
  · rw [← head?_drop, h]
    rfl
  · rw [← drop_drop, h]
    rfl

theorem levelStep_plain (hopens : ¬ (mark.2 && mark.1 == openBrace))
    (hcloses : ¬ (mark.2 && mark.1 == closeBrace)) (depth : Nat) :
    levelStep depth mark = some depth := by
  unfold levelStep
  rw [if_neg hopens, if_neg hcloses]

/-- The blocks closed in what is left of the marks are the pairs of matching braces that close
there, one after the other. -/
theorem closed_matched {offset : Nat} {stack : List Nat} (hdrop : marks.drop offset = rest)
    (hstack : StackMatched marks offset stack) :
    (∀ block, block ∈ closed offset stack rest ↔ Matched marks block ∧ offset ≤ block.closing) ∧
      (closed offset stack rest).Pairwise fun left right => left.closing < right.closing := by
  induction rest generalizing offset stack with
  | nil =>
    refine ⟨fun block => ?_, .nil⟩
    refine iff_of_false (not_mem_nil) fun ⟨hmatched, hle⟩ => ?_
    have hlt := (List.getElem?_eq_some_iff.mp hmatched.closes).1
    have := drop_eq_nil_iff.mp hdrop
    omega
  | cons mark rest ih =>
    obtain ⟨byte, seen⟩ := mark
    obtain ⟨hmark, hrest⟩ := getElem?_of_drop_eq_cons hdrop
    -- A mark that is no closing brace to be seen closes nothing.
    have later : ∀ {stack'}, StackMatched marks (offset + 1) stack' →
        (byte, seen) ≠ (closeBrace, true) ∨ stack = [] →
        (∀ block, block ∈ closed (offset + 1) stack' rest ↔
          Matched marks block ∧ offset ≤ block.closing) ∧
          (closed (offset + 1) stack' rest).Pairwise fun left right =>
            left.closing < right.closing := by
      intro stack' hstack' hnone
      obtain ⟨hmatched, hpairwise⟩ := ih hrest hstack'
      refine ⟨fun block => ?_, hpairwise⟩
      rw [hmatched block]
      refine and_congr_right fun hblock => ⟨Nat.le_of_succ_le, fun hle => ?_⟩
      refine Nat.lt_of_le_of_ne hle fun heq => ?_
      obtain ⟨hcloses, htop⟩ := (hstack.matched_iff heq.symm).mp hblock
      rcases hnone with hne | rfl
      · exact hne (Option.some.inj (hmark.symm.trans hcloses))
      · cases htop
    simp only [closed]
    split
    next hopens =>
      simp only [Bool.and_eq_true, beq_iff_eq] at hopens
      obtain ⟨rfl, rfl⟩ := hopens
      exact later (hstack.push hmark) (.inl (by decide))
    next hopens =>
      split
      next hcloses =>
        simp only [Bool.and_eq_true, beq_iff_eq] at hcloses
        obtain ⟨rfl, rfl⟩ := hcloses
        cases stack with
        | nil => exact later (hstack.pop hmark) (.inr rfl)
        | cons opening outer =>
          obtain ⟨hmatched, hpairwise⟩ := ih hrest (hstack.pop hmark)
          refine ⟨fun block => ?_, pairwise_cons.mpr ⟨fun block hmem => ?_, hpairwise⟩⟩
          · rw [mem_cons, show _ ∈ closed (offset + 1) outer rest ↔ _ from hmatched block]
            constructor
            · rintro (rfl | ⟨hblock, hle⟩)
              · exact ⟨(hstack.matched_iff rfl).mpr ⟨hmark, rfl⟩, Nat.le_refl _⟩
              · exact ⟨hblock, Nat.le_of_succ_le hle⟩
            · rintro ⟨hblock, hle⟩
              rcases Nat.lt_or_eq_of_le hle with hlt | heq
              · exact .inr ⟨hblock, hlt⟩
              · have htop := ((hstack.matched_iff heq.symm).mp hblock).2
                simp_all
          · exact ((hmatched block).mp hmem).2
      next hcloses =>
        refine later (hstack.skip hmark (levelStep_plain hopens hcloses)) (.inl ?_)
        rintro ⟨rfl, rfl⟩
        exact hcloses (by decide)

/-- The blocks of a text are the pairs of matching braces among its visible bytes. -/
theorem mem_scan_iff {text : Text} :
    block ∈ scan dialect text ↔ Matched (dialect.visible text) block := by
  have hclosed := @closed_matched (dialect.visible text) (dialect.visible text) 0 [] rfl
    (stackMatched_nil _)
  rw [scan, mem_mergeSort, hclosed.1]
  exact and_iff_left (Nat.zero_le _)

theorem matched_of_mem_scan {text : Text} (h : block ∈ scan dialect text) :
    Matched (dialect.visible text) block :=
  mem_scan_iff.mp h

/-- No two blocks of a text are closed by the same brace. -/
theorem scan_pairwise_ne (dialect : Dialect) (text : Text) :
    (scan dialect text).Pairwise fun left right => left.closing ≠ right.closing := by
  refine ((mergeSort_perm _ _).pairwise_iff Ne.symm).mpr ?_
  have hpairwise := (@closed_matched (dialect.visible text) _ 0 [] rfl (stackMatched_nil _)).2
  exact hpairwise.imp Nat.ne_of_lt

end Block

end Restyle
