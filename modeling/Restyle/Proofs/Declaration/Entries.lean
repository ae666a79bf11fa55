import Restyle.Declaration
import Restyle.Proofs.Block.Levels
import Restyle.Proofs.Text.Chars

/-!
# Entries stand apart

The entries of a block follow one another, and no place in them is inside a nested block
(`Declaration.entries_isEntry`). So the entries of any two blocks of a text have no byte in common,
nested blocks included (`Declaration.IsEntry.apart`). The value that an entry declares lies in the
entry: `Declaration.scanVisible_values`.
-/

namespace Restyle

open Block List

/-- Two spans have no byte in common. -/
def Span.Apart (left right : Span) : Prop :=
  left.stop ≤ right.start ∨ right.stop ≤ left.start

theorem Span.Apart.symm {left right : Span} (h : left.Apart right) : right.Apart left :=
  Or.symm h

theorem Span.Apart.mono {left right left' right' : Span} (h : left'.Apart right')
    (hleft : left'.start ≤ left.start ∧ left.stop ≤ left'.stop)
    (hright : right'.start ≤ right.start ∧ right.stop ≤ right'.stop) : left.Apart right := by
  unfold Span.Apart at *
  omega

/-- Which literal a text without comments is in after one more byte. -/
def Scan.readNext (dialect : Dialect) (mode : Mode) (byte : UInt8) : Mode :=
  match mode with
  | .literal quote => literalNext quote byte
  | .escape quote => .literal quote
  | _ => if dialect.isQuote byte then .literal byte else .code

namespace Declaration

open Block (levelAt levelStep levelAt_succ levelAt_trans Matched)

/-- What holds while the entries of a block are read: the depth of nested blocks is the level of the
place, and outside them the entry in progress has level zero throughout. -/
structure Reading (marks : List (UInt8 × Bool)) (start stop offset opened braces : Nat) : Prop where
  start_le : start ≤ offset
  le_stop : offset ≤ stop
  opened_le : opened ≤ offset
  level : levelAt marks start offset = some braces
  quiet : braces = 0 → ∀ place, opened ≤ place → place ≤ offset → levelAt marks start place = some 0

/-- A span between `floor` and `stop` of which every place has level zero. -/
structure IsEntry (marks : List (UInt8 × Bool)) (start stop floor : Nat) (span : Span) : Prop where
  floor_le : floor ≤ span.start
  order : span.start ≤ span.stop
  le_stop : span.stop ≤ stop
  level_zero : ∀ place, span.start ≤ place → place ≤ span.stop → levelAt marks start place = some 0

variable {marks : List (UInt8 × Bool)} {dialect : Dialect} {block : Block} {text : Text}
  {declaration : Declaration} {offset stop opened start depth : Nat} {entry : Span}

/-- The reading goes on with the entry in progress, or inside a nested block. -/
theorem Reading.next {marks : List (UInt8 × Bool)} {braces braces' : Nat}
    (h : Reading marks start stop offset opened braces) (hlt : offset < stop)
    (hlevel : levelAt marks start (offset + 1) = some braces')
    (hbraces : braces' = 0 → braces = 0) :
    Reading marks start stop (offset + 1) opened braces' where
  start_le := Nat.le_succ_of_le h.start_le
  le_stop := hlt
  opened_le := Nat.le_succ_of_le h.opened_le
  level := hlevel
  quiet := by
    intro hzero place hopened hplace
    rcases Nat.lt_or_eq_of_le hplace with hbefore | rfl
    · exact h.quiet (hbraces hzero) place hopened (Nat.le_of_lt_succ hbefore)
    · rw [hlevel, hzero]

/-- The reading goes on with a new entry. -/
theorem Reading.restart {braces : Nat}
    (h : Reading marks start stop offset opened braces) (hlt : offset < stop)
    (hlevel : levelAt marks start (offset + 1) = some 0) :
    Reading marks start stop (offset + 1) (offset + 1) 0 where
  start_le := Nat.le_succ_of_le h.start_le
  le_stop := hlt
  opened_le := Nat.le_refl _
  level := hlevel
  quiet := by
    intro _ place hopened hplace
    rw [Nat.le_antisymm hplace hopened, hlevel]

/-- The entry in progress is an entry as far as it has been read. -/
theorem Reading.isEntry (h : Reading marks start stop offset opened 0) :
    IsEntry marks start stop opened ⟨opened, offset⟩ where
  floor_le := Nat.le_refl _
  order := h.opened_le
  le_stop := h.le_stop
  level_zero := h.quiet rfl

/-- The marks between two places begin with the mark of the first. -/
theorem take_drop_eq_cons {rest : List (UInt8 × Bool)} {mark : UInt8 × Bool}
    (h : (marks.drop offset).take (stop - offset) = mark :: rest) :
    offset < stop ∧ marks[offset]? = some mark ∧
      (marks.drop (offset + 1)).take (stop - (offset + 1)) = rest := by
  obtain ⟨count, hcount⟩ : ∃ count, stop - offset = count + 1 := by
    cases hsub : stop - offset with
    | zero => simp [hsub] at h
    | succ count => exact ⟨count, rfl⟩
  cases hdrop : marks.drop offset with
  | nil => simp [hdrop] at h
  | cons first later =>
    obtain ⟨hfirst, hlater⟩ := getElem?_of_drop_eq_cons hdrop
    rw [hdrop, hcount, take_succ_cons, cons.injEq] at h
    obtain ⟨rfl, hrest⟩ := h
    refine ⟨by omega, hfirst, ?_⟩
    rw [hlater, show stop - (offset + 1) = count by omega, hrest]

/-- What one mark does to the entries that are read, if it does not close the block itself: the
entry in progress goes on, a separator ends it, or the end of a nested block begins a new one. -/
theorem entries_cons (dialect : Dialect) (stop offset opened depth : Nat) {braces braces' : Nat}
    {mark : UInt8 × Bool} (hlevel : levelStep braces mark = some braces')
    (rest : List (UInt8 × Bool)) :
    (∃ depth', (braces' = 0 → braces = 0) ∧
        entries dialect stop offset opened depth braces (mark :: rest) =
          entries dialect stop (offset + 1) opened depth' braces' rest) ∨
      braces' = 0 ∧ braces = 0 ∧
        entries dialect stop offset opened depth braces (mark :: rest) =
          ⟨opened, offset⟩ :: entries dialect stop (offset + 1) (offset + 1) 0 0 rest ∨
      braces' = 0 ∧
        entries dialect stop offset opened depth braces (mark :: rest) =
          entries dialect stop (offset + 1) (offset + 1) 0 0 rest := by
  obtain ⟨byte, seen⟩ := mark
  unfold levelStep at hlevel
  cases seen with
  | false =>
    obtain rfl : braces = braces' := by simpa using hlevel
    exact Or.inl ⟨depth, id, by simp [entries]⟩
  | true =>
    simp only [Bool.true_and] at hlevel
    by_cases hopens : (byte == Byte.openBrace)
    · obtain rfl : braces + 1 = braces' := by simpa [hopens] using hlevel
      exact Or.inl ⟨depth, by omega, by simp [entries, hopens]⟩
    · rw [if_neg hopens] at hlevel
      cases braces with
      | zero =>
        -- The brace that closes the block itself would leave no level.
        obtain ⟨hcloses, hzero⟩ : ¬ (byte == Byte.closeBrace) ∧ 0 = braces' := by
          split at hlevel
          · cases hlevel
          next hcloses => exact ⟨hcloses, Option.some.inj hlevel⟩
        subst hzero
        by_cases hends : (depth == 0 && dialect.isSeparator byte)
        · exact Or.inr (Or.inl ⟨rfl, rfl, by simp [entries, hopens, hends]⟩)
        · exact Or.inl ⟨depthNext depth byte, id, by simp [entries, hopens, hends]⟩
      | succ outer =>
        by_cases hcloses : (byte == Byte.closeBrace)
        · obtain rfl : outer = braces' := by simpa [hcloses] using hlevel
          cases outer with
          | zero => exact Or.inr (Or.inr ⟨rfl, by simp [entries, hopens, hcloses]⟩)
          | succ outer => exact Or.inl ⟨depth, by omega, by simp [entries, hopens, hcloses]⟩
        · obtain rfl : outer + 1 = braces' := by simpa [hcloses] using hlevel
          exact Or.inl ⟨depth, id, by simp [entries, hopens, hcloses]⟩

/-- The entries read from a place on begin at the entry in progress, or behind the nested block that
the place is in; they follow one another and every place of them has level zero. -/
theorem entries_isEntry {inner : List (UInt8 × Bool)} {braces : Nat}
    (hlength : stop ≤ marks.length) (hinner : (marks.drop offset).take (stop - offset) = inner)
    (hreading : Reading marks start stop offset opened braces)
    (hend : (levelAt marks start stop).isSome) :
    (∀ span ∈ entries dialect stop offset opened depth braces inner,
      IsEntry marks start stop (if braces = 0 then opened else offset) span) ∧
    (entries dialect stop offset opened depth braces inner).Pairwise fun left right =>
      left.stop ≤ right.start := by
  induction inner generalizing offset opened depth braces with
  | nil =>
    have hoffset : offset = stop := by
      have hcount := congrArg length hinner
      rw [length_take, length_drop, length_nil] at hcount
      have := hreading.le_stop
      omega
    subst hoffset
    simp only [entries]
    split
    next hlast =>
      obtain ⟨-, hbraces⟩ : opened < offset ∧ braces = 0 := by simpa using hlast
      subst hbraces
      exact ⟨forall_mem_singleton.mpr hreading.isEntry, pairwise_singleton _ _⟩
    · simp
  | cons mark inner ih =>
    obtain ⟨hlt, hmark, hrest⟩ := take_drop_eq_cons hinner
    have hopened := hreading.opened_le
    -- The levels up to the end are defined, so this one is: no brace closes the block itself.
    have hdefined : (levelAt marks start (offset + 1)).isSome := by
      rw [levelAt_trans (Nat.le_succ_of_le hreading.start_le) hlt] at hend
      exact Option.isSome_of_isSome_bind hend
    obtain ⟨braces', hlevel⟩ := Option.isSome_iff_exists.mp hdefined
    have hstep : levelStep braces mark = some braces' := by
      rw [← hlevel, levelAt_succ hreading.start_le hmark, hreading.level]
      rfl
    rcases entries_cons dialect stop offset opened depth hstep inner with
      ⟨depth', hbraces, heq⟩ | ⟨rfl, rfl, heq⟩ | ⟨rfl, heq⟩
    · rw [heq]
      obtain ⟨hspans, hpairwise⟩ :=
        @ih (offset + 1) opened depth' braces' hrest (hreading.next hlt hlevel hbraces)
      refine ⟨fun span hmem => { hspans span hmem with floor_le := ?_ }, hpairwise⟩
      have hfloor := (hspans span hmem).floor_le
      split <;> split at hfloor <;> omega
    · rw [heq]
      obtain ⟨hspans, hpairwise⟩ :=
        @ih (offset + 1) (offset + 1) 0 0 hrest (hreading.restart hlt hlevel)
      have hlater : ∀ span ∈ entries dialect stop (offset + 1) (offset + 1) 0 0 inner,
          offset < span.start := fun span hmem => (hspans span hmem).floor_le
      refine ⟨forall_mem_cons.mpr ⟨hreading.isEntry, fun span hmem => ?_⟩,
        pairwise_cons.mpr ⟨fun span hmem => Nat.le_of_lt (hlater span hmem), hpairwise⟩⟩
      exact { hspans span hmem with
        floor_le := Nat.le_trans hopened (Nat.le_of_lt (hlater span hmem)) }
    · rw [heq]
      obtain ⟨hspans, hpairwise⟩ :=
        @ih (offset + 1) (offset + 1) 0 0 hrest (hreading.restart hlt hlevel)
      refine ⟨fun span hmem => { hspans span hmem with floor_le := ?_ }, hpairwise⟩
      have hfloor : offset + 1 ≤ span.start := (hspans span hmem).floor_le
      split <;> omega

/-! ## Entries of two blocks -/

theorem Matched.levelAt_defined {place : Nat} (h : Matched marks block)
    (hafter : block.opening < place) (hbefore : place ≤ block.closing) :
    ∃ depth, levelAt marks (block.opening + 1) place = some depth := by
  have hzero := h.level_zero
  rw [levelAt_trans hafter hbefore] at hzero
  obtain ⟨depth, hdepth, -⟩ := Option.bind_eq_some_iff.mp hzero
  exact ⟨depth, hdepth⟩

/-- An entry of a block is apart from an entry of a block that opens later. -/
theorem IsEntry.apart_of_opening_lt {outer inner : Block} {left right : Span}
    (houter : Matched marks outer) (hinner : Matched marks inner)
    (hlt : outer.opening < inner.opening)
    (hleft : IsEntry marks (outer.opening + 1) outer.closing (outer.opening + 1) left)
    (hright : IsEntry marks (inner.opening + 1) inner.closing (inner.opening + 1) right) :
    left.Apart right := by
  have hleftStop := hleft.le_stop
  have hrightStart := hright.floor_le
  have hrightStop := hright.le_stop
  have hleftOrder := hleft.order
  have hrightOrder := hright.order
  by_cases hbefore : outer.closing ≤ inner.opening
  · exact Or.inl (by omega)
  · -- A common place would have level zero in the outer block and stand in the inner one.
    refine Classical.byContradiction fun hmeet => ?_
    simp only [Span.Apart, not_or, Nat.not_le] at hmeet
    obtain ⟨depth, hdepth⟩ := Matched.levelAt_defined houter hlt (Nat.le_of_lt (by omega))
    obtain ⟨level, hlevel⟩ := @Matched.levelAt_pos marks depth _ (max left.start right.start)
      inner hinner hlt hdepth (by omega) (by omega)
    have hzero := hleft.level_zero (max left.start right.start) (by omega) (by omega)
    rw [hlevel] at hzero
    exact absurd hzero (by simp)

/-- Blocks that open at the same brace are closed by the same one. -/
theorem Matched.closing_le {left right : Block} (hleft : Matched marks left)
    (hright : Matched marks right) (h : left.opening = right.opening) :
    right.closing ≤ left.closing := by
  refine Nat.not_lt.mp fun hlt => ?_
  have hopening := hleft.opening_lt
  obtain ⟨depth, hdepth⟩ := @Matched.levelAt_defined marks right (left.closing + 1) hright
    (by omega) hlt
  rw [← h, levelAt_succ hleft.opening_lt hleft.closes, hleft.level_zero] at hdepth
  cases hdepth

/-- The blocks of a text are listed by their opening braces, each once. -/
theorem scan_pairwise_opening (dialect : Dialect) (text : Text) :
    (Block.scan dialect text).Pairwise fun left right => left.opening < right.opening := by
  have hsorted : (Block.scan dialect text).Pairwise fun left right =>
      left.opening ≤ right.opening := sorted_of_mergeSort _ _
  refine (hsorted.and (scan_pairwise_ne ..)).imp_of_mem ?_
  rintro left right hleft hright ⟨hle, hne⟩
  have hleft := matched_of_mem_scan hleft
  have hright := matched_of_mem_scan hright
  refine Nat.lt_of_le_of_ne hle fun heq => hne ?_
  exact Nat.le_antisymm (Matched.closing_le hright hleft heq.symm)
    (Matched.closing_le hleft hright heq)

/-- The entries of two blocks are apart, nested or not. -/
theorem IsEntry.apart {first second : Block} {left right : Span} (hfirst : Matched marks first)
    (hsecond : Matched marks second) (hne : first.closing ≠ second.closing)
    (hleft : IsEntry marks (first.opening + 1) first.closing (first.opening + 1) left)
    (hright : IsEntry marks (second.opening + 1) second.closing (second.opening + 1) right) :
    left.Apart right := by
  rcases Nat.lt_trichotomy .. with hlt | heq | hgt
  · exact hleft.apart_of_opening_lt hfirst hsecond hlt hright
  · exact absurd (Nat.le_antisymm (Matched.closing_le hsecond hfirst heq.symm)
      (Matched.closing_le hfirst hsecond heq)) hne
  · exact (hright.apart_of_opening_lt hsecond hfirst hgt hleft).symm

/-! ## Declared values -/

/-- At the colon of an entry there is a colon, and behind it no literal is open. -/
theorem colon_spec {mode : Scan.Mode} {colon : Nat} {entry : Text}
    (h : colon? dialect mode depth entry = some colon) :
    entry[colon]? = some Byte.colon ∧
      (entry.take (colon + 1)).foldl (Scan.readNext dialect) mode = .code := by
  induction entry generalizing mode depth colon with
  | nil => cases h
  | cons byte rest ih =>
    rw [take_succ_cons, foldl_cons]
    have hlater : ∀ {depth}, (colon? dialect (Scan.readNext dialect mode byte) depth rest).map
        (· + 1) = some colon → (byte :: rest)[colon]? = some Byte.colon ∧
          (rest.take colon).foldl (Scan.readNext dialect) (Scan.readNext dialect mode byte) =
            .code := by
      intro depth hrest
      obtain ⟨before, hbefore, rfl⟩ := Option.map_eq_some_iff.mp hrest
      exact ih hbefore
    unfold colon? at h
    split at h
    · exact hlater h
    · exact hlater h
    next hliteral hescape =>
      have hcode : Scan.readNext dialect mode byte =
          if dialect.isQuote byte then .literal byte else .code := by
        rw [Scan.readNext]
        · exact fun quote => hliteral quote
        · exact fun quote => hescape quote
      split at h
      next hquote => exact hlater (by rwa [hcode, if_pos hquote])
      next hquote =>
        split at h
        next hcolon =>
          obtain rfl : 0 = colon := by simpa using h
          rw [hcode, if_neg hquote]
          exact ⟨congrArg some (eq_of_beq (Bool.and_eq_true_iff.mp hcolon).1), rfl⟩
        · exact hlater (by rwa [hcode, if_neg hquote])

theorem colon_lt {mode : Scan.Mode} {colon : Nat} {entry : Text}
    (h : colon? dialect mode depth entry = some colon) : colon < entry.length :=
  (List.getElem?_eq_some_iff.mp (colon_spec h).1).1

/-- The name that a key spells in a dialect. -/
def keyName? (dialect : Dialect) (key : Text) : Option Text :=
  if dialect = .script then unquoteKey? key else some key

/-- What a key and the span of a value declare. -/
def make? (dialect : Dialect) (key : Text) (value : Span) : Option Declaration :=
  (keyName? dialect key).bind fun name =>
    if isName dialect name then
      if value.start < value.stop then some ⟨name, value⟩ else none
    else none

/-- An entry with a colon declares what the texts before and behind the colon do. -/
theorem readIn_eq (dialect : Dialect) (text : Text) (entry : Span) :
    readIn? dialect text entry = (colon? dialect .code 0 (entry.slice text)).bind fun colon =>
      make? dialect (((Span.mk entry.start (entry.start + colon)).trim text).slice text)
        ((Span.mk (entry.start + colon + 1) entry.stop).trim text) := by
  unfold readIn? make? keyName?
  by_cases hscript : dialect = .script <;> simp [hscript]

/-- An entry declares something exactly if it has a colon, a name before it and a value behind
it. -/
theorem readIn_eq_some_iff :
    readIn? dialect text entry = some declaration ↔
      ∃ colon, colon? dialect .code 0 (entry.slice text) = some colon ∧
        keyName? dialect (((Span.mk entry.start (entry.start + colon)).trim text).slice text) =
          some declaration.name ∧
        isName dialect declaration.name ∧
        declaration.value = (Span.mk (entry.start + colon + 1) entry.stop).trim text ∧
        declaration.value.start < declaration.value.stop := by
  obtain ⟨name, value⟩ := declaration
  simp only [readIn_eq, make?, Option.bind_eq_some_iff, Option.ite_none_right_eq_some,
    Option.some.injEq, Declaration.mk.injEq]
  constructor
  · rintro ⟨colon, hcolon, _, hkey, hname, hvalue, rfl, rfl⟩
    exact ⟨colon, hcolon, hkey, hname, rfl, hvalue⟩
  · rintro ⟨colon, hcolon, hkey, hname, rfl, hvalue⟩
    exact ⟨colon, hcolon, name, hkey, hname, hvalue, rfl, rfl⟩

/-- A declared value is no empty span and lies in its entry, behind the colon. -/
theorem readIn_colon (hstop : entry.stop ≤ text.length)
    (h : readIn? dialect text entry = some declaration) :
    ∃ colon, colon? dialect .code 0 (entry.slice text) = some colon ∧
      entry.start + colon < declaration.value.start ∧
      declaration.value.start < declaration.value.stop ∧ declaration.value.stop ≤ entry.stop := by
  obtain ⟨colon, hcolon, -, -, hvalue, hlt⟩ := readIn_eq_some_iff.mp h
  have hinside := colon_lt hcolon
  rw [Span.length_slice hstop] at hinside
  have hbounds := @Span.trim_bounds ⟨entry.start + colon + 1, entry.stop⟩ text
    (by simp only; omega) hstop
  rw [← hvalue] at hbounds
  exact ⟨colon, hcolon, hbounds.1, hlt, hbounds.2.2⟩

/-- A declared value is no empty span and lies in its entry. -/
theorem readIn_bounds (hstop : entry.stop ≤ text.length)
    (h : readIn? dialect text entry = some declaration) :
    entry.start ≤ declaration.value.start ∧ declaration.value.start < declaration.value.stop ∧
      declaration.value.stop ≤ entry.stop := by
  obtain ⟨colon, -, hstart, hlt, hend⟩ := readIn_colon hstop h
  exact ⟨by omega, hlt, hend⟩

/-- The entries of a block follow one another, and no place of them is in a nested block. -/
theorem block_entries (dialect : Dialect) (hblock : Matched marks block) :
    (∀ span ∈ entries dialect block.closing (block.opening + 1) (block.opening + 1) 0 0
        ((marks.drop (block.opening + 1)).take (block.closing - (block.opening + 1))),
      IsEntry marks (block.opening + 1) block.closing (block.opening + 1) span) ∧
    (entries dialect block.closing (block.opening + 1) (block.opening + 1) 0 0
        ((marks.drop (block.opening + 1)).take (block.closing - (block.opening + 1)))).Pairwise
      fun left right => left.stop ≤ right.start := by
  have hlength : block.closing ≤ marks.length :=
    Nat.le_of_lt (List.getElem?_eq_some_iff.mp hblock.closes).1
  have hreading : Reading marks (block.opening + 1) block.closing (block.opening + 1)
      (block.opening + 1) 0 :=
    { start_le := Nat.le_refl _
      le_stop := hblock.opening_lt
      opened_le := Nat.le_refl _
      level := levelAt_self ..
      quiet := fun _ place hopened hplace => by
        rw [Nat.le_antisymm hplace hopened, levelAt_self] }
  exact entries_isEntry hlength rfl hreading (by rw [hblock.level_zero]; rfl)

/-- The values declared in a block follow one another, and each lies in an entry of the block. -/
theorem scanVisible_values (hblock : Matched marks block) (hlength : marks.length = text.length) :
    (∀ declaration ∈ scanVisible dialect text marks block.interior, ∃ entry,
      IsEntry marks (block.opening + 1) block.closing (block.opening + 1) entry ∧
        entry.start ≤ declaration.value.start ∧
        declaration.value.start < declaration.value.stop ∧
        declaration.value.stop ≤ entry.stop ∧ entry.stop ≤ text.length) ∧
    (scanVisible dialect text marks block.interior).Pairwise fun left right =>
      left.value.stop ≤ right.value.start := by
  obtain ⟨hentries, hpairwise⟩ := block_entries dialect hblock
  have hclosing : block.closing < text.length := by
    rw [← hlength]
    exact (List.getElem?_eq_some_iff.mp hblock.closes).1
  have hstop : ∀ entry, IsEntry marks (block.opening + 1) block.closing (block.opening + 1) entry →
      entry.stop ≤ text.length := fun entry hentry => by
    have := hentry.le_stop
    omega
  constructor
  · intro declaration hmem
    obtain ⟨entry, hentry, hread⟩ := mem_filterMap.mp hmem
    have hisEntry := hentries entry hentry
    obtain ⟨hstart, hlt, hend⟩ := readIn_bounds (hstop entry hisEntry) hread
    exact ⟨entry, hisEntry, hstart, hlt, hend, hstop entry hisEntry⟩
  · refine pairwise_filterMap.mpr (hpairwise.imp_of_mem ?_)
    intro left right hleft hright horder first hfirst second hsecond
    obtain ⟨-, -, hend⟩ := readIn_bounds (hstop left (hentries left hleft)) hfirst
    obtain ⟨hstart, -, -⟩ := readIn_bounds (hstop right (hentries right hright)) hsecond
    omega

end Declaration

end Restyle
