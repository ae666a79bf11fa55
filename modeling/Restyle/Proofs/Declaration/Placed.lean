import Mathlib.Data.List.Flatten
import Restyle.Proofs.Declaration.Words

/-!
# Declarations in their blocks

`Declaration.placed` lists the declarations of a text with the blocks that they stand in. The values
of any two of them are apart (`Declaration.placed_apart`), and a block around a place of a value has
the block of the value inside it (`Declaration.nested_of_place`). If a word stands in a value, the
same declarations are placed in the same blocks whichever word stands there:
`Declaration.placed_word`.
-/

namespace Restyle

open List

open Dialect (veilWord)
open Token (IsWord)

/-- The block lies in another one, or is it. -/
def Block.Inside (inner outer : Block) : Prop :=
  outer.opening ≤ inner.opening ∧ inner.closing ≤ outer.closing

instance (inner outer : Block) : Decidable (inner.Inside outer) :=
  inferInstanceAs (Decidable (_ ∧ _))

/-- A declaration with its block and the number of the block in the text. -/
structure Declaration.Placed where
  number : Nat
  block : Block
  declaration : Declaration

namespace Declaration

namespace Placed

/-- The span of the declared value. -/
def value (placed : Placed) : Span :=
  placed.declaration.value

/-- The declaration where it stands with a word of another length at a place. -/
def stretch (position length : Nat) (placed : Placed) : Placed :=
  ⟨placed.number, placed.block.stretch position length,
    placed.declaration.moved (Span.stretch position length)⟩

end Placed

/-- The declarations of a text without comments, block by block. -/
def placed (dialect : Dialect) (stripped : Text) : List Placed :=
  (Block.scan dialect stripped).zipIdx.flatMap fun item =>
    (scan dialect stripped item.1.interior).map (Placed.mk item.2 item.1)

variable {dialect : Dialect} {stripped : Text}

variable {item : Placed}

theorem mem_placed : item ∈ placed dialect stripped ↔
    (Block.scan dialect stripped)[item.number]? = some item.block ∧
      item.declaration ∈ scan dialect stripped item.block.interior := by
  simp only [placed, mem_flatMap, mem_map, Prod.exists, mk_mem_zipIdx_iff_getElem?]
  constructor
  · rintro ⟨block, number, hblock, declaration, hdeclaration, rfl⟩
    exact ⟨hblock, hdeclaration⟩
  · rintro ⟨hblock, hdeclaration⟩
    exact ⟨item.block, item.number, hblock, item.declaration, hdeclaration, rfl⟩

/-- The value of a declaration is no empty span and lies in an entry of its block. -/
theorem entry_of_placed (h : item ∈ placed dialect stripped) :
    Block.Matched (dialect.visible stripped) item.block ∧ ∃ entry,
      IsEntry (dialect.visible stripped) (item.block.opening + 1) item.block.closing
        (item.block.opening + 1) entry ∧
      entry.start ≤ item.value.start ∧ item.value.start < item.value.stop ∧
      item.value.stop ≤ entry.stop ∧ entry.stop ≤ stripped.length := by
  obtain ⟨hblock, hdeclaration⟩ := mem_placed.mp h
  have hmatched := Block.matched_of_mem_scan (mem_of_getElem? hblock)
  exact ⟨hmatched, (scanVisible_values hmatched (dialect.length_visible stripped)).1 _ hdeclaration⟩

theorem value_le_of_placed (h : item ∈ placed dialect stripped) :
    item.value.start < item.value.stop ∧ item.value.stop ≤ stripped.length := by
  obtain ⟨-, entry, -, -, hlt, hstop, hend⟩ := entry_of_placed h
  exact ⟨hlt, Nat.le_trans hstop hend⟩

/-- The values of two declarations are apart, in whichever blocks they stand. -/
theorem placed_apart (dialect : Dialect) (stripped : Text) :
    (placed dialect stripped).Pairwise fun left right => left.value.Apart right.value := by
  have hlength := dialect.length_visible stripped
  refine pairwise_flatMap.mpr ⟨fun item hitem => ?_, ?_⟩
  · have hmatched := Block.matched_of_mem_scan (fst_mem_of_mem_zipIdx hitem)
    exact pairwise_map.mpr ((scanVisible_values hmatched hlength).2.imp Or.inl)
  · have hdistinct : ((Block.scan dialect stripped).zipIdx).Pairwise fun left right =>
        left.1.closing ≠ right.1.closing := by
      have hblocks := Block.scan_pairwise_ne dialect stripped
      rwa [← zipIdx_map_fst 0 (Block.scan dialect stripped), pairwise_map] at hblocks
    refine hdistinct.imp_of_mem ?_
    intro first second hfirst hsecond hne left hleft right hright
    have hmatched := Block.matched_of_mem_scan (fst_mem_of_mem_zipIdx hfirst)
    have hmatched' := Block.matched_of_mem_scan (fst_mem_of_mem_zipIdx hsecond)
    obtain ⟨declaration, hdeclaration, rfl⟩ := mem_map.mp hleft
    obtain ⟨declaration', hdeclaration', rfl⟩ := mem_map.mp hright
    obtain ⟨entry, hentry, hstart, -, hstop, -⟩ :=
      (scanVisible_values hmatched hlength).1 declaration hdeclaration
    obtain ⟨entry', hentry', hstart', -, hstop', -⟩ :=
      (scanVisible_values hmatched' hlength).1 declaration' hdeclaration'
    exact (hentry.apart hmatched hmatched' hne hentry').mono ⟨hstart, hstop⟩ ⟨hstart', hstop'⟩

/-- The values of declarations at two places of the list are apart. -/
theorem apart_of_ne {first second : Nat} {left right : Placed}
    (hleft : (placed dialect stripped)[first]? = some left)
    (hright : (placed dialect stripped)[second]? = some right) (hne : first ≠ second) :
    left.value.Apart right.value := by
  obtain ⟨hfirst, rfl⟩ := List.getElem?_eq_some_iff.mp hleft
  obtain ⟨hsecond, rfl⟩ := List.getElem?_eq_some_iff.mp hright
  have hapart := pairwise_iff_getElem.mp (placed_apart dialect stripped)
  rcases Nat.lt_or_gt_of_ne hne with hlt | hgt
  · exact hapart first second hfirst hsecond hlt
  · exact (hapart second first hsecond hfirst hgt).symm

/-- If a block stands around a place of a declared value, the block of the value is inside it. -/
theorem nested_of_place (h : item ∈ placed dialect stripped) {block : Block}
    (hblock : Block.Matched (dialect.visible stripped) block) {place : Nat}
    (hplace : item.value.start ≤ place ∧ place < item.value.stop)
    (haround : block.opening < place ∧ place ≤ block.closing) : item.block.Inside block := by
  obtain ⟨hmatched, entry, hentry, hstart, -, hstop, -⟩ := entry_of_placed h
  have hfloor := hentry.floor_le
  have hceiling := hentry.le_stop
  have hopening : block.opening ≤ item.block.opening := by
    -- A block that opens later stands inside that of the value, where no place has level zero.
    refine Nat.not_lt.mp fun hlater => ?_
    obtain ⟨depth, hdepth⟩ := Matched.levelAt_defined hmatched hlater (by omega)
    obtain ⟨level, hlevel⟩ := hblock.levelAt_pos hlater hdepth haround.1 haround.2
    have hzero := hentry.level_zero place (by omega) (by omega)
    rw [hlevel] at hzero
    simp at hzero
  refine ⟨hopening, ?_⟩
  rcases Nat.lt_or_eq_of_le hopening with hlt | heq
  · -- The place where the outer block closes has level zero, so it is not in the inner one.
    refine Nat.not_lt.mp fun hbeyond => ?_
    obtain ⟨depth, hdepth⟩ := Matched.levelAt_defined hblock hlt (by omega)
    obtain ⟨level, hlevel⟩ := hmatched.levelAt_pos hlt hdepth (by omega) (Nat.le_of_lt hbeyond)
    rw [hblock.level_zero] at hlevel
    simp at hlevel
  · exact Matched.closing_le hblock hmatched heq

/-- If a word stands in a declared value, the same declarations are placed whichever word stands
there, up to the length of the word. -/
theorem placed_word {hidden : Bool} {left right word : Text} (hword : IsWord word)
    (hplaced : ∃ item ∈ placed dialect (left ++ veilWord hidden word ++ right),
      item.value.start ≤ left.length ∧ left.length + word.length ≤ item.value.stop)
    {other : Text} (hother : IsWord other) :
    placed dialect (left ++ veilWord hidden other ++ right) =
      (placed dialect (left ++ veilWord hidden [Byte.hyphen] ++ right)).map
        (Placed.stretch left.length other.length) := by
  have hdeclared : Covers dialect (left ++ veilWord hidden word ++ right) left.length
      (left.length + word.length) := by
    obtain ⟨item, hitem, hbounds⟩ := hplaced
    obtain ⟨hblock, hdeclaration⟩ := mem_placed.mp hitem
    exact ⟨item.block, mem_of_getElem? hblock, item.declaration, hdeclaration, hbounds⟩
  rw [placed, placed, Block.scan_word dialect hidden left right hother, zipIdx_map,
    flatMap_map, map_flatMap]
  refine flatMap_congr fun item hitem => ?_
  simp only [Prod.map]
  rw [scan_word hword hdeclared hother (fst_mem_of_mem_zipIdx hitem), map_map, map_map]
  rfl

end Declaration

end Restyle
