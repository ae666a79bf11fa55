import Mathlib.Data.List.Perm.Basic
import Restyle.Batch
import Restyle.Proofs.Attempt
import Restyle.Proofs.Text.Chars

/-!
# Batches tile the files

An argument is read as the batch that it names and the bounds of the batch are exact, though they
are computed below `2 ^ 64` (`Batch.ofArgument_exact`). The parts that the batches of a size take
are the files, cut in pieces (`Batch.flatMap_part_perm`).
-/

namespace Restyle.Batch

open List

/-- The name of the batch of a size and a number. -/
def argument (size number : Nat) : String :=
  Nat.repr size ++ "-" ++ Nat.repr number

/-- The items that the batch of a size and a number takes. -/
def part {α : Type} (size number : Nat) (items : List α) : List α :=
  (items.drop ((number - 1) * size)).take size

/-- How many batches of a size there are for so many items. -/
def count (size total : Nat) : Nat :=
  (total + size - 1) / size

/-- The files that the batch of a size and a number holds among so many. -/
def window (size number total : Nat) : Batch :=
  ⟨(number - 1) * size, min (number * size) total⟩

/-! ## Reading names -/

/-- The digits, of which the first may be zeros, spell a number. -/
def Spells (digits : List Char) (number : Nat) : Prop :=
  digits ≠ [] ∧ (∀ char ∈ digits, char.isDigit) ∧ Nat.ofDigitChars 10 digits 0 = number

instance (digits : List Char) (number : Nat) : Decidable (Spells digits number) :=
  inferInstanceAs (Decidable (_ ∧ _ ∧ _))

/-- The text, without the blanks at its ends, is the digits of a size, a hyphen and the digits of a
number. -/
def Names (range : String) (size number : Nat) : Prop :=
  ∃ sizeDigits numberDigits, Text.trimChars range.toList = sizeDigits ++ '-' :: numberDigits ∧
    Spells sizeDigits size ∧ Spells numberDigits number

theorem spells_toDigits (number : Nat) : Spells (Nat.toDigits 10 number) number :=
  ⟨Nat.toDigits_ne_nil, fun _ => Nat.isDigit_of_mem_toDigits (by decide) (by decide),
    Nat.ofDigitChars_toDigits (by decide) (by decide)⟩

variable {total number size : Nat} {digits : List Char} {range : String} {batch : Batch} {α : Type}

theorem readNumber_eq_ok_iff :
    readNumber digits = .ok number ↔ Spells digits number ∧ number ≤ greatest := by
  unfold readNumber Spells
  split
  next h =>
    grind
  next h =>
    grind

/-- The first hyphen of a name is the one after the size. -/
theorem span_hyphen (h : ∀ char ∈ digits, char.isDigit) (rest : List Char) :
    (digits ++ '-' :: rest).takeWhile (· != '-') = digits ∧
      (digits ++ '-' :: rest).dropWhile (· != '-') = '-' :: rest := by
  have hhyphen : ∀ char ∈ digits, (char != '-') := by
    intro char hmem
    rw [bne_iff_ne]
    rintro rfl
    exact absurd (h '-' hmem) (by decide)
  simp [takeWhile_append_of_pos hhyphen, dropWhile_append_of_pos hhyphen]

/-- A text names one size and one number. -/
theorem Names.unique {otherSize otherNumber : Nat} (h : Names range size number)
    (hother : Names range otherSize otherNumber) : size = otherSize ∧ number = otherNumber := by
  obtain ⟨first, second, htrim, ⟨-, hdigits, rfl⟩, -, -, rfl⟩ := h
  obtain ⟨first', second', htrim', ⟨-, hdigits', rfl⟩, -, -, rfl⟩ := hother
  obtain ⟨htake, hdrop⟩ := span_hyphen hdigits second
  obtain ⟨htake', hdrop'⟩ := span_hyphen hdigits' second'
  rw [← htrim, htrim'] at htake hdrop
  rw [← htake, htake', (cons.inj (hdrop.symm.trans hdrop')).2]
  exact ⟨rfl, rfl⟩

/-- Below the greatest index the batch of a size and a number is computed without loss: a product or
a sum that is cut there is past the last file. -/
theorem ofNumbers_eq_ok_iff (htotal : total ≤ greatest) :
    ofNumbers size number total = .ok batch ↔ 0 < size ∧ 0 < number ∧
      (number - 1) * size < total ∧ batch = window size number total := by
  unfold ofNumbers window
  split
  next h =>
    grind
  next h =>
    simp only [Bool.or_eq_true, beq_iff_eq, not_or] at h
    obtain ⟨previous, rfl⟩ : ∃ previous, number = previous + 1 := ⟨number - 1, by omega⟩
    simp only [Nat.add_sub_cancel, Nat.succ_mul]
    split
    · grind
    · have hstart : min (previous * size) greatest = previous * size := by omega
      grind

theorem parse_eq_ok_iff :
    parse range.toList total = .ok batch ↔ ∃ size number, Names range size number ∧
      size ≤ greatest ∧ number ≤ greatest ∧ ofNumbers size number total = .ok batch := by
  constructor
  · intro h
    unfold parse at h
    dsimp only at h
    split at h
    · exact nomatch h
    next hyphen rest hdrop =>
      obtain ⟨size, hsize, h⟩ := bind_eq_ok_iff.mp h
      obtain ⟨number, hnumber, h⟩ := bind_eq_ok_iff.mp h
      obtain ⟨hsize, hsizeLe⟩ := readNumber_eq_ok_iff.mp hsize
      obtain ⟨hnumber, hnumberLe⟩ := readNumber_eq_ok_iff.mp hnumber
      have hhyphen : hyphen = '-' := by
        have hne : (Text.trimChars range.toList).dropWhile (· != '-') ≠ [] := by simp [hdrop]
        simpa [hdrop] using head_dropWhile_not (· != '-') hne
      refine ⟨size, number, ⟨_, rest, ?_, hsize, hnumber⟩, hsizeLe, hnumberLe, h⟩
      rw [hhyphen] at hdrop
      rw [← hdrop, takeWhile_append_dropWhile]
  · rintro ⟨size, number, ⟨first, second, htrim, hsize, hnumber⟩, hsizeLe, hnumberLe, h⟩
    obtain ⟨htake, hdrop⟩ := span_hyphen hsize.2.1 second
    unfold parse
    simp only [htrim, htake, hdrop, readNumber_eq_ok_iff.mpr ⟨hsize, hsizeLe⟩,
      readNumber_eq_ok_iff.mpr ⟨hnumber, hnumberLe⟩]
    exact h

/-- An argument is read as the batch that it names, and as nothing where that is empty. -/
theorem ofArgument_eq_ok_iff (htotal : total ≤ greatest) (range : String) (batch : Batch) :
    ofArgument range total = .ok batch ↔ ∃ size number, Names range size number ∧
      (size ≤ greatest ∧ number ≤ greatest) ∧ (0 < size ∧ 0 < number) ∧
      (number - 1) * size < total ∧ batch = window size number total := by
  have hparse : ofArgument range total = .ok batch ↔ parse range.toList total = .ok batch := by
    unfold ofArgument
    cases parse range.toList total <;> simp [Except.mapError]
  simp only [hparse, parse_eq_ok_iff, ofNumbers_eq_ok_iff htotal, and_assoc]

theorem isBlank_eq_false {char : Char} (h : char.isDigit ∨ char = '-') :
    isBlank char = false := by
  rcases h with hdigit | rfl
  · obtain ⟨hlow, hhigh⟩ := Char.isDigit_iff_toNat.mp hdigit
    have hlow : 48 ≤ char.toNat := hlow
    have hhigh : char.toNat ≤ 57 := hhigh
    simp only [isBlank, Bool.or_eq_false_iff, Bool.and_eq_false_iff, decide_eq_false_iff_not,
      beq_eq_false_iff_ne]
    omega
  · decide

theorem names_argument (size number : Nat) : Names (argument size number) size number := by
  have htext : (argument size number).toList =
      Nat.toDigits 10 size ++ '-' :: Nat.toDigits 10 number := by
    rw [argument, String.toList_append, String.toList_append, Nat.toList_repr, Nat.toList_repr,
      append_assoc]
    rfl
  refine ⟨_, _, ?_, spells_toDigits size, spells_toDigits number⟩
  rw [htext]
  refine Text.trimChars_eq_self fun char hmem => isBlank_eq_false ?_
  rw [mem_append, mem_cons] at hmem
  obtain hmem | rfl | hmem := hmem
  · exact .inl ((spells_toDigits size).2.1 char hmem)
  · exact .inr rfl
  · exact .inl ((spells_toDigits number).2.1 char hmem)

/-- The name of a batch that has files in it, among files that can be counted. -/
theorem ofArgument_argument (hpositive : 1 ≤ size) (hsize : size ≤ greatest)
    (hnumber : 1 ≤ number) (hstart : (number - 1) * size < total) (htotal : total ≤ greatest) :
    ofArgument (argument size number) total = .ok (window size number total) := by
  have hle : number - 1 ≤ (number - 1) * size := Nat.le_mul_of_pos_right _ hpositive
  exact (ofArgument_eq_ok_iff htotal _ _).mpr ⟨size, number, names_argument ..,
    ⟨hsize, by omega⟩, ⟨hpositive, hnumber⟩, hstart, rfl⟩

/-! ## Parts -/

/-- The batches of a size, in the order of their numbers, are the items up to where they end. -/
theorem flatMap_part_range (size count : Nat) (items : List α) :
    (List.range count).flatMap (fun index => part size (index + 1) items) =
      items.take (count * size) := by
  induction count with
  | zero => simp
  | succ count ih =>
    rw [range_succ, flatMap_append, ih, Nat.succ_mul, take_add]
    simp [part]

theorem part_map {β : Type} (size number : Nat) (function : α → β) (items : List α) :
    part size number (items.map function) = (part size number items).map function := by
  rw [part, part, map_take, map_drop]

theorem le_count_mul (h : 1 ≤ size) (total : Nat) : total ≤ count size total * size := by
  unfold count
  have hdiv := Nat.div_add_mod (total + size - 1) size
  have hmod := Nat.mod_lt (total + size - 1) h
  rw [Nat.mul_comm] at hdiv
  omega

/-- The batches that are counted are those with items in them. -/
theorem start_lt_iff (h : 1 ≤ size) (hnumber : 1 ≤ number) :
    (number - 1) * size < total ↔ number ≤ count size total := by
  unfold count
  rw [Nat.le_div_iff_mul_le h]
  obtain ⟨previous, rfl⟩ : ∃ previous, number = previous + 1 := ⟨number - 1, by omega⟩
  rw [Nat.add_sub_cancel, Nat.succ_mul]
  omega

/-- All batches of a size, in any order, are the items in some order. -/
theorem flatMap_part_perm (h : 1 ≤ size) (items : List α) {order : List Nat}
    (horder : order.Perm (List.range' 1 (count size items.length))) :
    (order.flatMap fun number => part size number items).Perm items := by
  have hrange : (List.range' 1 (count size items.length)).flatMap
      (fun number => part size number items) = items := by
    rw [range'_eq_map_range, flatMap_map]
    simp only [Nat.add_comm]
    rw [flatMap_part_range, take_of_length_le (le_count_mul h items.length)]
  have hperm := horder.flatMap_right fun number => part size number items
  rwa [hrange] at hperm

/-! ## Windows -/

/-- A batch of a size holds an index if its number is one more than the quotient of the two. -/
theorem window_holds_iff {index : Nat} (hsize : 1 ≤ size) (hnumber : 1 ≤ number)
    (hindex : index < total) :
    ((window size number total).start ≤ index ∧ index < (window size number total).stop) ↔
      number = index / size + 1 := by
  obtain ⟨previous, rfl⟩ : ∃ previous, number = previous + 1 := ⟨number - 1, by omega⟩
  have hquotient : index / size = previous ↔
      previous * size ≤ index ∧ index < (previous + 1) * size := by
    rw [Nat.div_eq_iff hsize, Nat.succ_mul]
    omega
  simp only [window, Nat.add_sub_cancel]
  omega

/-- Arguments name batches exactly. Among files that can be counted, an argument is read where it
names a positive size and a positive number and the batch has a file, and what is read are the exact
bounds of the batch, of which the first is below the second. The batches of a size follow each other
and hold every file once, and no number past the last of them is read. -/
theorem ofArgument_exact (htotal : total ≤ greatest) :
    (∀ range batch, ofArgument range total = .ok batch ↔ ∃ size number, Names range size number ∧
      (size ≤ greatest ∧ number ≤ greatest) ∧ (0 < size ∧ 0 < number) ∧
      (number - 1) * size < total ∧ batch = window size number total) ∧
    (∀ range batch, ofArgument range total = .ok batch →
      batch.start < batch.stop ∧ batch.stop ≤ total) ∧
    ∀ size, 0 < size →
      (window size 1 total).start = 0 ∧ (window size (count size total) total).stop = total ∧
      (∀ number, 1 ≤ number → number < count size total →
        (window size number total).stop = (window size (number + 1) total).start) ∧
      (∀ index < total, ∃! number, (1 ≤ number ∧ number ≤ count size total) ∧
        (window size number total).start ≤ index ∧ index < (window size number total).stop) ∧
      ∀ range number, Names range size number → size ≤ greatest → 1 ≤ number →
        ((∃ batch, ofArgument range total = .ok batch) ↔ number ≤ count size total) := by
  have hread := ofArgument_eq_ok_iff htotal
  refine ⟨hread, ?bounds, fun size hsize => ⟨Nat.zero_mul size, ?last, ?next, ?cover, ?accepted⟩⟩
  case bounds =>
    intro range batch h
    obtain ⟨size, number, -, -, ⟨hsize, hnumber⟩, hstart, rfl⟩ := (hread range batch).mp h
    have hlt : (number - 1) * size < number * size := Nat.mul_lt_mul_of_pos_right (by omega) hsize
    exact ⟨Nat.lt_min.mpr ⟨hlt, hstart⟩, Nat.min_le_right _ _⟩
  case last => exact Nat.min_eq_right (le_count_mul hsize total)
  case next =>
    intro number hnumber hlt
    have hstart : number * size < total := (start_lt_iff hsize (Nat.succ_pos number)).mpr hlt
    exact Nat.min_eq_left (Nat.le_of_lt hstart)
  case cover =>
    intro index hindex
    have hpositive := Nat.succ_pos (index / size)
    have hcount : index / size + 1 ≤ count .. :=
      (start_lt_iff hsize hpositive).mp (Nat.lt_of_le_of_lt (Nat.div_mul_le_self ..) hindex)
    refine ⟨index / size + 1, ⟨⟨hpositive, hcount⟩, ?_⟩, ?_⟩
    · exact (window_holds_iff hsize hpositive hindex).mpr rfl
    · rintro number ⟨⟨hnumber, -⟩, hholds⟩
      exact (window_holds_iff hsize hnumber hindex).mp hholds
  case accepted =>
    intro range number hnames hsizeLe hnumber
    rw [← start_lt_iff hsize hnumber]
    constructor
    · rintro ⟨batch, h⟩
      obtain ⟨otherSize, otherNumber, hother, -, -, hstart, -⟩ := (hread range batch).mp h
      obtain ⟨rfl, rfl⟩ := hnames.unique hother
      exact hstart
    · intro hstart
      have hle : number - 1 ≤ (number - 1) * size := Nat.le_mul_of_pos_right _ hsize
      exact ⟨_, (hread range _).mpr
        ⟨size, number, hnames, ⟨hsizeLe, by omega⟩, ⟨hsize, hnumber⟩, hstart, rfl⟩⟩

theorem ofArgument_exact_padded :
    ofArgument " 050-3" 120 = .ok ⟨100, 120⟩ ∧
      ¬ ∃ batch, ofArgument (argument 50 4) 120 = .ok batch := by
  have hexact := @ofArgument_exact 120 (by decide)
  have hnames : Names " 050-3" 50 3 :=
    ⟨['0', '5', '0'], ['3'], by decide, ⟨by simp, by simp, rfl⟩, ⟨by simp, by simp, rfl⟩⟩
  refine ⟨(hexact.1 _ _).mpr ⟨50, 3, hnames, by decide, by decide, by decide, rfl⟩, ?_⟩
  obtain ⟨-, -, -, -, haccepted⟩ := hexact.2.2 50 (by decide)
  rw [haccepted _ 4 (names_argument 50 4) (by decide) (by decide)]
  decide

end Restyle.Batch
