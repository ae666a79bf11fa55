import Mathlib.Data.List.Induction
import Mathlib.Data.List.Perm.Lattice
import Restyle.Change

/-!
# Changes as a tally

A list of changes has at most one for every pair of texts, and none that counts nothing, so it is
determined by its counts up to order: `Change.perm_of_countOf`. A record adds to one count
(`Change.Distinct.record`), and what a run of records comes to is `Change.recordAll_exact`.
-/

namespace Restyle

open List

/-- The sum of a number for each item. -/
def sumBy {α : Type} (amount : α → Nat) (items : List α) : Nat :=
  items.foldr (fun item sum => amount item + sum) 0

variable {α β : Type} {amount : α → Nat} {items : List α}

theorem sumBy_perm {items' : List α} (h : items.Perm items') :
    sumBy amount items = sumBy amount items' := by
  refine h.foldr_eq' (fun left _ right _ sum => ?_) 0
  omega

theorem sumBy_congr {amount' : α → Nat} (h : ∀ item ∈ items, amount item = amount' item) :
    sumBy amount items = sumBy amount' items :=
  foldr_ext _ _ _ fun item hmem _ => by rw [h item hmem]

theorem sumBy_eq_zero_iff : sumBy amount items = 0 ↔ ∀ item ∈ items, amount item = 0 := by
  induction items with
  | nil => exact iff_of_true rfl (by simp)
  | cons item items ih =>
    refine Iff.trans Nat.add_eq_zero_iff ?_
    rw [forall_mem_cons]
    exact and_congr_right fun _ => ih

theorem sumBy_add (amount amount' : α → Nat) (items : List α) :
    sumBy (fun item => amount item + amount' item) items =
      sumBy amount items + sumBy amount' items := by
  induction items with
  | nil => rfl
  | cons item items ih =>
    show amount item + amount' item + sumBy (fun item => amount item + amount' item) items =
      (amount item + sumBy amount items) + (amount' item + sumBy amount' items)
    omega

theorem sumBy_comm (amount : α → β → Nat) (items : List α) (others : List β) :
    sumBy (fun item => sumBy (amount item) others) items =
      sumBy (fun other => sumBy (fun item => amount item other) items) others := by
  induction items with
  | nil => exact (sumBy_eq_zero_iff.mpr fun _ _ => rfl).symm
  | cons item items ih =>
    refine (congrArg (sumBy (amount item) others + ·) ih).trans ?_
    exact (sumBy_add ..).symm

theorem sumBy_map (amount : β → Nat) (make : α → β) (items : List α) :
    sumBy amount (items.map make) = sumBy (fun item => amount (make item)) items :=
  foldr_map

theorem sumBy_append (amount : α → Nat) (items items' : List α) :
    sumBy amount (items ++ items') = sumBy amount items + sumBy amount items' := by
  induction items with
  | nil => exact (Nat.zero_add _).symm
  | cons item items ih =>
    show amount item + sumBy amount (items ++ items') = amount item + sumBy amount items + _
    rw [ih, Nat.add_assoc]

theorem sumBy_flatMap (amount : β → Nat) (make : α → List β) (items : List α) :
    sumBy amount (items.flatMap make) = sumBy (fun item => sumBy amount (make item)) items := by
  induction items with
  | nil => rfl
  | cons item items ih =>
    rw [flatMap_cons, sumBy_append, ih]
    rfl

theorem length_flatMap_eq_sumBy (make : α → List β) (items : List α) :
    (items.flatMap make).length = sumBy (fun item => (make item).length) items := by
  induction items with
  | nil => rfl
  | cons item items ih =>
    rw [flatMap_cons, length_append, ih]
    rfl

namespace Change

/-- The pair of texts that a change is about. -/
def pair (change : Change) : Text × Text :=
  (change.replaced, change.replacement)

/-- How often a text was replaced by another. -/
def countOf (pair : Text × Text) : List Change → Nat
  | [] => 0
  | change :: changes => if change.pair = pair then change.count else countOf pair changes

/-- Every pair has one change at most, which counts something. -/
structure Distinct (changes : List Change) : Prop where
  pairs : (changes.map pair).Nodup
  count_ne_zero : ∀ change ∈ changes, change.count ≠ 0

variable {changes : List Change}

theorem countOf_eq_zero {pair : Text × Text} (h : pair ∉ changes.map Change.pair) :
    countOf pair changes = 0 := by
  induction changes with
  | nil => rfl
  | cons change changes ih =>
    rw [map_cons, mem_cons, not_or] at h
    rw [countOf, if_neg (Ne.symm h.1), ih h.2]

theorem Distinct.of_cons {change : Change} (h : Distinct (change :: changes)) : Distinct changes :=
  ⟨(nodup_cons.mp h.pairs).2, (forall_mem_cons.mp h.count_ne_zero).2⟩

theorem Distinct.mem_iff (h : Distinct changes) (change : Change) :
    change ∈ changes ↔ change.count ≠ 0 ∧ countOf change.pair changes = change.count := by
  induction changes with
  | nil => simp [countOf, eq_comm]
  | cons first changes ih =>
    rw [mem_cons, ih h.of_cons, countOf]
    by_cases hpair : first.pair = change.pair
    · -- The first change is the only one of its pair.
      have habsent : countOf change.pair changes = 0 := by
        refine countOf_eq_zero fun hmem => ?_
        rw [← hpair] at hmem
        exact (nodup_cons.mp h.pairs).1 hmem
      rw [if_pos hpair, habsent]
      constructor
      · rintro (rfl | ⟨hne, hzero⟩)
        · exact ⟨h.count_ne_zero change mem_cons_self, rfl⟩
        · exact absurd hzero.symm hne
      · rintro ⟨-, hcount⟩
        obtain ⟨hreplaced, hreplacement⟩ := Prod.mk.inj hpair
        left
        change Change.mk change.replaced change.replacement change.count = first
        rw [← hreplaced, ← hreplacement, ← hcount]
    · rw [if_neg hpair]
      constructor
      · rintro (rfl | hmem)
        · exact absurd rfl hpair
        · exact hmem
      · exact Or.inr

/-- Changes with the same counts are the same up to order. -/
theorem perm_of_countOf {changes' : List Change} (h : Distinct changes) (h' : Distinct changes')
    (hcount : ∀ pair, countOf pair changes = countOf pair changes') : changes.Perm changes' := by
  refine (perm_ext_iff_of_nodup h.pairs.of_map h'.pairs.of_map).mpr fun change => ?_
  rw [h.mem_iff, h'.mem_iff, hcount]

/-! ## Recording -/

variable {replaced replacement : Text} {count : Nat}

/-- A change of the pair gets the count, or else a new one does. -/
theorem record_add_cons (change : Change) (changes : List Change) :
    record.add replaced replacement count (change :: changes) =
      if change.pair = (replaced, replacement) then
        { change with count := change.count + count } :: changes
      else change :: record.add replaced replacement count changes := by
  rw [record.add]
  simp only [Bool.and_eq_true, beq_iff_eq, pair, Prod.mk.injEq]

/-- A record keeps the pairs in their order, and puts a new one that it counts at the end. -/
theorem pairs_record (replaced replacement : Text) (count : Nat) (changes : List Change) :
    (record replaced replacement count changes).map pair = changes.map pair ++
      if count = 0 ∨ (replaced, replacement) ∈ changes.map pair then []
      else [(replaced, replacement)] := by
  rw [record]
  by_cases hcount : count = 0
  · simp [hcount]
  simp only [beq_iff_eq, hcount, if_false, false_or]
  induction changes with
  | nil => rfl
  | cons change changes ih =>
    rw [record_add_cons]
    by_cases hpair : change.pair = (replaced, replacement)
    · rw [if_pos hpair, ← hpair, if_pos (mem_map_of_mem mem_cons_self), append_nil]
      rfl
    · rw [if_neg hpair, map_cons, ih, map_cons, cons_append]
      simp only [mem_cons, Ne.symm hpair, false_or]

theorem record_eq_nil_iff :
    record replaced replacement count changes = [] ↔ changes = [] ∧ count = 0 := by
  rw [← map_eq_nil_iff (f := pair), pairs_record, append_eq_nil_iff, map_eq_nil_iff]
  refine and_congr_right ?_
  rintro rfl
  simp

theorem count_ne_zero_add (h : ∀ change ∈ changes, change.count ≠ 0) (hcount : count ≠ 0) :
    ∀ change ∈ record.add replaced replacement count changes, change.count ≠ 0 := by
  induction changes with
  | nil => simpa [record.add] using hcount
  | cons change changes ih =>
    obtain ⟨hfirst, hlater⟩ := forall_mem_cons.mp h
    rw [record_add_cons]
    split
    · exact forall_mem_cons.mpr ⟨Nat.ne_of_gt (by simp only; omega), hlater⟩
    · exact forall_mem_cons.mpr ⟨hfirst, ih hlater⟩

/-- Recording adds to the count of one pair. -/
theorem countOf_add (other : Text × Text) (changes : List Change) :
    countOf other (record.add replaced replacement count changes) =
      countOf other changes + if (replaced, replacement) = other then count else 0 := by
  induction changes with
  | nil => exact (Nat.zero_add _).symm
  | cons change changes ih =>
    rw [record_add_cons]
    by_cases hpair : change.pair = (replaced, replacement)
    · rw [if_pos hpair, countOf, countOf, ← hpair]
      change (if change.pair = other then _ else _) = _
      split <;> rfl
    · rw [if_neg hpair, countOf, countOf, ih]
      split
      next hother =>
        rw [if_neg fun heq => hpair (hother.trans heq.symm), Nat.add_zero]
      · rfl

/-- A record adds its count to its pair. -/
theorem Distinct.record (h : Distinct changes) (replaced replacement : Text) (count : Nat) :
    Distinct (record replaced replacement count changes) ∧
      ∀ pair, countOf pair (record replaced replacement count changes) =
        countOf pair changes + if (replaced, replacement) = pair then count else 0 := by
  have hpairs : ((Change.record replaced replacement count changes).map pair).Nodup := by
    rw [pairs_record]
    split
    · simpa using h.pairs
    next hnew => exact nodup_append_comm.mp (nodup_cons.mpr ⟨(not_or.mp hnew).2, h.pairs⟩)
  rw [Change.record] at hpairs ⊢
  by_cases hcount : count = 0
  · rw [if_pos (by simpa using hcount)]
    exact ⟨h, fun pair => by simp [hcount]⟩
  · rw [if_neg (by simpa using hcount)] at hpairs ⊢
    exact ⟨⟨hpairs, count_ne_zero_add h.count_ne_zero hcount⟩, fun pair => countOf_add ..⟩

/-- The changes with all that is noted. -/
def recordAll (changes notes : List Change) : List Change :=
  notes.foldl (fun changes note => record note.replaced note.replacement note.count changes) changes

theorem recordAll_append (changes first second : List Change) :
    recordAll changes (first ++ second) = recordAll (recordAll changes first) second :=
  foldl_append

/-- Nothing is recorded exactly if there was nothing before and all notes count nothing. -/
theorem recordAll_eq_nil_iff {notes : List Change} :
    recordAll changes notes = [] ↔ changes = [] ∧ ∀ note ∈ notes, note.count = 0 := by
  induction notes generalizing changes with
  | nil => exact (and_iff_left (by simp)).symm
  | cons note notes ih =>
    refine ih.trans ?_
    rw [record_eq_nil_iff, forall_mem_cons, and_assoc]

variable (pair : Text × Text) (notes : List Change)

/-- How often notes count a pair of texts. -/
def tally : Nat :=
  sumBy (fun note => if note.pair = pair then note.count else 0) notes

/-- What is recorded of a pair is how often the notes count it. -/
theorem distinct_recordAll : Distinct (recordAll [] notes) ∧
      ∀ pair, countOf pair (recordAll [] notes) = tally pair notes := by
  induction notes using reverseRecOn with
  | nil => exact ⟨⟨nodup_nil, by simp [recordAll]⟩, fun _ => rfl⟩
  | append_singleton notes note ih =>
    obtain ⟨hdistinct, hcount⟩ := ih.1.record note.replaced note.replacement note.count
    rw [recordAll_append]
    refine ⟨hdistinct, fun pair => (hcount pair).trans ?_⟩
    rw [ih.2, tally, tally, sumBy_append]
    rfl

/-! ## What is recorded in the end -/

/-- The pairs that notes count, in the order of the first notes that do. -/
def noted : List (Text × Text) :=
  ((notes.filter (·.count ≠ 0)).map Change.pair).eraseDups

theorem noted_concat (note : Change) :
    noted (notes ++ [note]) =
      noted notes ++ if note.count = 0 ∨ note.pair ∈ noted notes then [] else [note.pair] := by
  rw [noted, filter_append, map_append, eraseDups_append]
  refine congrArg (noted notes ++ ·) ?_
  by_cases hcount : note.count = 0
  · simp [hcount, removeAll]
  · rw [filter_cons_of_pos (by simpa using hcount), map_cons, removeAll, filter_cons]
    simp only [hcount, false_or, noted, mem_eraseDups, elem_eq_mem]
    split <;> simp_all [eraseDups_cons]

theorem pairs_recordAll : (recordAll [] notes).map Change.pair = noted notes := by
  induction notes using reverseRecOn with
  | nil => rfl
  | append_singleton notes note ih =>
    rw [recordAll_append, noted_concat, ← ih]
    exact pairs_record ..

theorem tally_le_total : tally pair notes ≤ total notes := by
  induction notes with
  | nil => exact Nat.le_refl 0
  | cons note notes ih =>
    change (if _ then note.count else 0) + tally pair notes ≤ note.count + total notes
    split <;> omega

variable {notes}

theorem recordAll_perm {notes' : List Change} (h : notes.Perm notes') :
    (recordAll [] notes).Perm (recordAll [] notes') := by
  obtain ⟨hdistinct, hcount⟩ := distinct_recordAll notes
  obtain ⟨hdistinct', hcount'⟩ := distinct_recordAll notes'
  refine perm_of_countOf hdistinct hdistinct' fun pair => ?_
  rw [hcount, hcount', tally, sumBy_perm h, ← tally]

theorem count_of_mem_recordAll {change : Change} (h : change ∈ recordAll [] notes) :
    change.count = tally change.pair notes := by
  obtain ⟨hdistinct, hcount⟩ := distinct_recordAll notes
  rw [← hcount, ((hdistinct.mem_iff change).mp h).2]

/-- Every pair that a note counts has one change, in the order of the first notes that count them,
with the sum of its counts. There is no change exactly if no note counts anything, and notes in
another order leave the same changes in some order. At no time is a count above the total of the
notes, so that none overflows where the total fits. -/
theorem recordAll_exact (notes : List Change) :
    recordAll [] notes = (noted notes).map (fun pair => ⟨pair.1, pair.2, tally pair notes⟩) ∧
      (noted notes).Nodup ∧
      ((recordAll [] notes).isEmpty ↔ ∀ note ∈ notes, note.count = 0) ∧
      (∀ notes', notes.Perm notes' → (recordAll [] notes).Perm (recordAll [] notes')) ∧
      ∀ first, first <+: notes → ∀ change ∈ recordAll [] first, change.count ≤ total notes := by
  refine ⟨?_, ?_, ?_, fun notes' => recordAll_perm, ?_⟩
  · rw [← pairs_recordAll, map_map]
    refine (map_id _).symm.trans (map_congr_left fun change hmem => ?_)
    change change = ⟨change.replaced, change.replacement, tally change.pair notes⟩
    rw [← count_of_mem_recordAll hmem]
  · rw [← pairs_recordAll]
    exact (distinct_recordAll notes).1.pairs
  · rw [List.isEmpty_iff, recordAll_eq_nil_iff, and_iff_right rfl]
  · rintro first ⟨later, rfl⟩ change hmem
    calc change.count = tally change.pair first := count_of_mem_recordAll hmem
      _ ≤ tally change.pair first + tally change.pair later := Nat.le_add_right ..
      _ = tally change.pair (first ++ later) := (sumBy_append ..).symm
      _ ≤ total (first ++ later) := tally_le_total ..

example : recordAll [] [⟨utf8 "--u", utf8 "--a", 0⟩, ⟨utf8 "--t", utf8 "--a", 1⟩,
    ⟨utf8 "--t", utf8 "--b", 1⟩, ⟨utf8 "--t", utf8 "--a", 2⟩] =
    [⟨utf8 "--t", utf8 "--a", 3⟩, ⟨utf8 "--t", utf8 "--b", 1⟩] := by
  decide

end Change

end Restyle
