import Mathlib.Data.List.Nodup
import Mathlib.Tactic.MkIffOfInductiveProp
import Restyle.Mapping
import Restyle.Proofs.Token.Pieces

/-!
# Tables that rename custom properties

A table is a naming if its tokens and replacements are names of custom properties: it takes names to
names (`Table.IsNaming.isCustomName_rename`). It is a renaming if also no replacement is a token.
Its entries, applied one after the other, then rename every name at most once
(`Table.IsRenaming.rename_cases`): no entry finds what another one put in. So a renamed name is no
token that has a replacement (`Table.IsRenaming.rename_ne_token`), and of tables with distinct
tokens the order does not matter (`Table.IsRenaming.rename_perm`).
-/

namespace Restyle

open Entry List

open Token (IsCustomName isCustomName isCustomName_iff)

/-- The texts that a replacement may put in. -/
def Replacement.texts : Replacement → List Text
  | .one text => [text]
  | .choice candidates => candidates

/-- The texts that a mapping may put in. -/
def Mapping.replacements : Mapping → List Text
  | .plain replacement => [replacement]
  | .conditional clauses => clauses.flatMap fun clause => clause.replacement.texts

/-- Tokens and replacements are names of custom properties. -/
@[mk_iff]
structure Table.IsNaming (table : Table) : Prop where
  token : ∀ entry ∈ table, IsCustomName entry.token
  replacement : ∀ entry ∈ table, ∀ text ∈ entry.mapping.replacements, IsCustomName text

instance (table : Table) : Decidable table.IsNaming :=
  decidable_of_iff' _ (Table.isNaming_iff table)

/-- Tokens and replacements are names of custom properties, and no replacement is a token. -/
@[mk_iff]
structure Table.IsRenaming (table : Table) : Prop where
  token : ∀ entry ∈ table, IsCustomName entry.token
  replacement : ∀ entry ∈ table, ∀ text ∈ entry.mapping.replacements, IsCustomName text
  independent : ∀ entry ∈ table, ∀ text ∈ entry.mapping.replacements, ∀ other ∈ table,
    text ≠ other.token

instance (table : Table) : Decidable table.IsRenaming :=
  decidable_of_iff' _ (Table.isRenaming_iff table)

/-- What replaces the token of an entry in a property without a question. -/
def Entry.pick (entry : Entry) (property : Text) : Option Text :=
  match entry.mapping.replacementIn? property with
  | some (.one replacement) => some replacement
  | _ => none

/-- What an entry makes of a name in a property. -/
def Entry.rename (entry : Entry) (property : Text) : Text → Text :=
  match entry.pick property with
  | some replacement => Piece.only entry.token replacement
  | none => id

/-- What the entries of a table make of a name in a property, one after the other. -/
def Table.rename (table : Table) (property name : Text) : Text :=
  table.foldl (fun name entry => entry.rename property name) name

variable {property : Text} {entry : Entry} {replacement : Text}

theorem Entry.mem_of_pick (h : entry.pick property = some replacement) :
    replacement ∈ entry.mapping.replacements := by
  unfold pick Mapping.replacementIn? at h
  cases hmapping : entry.mapping with
  | plain text =>
    simp only [hmapping, Option.some.injEq] at h
    subst h
    exact mem_singleton_self _
  | conditional clauses =>
    simp only [hmapping] at h
    split at h
    next text hclause =>
      obtain ⟨clause, hfind, hreplacement⟩ := Option.map_eq_some_iff.mp hclause
      obtain rfl := Option.some.inj h
      refine mem_flatMap.mpr ⟨clause, mem_of_find?_eq_some hfind, ?_⟩
      rw [hreplacement]
      exact mem_singleton_self _
    · cases h

theorem Entry.rename_eq_self {name : Text} (h : entry.token = name → entry.pick property = none) :
    entry.rename property name = name := by
  cases hpick : entry.pick property with
  | none => simp [rename, hpick]
  | some replacement =>
    have hne : ¬ name = entry.token := fun heq => by simp [h heq.symm] at hpick
    simp [rename, hpick, Piece.only, hne]

/-- An entry leaves a name as it is, or has it for its token and a replacement for it. -/
theorem Entry.rename_cases (entry : Entry) (property name : Text) :
    ((entry.token = name → entry.pick property = none) ∧ entry.rename property name = name) ∨
      entry.token = name ∧ entry.pick property = some (entry.rename property name) := by
  by_cases hstays : entry.token = name → entry.pick property = none
  · exact .inl ⟨hstays, rename_eq_self hstays⟩
  · obtain ⟨rfl, hpick⟩ := Classical.not_imp.mp hstays
    obtain ⟨replacement, hpick⟩ := Option.ne_none_iff_exists'.mp hpick
    exact .inr ⟨rfl, by simp [rename, hpick, Piece.only]⟩

namespace Table

variable {table : Table} {property : Text}

variable {name : Text} {entries : Table} {entry : Entry}

theorem IsRenaming.subset (h : table.IsRenaming) (hsubset : entries ⊆ table) :
    IsRenaming entries where
  token entry hmem := h.token entry (hsubset hmem)
  replacement entry hmem := h.replacement entry (hsubset hmem)
  independent entry hmem text htext other hother :=
    h.independent entry (hsubset hmem) text htext other (hsubset hother)

theorem IsRenaming.isNaming (h : table.IsRenaming) : table.IsNaming :=
  ⟨h.token, h.replacement⟩

theorem IsNaming.subset (h : table.IsNaming) (hsubset : entries ⊆ table) :
    IsNaming entries where
  token entry hmem := h.token entry (hsubset hmem)
  replacement entry hmem := h.replacement entry (hsubset hmem)

theorem IsNaming.isCustomName_entry (h : table.IsNaming) (hmem : entry ∈ table) (property : Text)
    (hname : isCustomName name) : isCustomName (entry.rename property name) := by
  rcases entry.rename_cases property name with ⟨-, hsame⟩ | ⟨-, hpick⟩
  · rwa [hsame]
  · exact isCustomName_iff.mpr (h.replacement entry hmem _ (mem_of_pick hpick))

theorem IsNaming.isCustomName_rename (h : table.IsNaming) (property : Text)
    (hname : isCustomName name) : isCustomName (rename table property name) := by
  induction table generalizing name with
  | nil => exact hname
  | cons entry table ih =>
    exact ih (h.subset (subset_cons_self _ _)) (h.isCustomName_entry mem_cons_self property hname)

theorem rename_eq_self (h : ∀ entry ∈ table, entry.token = name → entry.pick property = none) :
    rename table property name = name := by
  unfold rename
  induction table with
  | nil => rfl
  | cons entry table ih =>
    obtain ⟨hentry, htable⟩ := forall_mem_cons.mp h
    rw [foldl_cons, Entry.rename_eq_self hentry]
    exact ih htable

/-- A name is renamed by one entry of which it is the token, or stays since there is none. -/
theorem IsRenaming.rename_cases (h : table.IsRenaming) (property name : Text) :
    (rename table property name = name ∧
        ∀ entry ∈ table, entry.token = name → entry.pick property = none) ∨
      ∃ entry ∈ table, entry.token = name ∧
        entry.pick property = some (rename table property name) := by
  induction table with
  | nil => exact Or.inl ⟨rfl, by simp⟩
  | cons entry table ih =>
    have hstep : rename (entry :: table) property name =
        rename table property (entry.rename property name) := rfl
    rw [hstep]
    rcases entry.rename_cases property name with ⟨hstays, hsame⟩ | ⟨rfl, hpick⟩
    · rw [hsame]
      rcases ih (h.subset (subset_cons_self _ _)) with ⟨hsame, hnone⟩ | ⟨other, hmem, hother⟩
      · exact Or.inl ⟨hsame, forall_mem_cons.mpr ⟨hstays, hnone⟩⟩
      · exact Or.inr ⟨other, mem_cons_of_mem _ hmem, hother⟩
    · -- The replacement is no token, so the entries that follow leave it as it is.
      refine Or.inr ⟨entry, mem_cons_self, rfl, ?_⟩
      rw [hpick, rename_eq_self fun other hmem heq => ?_]
      exact absurd heq.symm (h.independent entry mem_cons_self _ (mem_of_pick hpick) other
        (mem_cons_of_mem _ hmem))

/-- A renamed name is no token that has a replacement. -/
theorem IsRenaming.rename_ne_token (h : table.IsRenaming) (hmem : entry ∈ table)
    (hpick : entry.pick property ≠ none) (name : Text) :
    rename table property name ≠ entry.token := by
  rcases h.rename_cases .. with ⟨hsame, hnone⟩ | ⟨other, hother, -, hreplacement⟩
  · rw [hsame]
    exact fun heq => hpick (hnone entry hmem heq.symm)
  · exact h.independent other hother _ (mem_of_pick hreplacement) entry hmem

/-- The order of entries with distinct tokens does not matter. -/
theorem IsRenaming.rename_perm {table' : Table} (h : table.IsRenaming) (hperm : table.Perm table')
    (hdistinct : (table.map Entry.token).Nodup) (property name : Text) :
    rename table property name = rename table' property name := by
  have h' : IsRenaming table' := h.subset hperm.symm.subset
  rcases h.rename_cases .. with ⟨hsame, hnone⟩ | ⟨entry, hmem, htoken, hpick⟩
  · rw [hsame, rename_eq_self fun entry hmem => hnone entry (hperm.mem_iff.mpr hmem)]
  · rcases h'.rename_cases .. with ⟨-, hnone⟩ | ⟨other, hother, htoken', hpick'⟩
    · rw [hnone entry (hperm.mem_iff.mp hmem) htoken] at hpick
      cases hpick
    · obtain rfl := inj_on_of_nodup_map hdistinct hmem (hperm.mem_iff.mpr hother)
        (htoken.trans htoken'.symm)
      exact Option.some.inj (hpick.symm.trans hpick')

end Table

end Restyle
