import Restyle.Proofs.Migration.Renaming

/-!
# The order of the entries of a renaming

The entries of a renaming with distinct tokens do not get in each other's way: an entry finds its
token as often after the others as before them (`Entry.count_rewrite`). So each notes the same
wherever it stands in the table, and the order of the table does not matter:
`Resolution.resolveFile_perm`.
-/

namespace Restyle

open Entry List

open Token (isCustomName_iff)

section

variable {dialect : Dialect} {property : Text} {table : Table} {entry other : Entry}

/-- An entry of a renaming leaves the number of other tokens as it is. -/
theorem Entry.count_rewrite (htable : table.IsRenaming) (hentry : entry ∈ table)
    (hother : other ∈ table) (hne : other.token ≠ entry.token) (value : Text) :
    Token.count other.token (dialect.stripComments (entry.rewrite dialect property value)) =
      Token.count other.token (dialect.stripComments value) := by
  have hrename : ∀ name, entry.rename property name = other.token ↔ name = other.token := by
    intro name
    rcases entry.rename_cases property name with ⟨-, hsame⟩ | ⟨rfl, hpick⟩
    · rw [hsame]
    · have hother' := htable.independent entry hentry _ (mem_of_pick hpick) other hother
      exact iff_of_false hother' hne.symm
  have htoken := isCustomName_iff.mpr (htable.token other hother)
  obtain ⟨pieces, hreads⟩ := Value.exists_reads dialect value
  have hrenamed := hreads.rename fun name hname =>
    htable.isNaming.isCustomName_entry hentry property hname
  rw [hreads.rewrite_entry htable.isNaming hentry, hrenamed.count htoken, hreads.count htoken,
    count, countP_map]
  refine countP_congr fun piece _ => ?_
  cases piece with
  | byte source shown => rfl
  | name text => simp [Piece.rename, hrename]

/-- The entries of a table note what each of them would by itself. -/
theorem Table.notes_eq_flatMap (htable : table.IsRenaming)
    (hdistinct : (table.map token).Nodup) (texts : List Text) :
    table.notes dialect property texts =
      table.flatMap fun entry => entry.note dialect property texts := by
  induction table generalizing texts with
  | nil => rfl
  | cons entry table ih =>
    obtain ⟨hnotin, hdistinct⟩ := nodup_cons.mp hdistinct
    rw [Table.notes, ih (htable.subset (subset_cons_self _ _)) hdistinct]
    refine congrArg (_ ++ ·) (flatMap_congr fun other hother => ?_)
    have hne : other.token ≠ entry.token := fun heq => hnotin (heq ▸ mem_map_of_mem hother)
    unfold note
    rw [sumBy_map]
    simp only [count_rewrite htable mem_cons_self (mem_cons_of_mem _ hother) hne]

end

namespace Plan

variable {dialect : Dialect} {plan : Plan} {table : Table} {entry : Entry}

/-- What an entry adds to the changes of a pair. -/
def share (plan : Plan) (entry : Entry) (pair : Text × Text) : Nat :=
  match entry.pick plan.target.name with
  | some replacement => if (entry.token, replacement) = pair then plan.count entry.token else 0
  | none => 0

/-- What a table adds to the changes of a pair. -/
def total (table : Table) (plans : List Plan) (pair : Text × Text) : Nat :=
  sumBy (fun plan =>
      if plan.target.isComposite then sumBy (fun entry => plan.share entry pair) table else 0) plans
    + sumBy (fun entry => sumBy (fun plan =>
      if !plan.target.isComposite then plan.share entry pair else 0) plans) table

/-- What an entry notes in the texts of a target counts its share. -/
theorem tally_note (hplan : plan.AtStart dialect) (htable : table.IsRenaming)
    (hmem : entry ∈ table) (pair : Text × Text) :
    Change.tally pair (entry.note dialect plan.target.name (plan.target.texts dialect)) =
      plan.share entry pair := by
  have hcount : sumBy (fun text => Token.count entry.token (dialect.stripComments text))
      (plan.target.texts dialect) = plan.count entry.token := by
    rw [hplan.texts, sumBy_map]
    exact sumBy_congr fun part hpart =>
      (hplan.parts part hpart).reads.count (isCustomName_iff.mpr (htable.token entry hmem))
  rw [note, outcome, hcount, share]
  cases hpick : entry.pick plan.target.name with
  | none => rw [Option.getD_none, if_pos rfl]; rfl
  | some replacement =>
    have hne := htable.independent entry hmem replacement (mem_of_pick hpick) entry hmem
    rw [Option.getD_some, if_neg hne]
    rfl

/-- What a renaming notes in a target counts the shares of its entries. -/
theorem tally_notes (hplan : plan.AtStart dialect) (htable : table.IsRenaming)
    (hdistinct : (table.map token).Nodup) (pair : Text × Text) :
    Change.tally pair (plan.target.notes dialect table) =
      sumBy (fun entry => plan.share entry pair) table := by
  have hnotes : plan.target.notes dialect table =
      table.notes dialect plan.target.name (plan.target.texts dialect) := by
    unfold Target.notes Target.texts Table.notesList
    obtain ⟨hacross, hinside⟩ := Table.across_eq_nil htable.isNaming.hasBlank
    rw [hacross, hinside]
    split <;> rfl
  rw [hnotes, Table.notes_eq_flatMap htable hdistinct, Change.tally, sumBy_flatMap]
  exact sumBy_congr fun entry hmem => tally_note hplan htable hmem pair

/-- The shares may be added up target by target. -/
theorem total_eq (table : Table) (plans : List Plan) (pair : Text × Text) :
    total table plans pair =
      sumBy (fun plan => sumBy (fun entry => plan.share entry pair) table) plans := by
  rw [total, sumBy_comm, ← sumBy_add]
  refine sumBy_congr fun plan _ => ?_
  cases plan.target.isComposite with
  | true => exact congrArg (_ + ·) (sumBy_eq_zero_iff.mpr fun _ _ => rfl)
  | false => exact Nat.zero_add _

theorem total_perm {table' : Table} (h : table.Perm table') (plans : List Plan) :
    total table plans = total table' plans := by
  funext pair
  rw [total, sumBy_perm h]
  refine congrArg (· + _) (sumBy_congr fun plan _ => ?_)
  rw [sumBy_perm h]

/-- What a renaming makes of a target does not depend on the order of the table. -/
theorem renamed_perm {table' : Table} (htable : table.IsRenaming)
    (hdistinct : (table.map token).Nodup) (h : table.Perm table') (plan : Plan) :
    plan.renamed table = plan.renamed table' := by
  have hrename : table.rename plan.target.name = Table.rename table' plan.target.name :=
    funext fun name => htable.rename_perm h hdistinct plan.target.name name
  rw [renamed, renamed, hrename]

end Plan

namespace Resolution

variable {σ : Type} {context : Context} {text : Text} {table : Table}

/-- By a renaming with distinct tokens and without choices the names of a file are renamed, and the
changes count the shares of its entries. -/
theorem resolveFile_totals (interaction : Interaction σ) (hrenaming : table.IsRenaming)
    (hdistinct : (table.map token).Nodup)
    (hasks : ∀ entry ∈ table, entry.mapping.asks = false) {plans : List Plan}
    (hplans : Planned context.path text plans) :
    ∃ changes,
      resolveFile interaction context table text =
        pure ⟨Target.apply (plans.map fun plan => plan.renamed table) text, changes⟩ ∧
      Change.Distinct changes ∧
      ∀ pair, Change.countOf pair changes = Plan.total table plans pair := by
  obtain ⟨recorded, hperm, hdecided⟩ := (@resolveTargets_decides table σ interaction context text
    hasks (Target.ofRules text (Source.rules context.path text))).resolve_right
    fun hspaced => hspaced.1 hrenaming.isNaming.isFlush
  rw [← hplans.targets, flatMap_map] at hperm
  obtain ⟨hchanges, hcount⟩ := Change.distinct_recordAll recorded
  refine ⟨_, ?_, hchanges, fun pair => (hcount pair).trans ?_⟩
  · unfold resolveFile resolve
    rw [tryResolve, hdecided, hplans.map_rewrite hrenaming.isNaming]
    rfl
  · rw [Plan.total_eq]
    refine (sumBy_perm hperm).trans ((sumBy_flatMap ..).trans (sumBy_congr fun plan hmem => ?_))
    exact Plan.tally_notes (hplans.atStart plan hmem) hrenaming hdistinct pair

/-- The order of the entries of a renaming with distinct tokens and without choices does not matter:
both resolutions succeed and ask nothing, with the same data and with the same changes up to order.
The data has all names of the table renamed at once, and the changes count the occurrences of each
token in the values of the text. -/
theorem resolveFile_perm (interaction : Interaction σ) (context : Context) (text : Text)
    (table table' : Table) (session : Session σ) (hperm : table.Perm table')
    (hdistinct : (table.map Entry.token).Nodup) (hrenaming : table.IsRenaming)
    (hasks : ∀ entry ∈ table, entry.mapping.asks = false) :
    ∃ data changes changes',
      (resolveFile interaction context table text).run.run session =
        (.ok ⟨data, changes⟩, session) ∧
      (resolveFile interaction context table' text).run.run session =
        (.ok ⟨data, changes'⟩, session) ∧
      changes.Perm changes' ∧
      ∃ plans : List Plan,
        plans.map Plan.target = Target.ofRules text (Source.rules context.path text) ∧
        (∀ plan ∈ plans, plan.Sound (Dialect.ofPath context.path).ofValue ∧ plan.Fresh) ∧
        data = Target.apply (plans.map fun plan => plan.renamed table) text ∧
        ∀ change, change ∈ changes ↔
          change.count ≠ 0 ∧ Plan.total table plans change.pair = change.count := by
  obtain ⟨plans, hplans⟩ := exists_planned ..
  have hrenaming' : Table.IsRenaming table' := hrenaming.subset hperm.symm.subset
  have hasks' : ∀ entry ∈ table', entry.mapping.asks = false :=
    fun entry hmem => hasks entry (hperm.mem_iff.mpr hmem)
  have hdistinct' : (table'.map token).Nodup := (hperm.map _).nodup_iff.mp hdistinct
  obtain ⟨changes, hresult, hchanges, hcount⟩ := resolveFile_totals interaction hrenaming hdistinct
    hasks hplans
  obtain ⟨changes', hresult', hchanges', hcount'⟩ := resolveFile_totals interaction hrenaming'
    hdistinct' hasks' hplans
  -- Both tables make the same of every target.
  have hdata : (plans.map fun plan => plan.renamed table') =
      plans.map fun plan => plan.renamed table :=
    map_congr_left fun plan _ => (plan.renamed_perm hrenaming hdistinct hperm).symm
  rw [hdata] at hresult'
  -- They add the same to the count of every pair.
  refine ⟨_, changes, changes', by rw [hresult]; rfl, by rw [hresult']; rfl,
    Change.perm_of_countOf hchanges hchanges' fun pair => ?_, plans, hplans.targets,
    hplans.fresh, rfl, fun change => ?_⟩
  · rw [hcount, hcount', Plan.total_perm hperm]
  · rw [hchanges.mem_iff, hcount]

/-- A table of a renaming everywhere and one in a single property. -/
def renamePair : Table :=
  [⟨utf8 "--a", .plain (utf8 "--a-new")⟩,
    ⟨utf8 "--a-b", .conditional [⟨[utf8 "border"], .one (utf8 "--c")⟩]⟩]

/-- A composite value with both tokens of `renamePair`, one of them also in a comment, and a value
with one of them. -/
def borderAndColor : Text :=
  utf8 ".x\x7bborder:1px var(--a) var(--a-b)/*--a*/;color:var(--a)\x7d"

/-- Resolving `borderAndColor` by `renamePair` in either order gives the same. -/
theorem resolveFile_perm_renamePair :
    renamePair.Perm renamePair.reverse ∧ (renamePair.map Entry.token).Nodup ∧
    renamePair.IsRenaming ∧ (∀ entry ∈ renamePair, entry.mapping.asks = false) ∧
    ∃ data changes changes',
      (resolveFile Interaction.silent ⟨utf8 "x.css", false, none⟩ renamePair borderAndColor).run.run
        Session.silent = (.ok ⟨data, changes⟩, Session.silent) ∧
      (resolveFile Interaction.silent ⟨utf8 "x.css", false, none⟩ renamePair.reverse
        borderAndColor).run.run Session.silent = (.ok ⟨data, changes'⟩, Session.silent) ∧
      changes.Perm changes' := by
  have hperm : renamePair.Perm renamePair.reverse := (List.reverse_perm _).symm
  have hdistinct : (renamePair.map Entry.token).Nodup := by decide
  have hrenaming : renamePair.IsRenaming := by decide
  have hasks : ∀ entry ∈ renamePair, entry.mapping.asks = false := by decide
  obtain ⟨data, changes, changes', hresult, hresult', hchanges, -⟩ := resolveFile_perm
    Interaction.silent ⟨utf8 "x.css", false, none⟩ borderAndColor _ _ Session.silent hperm hdistinct
    hrenaming hasks
  exact ⟨hperm, hdistinct, hrenaming, hasks, data, changes, changes', hresult, hresult', hchanges⟩

end Resolution

end Restyle
