import Restyle.Proofs.Migration.Decided
import Restyle.Proofs.Value.Reading

/-!
# Resolution by a renaming

A table of custom properties rewrites a value by renaming its pieces (`Value.Reads.rewrite`). A
`Plan` has the pieces of a target, part by part, and the target is rewritten by renaming all of them
at once (`Plan.rewrite_eq`). So where no question may be asked, a file is resolved by renaming the
names in its values: `Resolution.resolveFile_renames`.
-/

namespace Restyle

open Dialect Entry List Source Target Value

open Token (isCustomName isCustomName_iff)
open Value (Reads)

/-! ## Values rewritten by namings -/

variable {table : Table} (entry : Entry)

/-- An entry renames its token to what it puts in, and nothing else. -/
theorem Entry.rename_eq (property name : Text) :
    entry.rename property name = if name = entry.token then entry.outcome property else name := by
  unfold rename outcome
  cases entry.pick property with
  | none =>
    split
    next heq => exact heq
    · rfl
  | some replacement => rfl

namespace Value.Reads

variable {dialect : Dialect} {value : Text} {pieces : List Piece} {table : Table} {entry : Entry}

/-- An entry acts in a value if its token is one of the names and gets another text. -/
theorem acts_iff (h : Reads dialect value pieces) (htoken : isCustomName entry.token)
    (property : Text) : entry.acts dialect property value ↔
      entry.outcome property ≠ entry.token ∧ .name entry.token ∈ pieces := by
  rw [acts, Bool.and_eq_true, bne_iff_ne, Token.occursIn_iff, h.count htoken]
  exact and_congr_right fun _ => count_pos_iff.symm.trans Nat.pos_iff_ne_zero |>.symm

/-- An entry of a naming renames the pieces of a value. -/
theorem rewrite_entry (h : Reads dialect value pieces) (htable : table.IsNaming)
    (hmem : entry ∈ table) (property : Text) :
    entry.rewrite dialect property value =
      Piece.sources (pieces.map (Piece.rename (entry.rename property))) := by
  have htoken := isCustomName_iff.mpr (htable.token entry hmem)
  cases hacts : entry.acts dialect property value with
  | true =>
    obtain ⟨hne, -⟩ := (h.acts_iff htoken property).mp hacts
    rw [Entry.rewrite, hacts, if_pos rfl]
    cases hpick : entry.pick property with
    | none => simp [outcome, hpick] at hne
    | some replacement =>
      have hnew := isCustomName_iff.mpr
        (htable.replacement entry hmem replacement (mem_of_pick hpick))
      rw [outcome, hpick, Option.getD_some, h.replaceToken htoken hnew, Entry.rename, hpick]
  | false =>
    have hsame : ∀ name, .name name ∈ pieces → entry.rename property name = name := by
      intro name hname
      rw [rename_eq]
      split
      next heq =>
        subst heq
        refine Classical.byContradiction fun hne => ?_
        rw [(h.acts_iff htoken property).mpr ⟨hne, hname⟩] at hacts
        cases hacts
      · rfl
    rw [rewrite_of_acts hacts, Piece.map_rename_eq_self hsame, h.sources]

/-- A naming renames the pieces of a value. -/
theorem rewrite (h : Reads dialect value pieces) (htable : table.IsNaming) (property : Text) :
    table.rewrite dialect property value =
      Piece.sources (pieces.map (Piece.rename (table.rename property))) := by
  induction table generalizing value pieces with
  | nil =>
    have hsame : pieces.map (Piece.rename (Table.rename [] property)) = pieces :=
      Piece.map_rename_eq_self fun _ _ => rfl
    rw [hsame, h.sources]
    rfl
  | cons entry table ih =>
    have hentry := h.rewrite_entry htable mem_cons_self property
    have hnext := h.rename fun name hname =>
      htable.isCustomName_entry (mem_cons_self (a := entry)) property hname
    rw [Table.rewrite, foldl_cons, hentry]
    refine (ih hnext (htable.subset (subset_cons_self _ _))).trans ?_
    rw [map_map]
    refine congrArg Piece.sources (map_congr_left fun piece _ => ?_)
    cases piece <;> rfl

end Value.Reads

/-- A name has no blanks. -/
theorem Table.IsNaming.hasBlank (h : table.IsNaming) :
    ∀ entry ∈ table, Text.hasBlank entry.token = false :=
  fun entry hmem => Token.hasBlank_of_isCustomName (isCustomName_iff.mpr (h.token entry hmem))

theorem Table.IsNaming.isFlush (h : table.IsNaming) : ∀ entry ∈ table, entry.token.IsFlush :=
  fun entry hmem => Text.isFlush_of_hasBlank (h.hasBlank entry hmem)

/-! ## Plans -/

/-- A part of a value: where it stands in the value, its pieces, and whether they have changed. -/
structure PartPlan where
  span : Span
  pieces : List Piece
  isChanged : Bool

namespace PartPlan

/-- The text of a part. -/
def text (part : PartPlan) : Text :=
  Piece.sources part.pieces

/-- The pieces are those of the part's text, which is that of the value if it has not changed and
begins like it if it has. -/
structure Sound (dialect : Dialect) (value : Text) (part : PartPlan) : Prop where
  reads : Value.Reads dialect part.text part.pieces
  kept : part.isChanged = false → part.text = part.span.slice value
  head : part.text.head? = (part.span.slice value).head?

end PartPlan

/-- A target with the parts of its value. -/
structure Plan where
  target : Target
  parts : List PartPlan

namespace Plan

/-- The target with all names in its parts renamed by a table at once. -/
def renamed (plan : Plan) (table : Table) : Target :=
  { plan.target with
    working := plan.target.initial.fill 0 (plan.parts.map fun part =>
      (part.span, Piece.sources (part.pieces.map (Piece.rename (table.rename plan.target.name))))) }

/-- How often a name occurs in the parts. -/
def count (plan : Plan) (token : Text) : Nat :=
  sumBy (fun part => part.pieces.count (.name token)) plan.parts

/-- The parts of a plan are those of its target's value, or the whole value if the target is not
composite. -/
structure Sound (dialect : Dialect) (plan : Plan) : Prop where
  spans : plan.parts.map PartPlan.span =
    if plan.target.isComposite then codeParts dialect plan.target.initial
    else [⟨0, plan.target.initial.length⟩]
  parts : ∀ part ∈ plan.parts, part.Sound dialect plan.target.initial

/-- No entry has been applied yet. -/
structure Fresh (plan : Plan) : Prop where
  working : plan.target.working = plan.target.initial
  unchanged : ∀ part ∈ plan.parts, part.isChanged = false

/-- A sound plan to which no entry has been applied yet. -/
structure AtStart (dialect : Dialect) (plan : Plan) : Prop extends
    Sound dialect plan, Fresh plan

/-- The plan for a target that nothing has happened to. -/
noncomputable def start (dialect : Dialect) (target : Target) : Plan where
  target := target
  parts :=
    (if target.isComposite then codeParts dialect target.initial
      else [⟨0, target.initial.length⟩]).map fun span =>
        ⟨span, Classical.choose (exists_reads dialect (span.slice target.initial)), false⟩

variable {dialect : Dialect} {plan : Plan} {table : Table} {entry : Entry}

theorem start_atStart {target : Target} (h : target.working = target.initial) :
    (start dialect target).AtStart dialect where
  spans := by
    rw [start, map_map]
    exact map_id _
  parts part hmem := by
    obtain ⟨span, -, rfl⟩ := mem_map.mp hmem
    have hreads := Classical.choose_spec (exists_reads dialect (span.slice target.initial))
    have htext : PartPlan.text ⟨span, Classical.choose
        (exists_reads dialect (span.slice target.initial)), false⟩ =
        span.slice target.initial := hreads.sources
    exact ⟨by rwa [htext], fun _ => htext, congrArg head? htext⟩
  working := h
  unchanged part hmem := by
    obtain ⟨span, -, rfl⟩ := mem_map.mp hmem
    rfl

theorem Sound.ordered (h : plan.Sound dialect) :
    Span.Ordered plan.target.initial.length 0 (plan.parts.map PartPlan.span) := by
  rw [h.spans]
  split
  · exact codeParts_ordered dialect plan.target.initial
  · exact ⟨Nat.le_refl _, Nat.zero_le _, Nat.le_refl _⟩

/-- A part holds what stands in its place. -/
theorem AtStart.text_eq (h : plan.AtStart dialect) {part : PartPlan} (hmem : part ∈ plan.parts) :
    part.text = part.span.slice plan.target.initial :=
  (h.parts part hmem).kept (h.unchanged part hmem)

/-- With the texts of its parts a plan has the value of its target. -/
theorem AtStart.fill_texts (h : plan.AtStart dialect) :
    plan.target.initial.fill 0 (plan.parts.map fun part => (part.span, part.text)) =
      plan.target.initial := by
  have hslices : (plan.parts.map fun part => (part.span, part.text)) =
      (plan.parts.map PartPlan.span).map fun span => (span, span.slice plan.target.initial) := by
    rw [map_map]
    exact map_congr_left fun part hmem => congrArg (Prod.mk part.span) (h.text_eq hmem)
  rw [hslices, Text.fill_slices h.ordered, drop_zero]

/-- A target that is not composite has one part, its whole value. -/
theorem AtStart.single (h : plan.AtStart dialect)
    (hsingle : plan.target.isComposite = false) :
    ∃ part, plan.parts = [part] ∧ part.span = ⟨0, plan.target.initial.length⟩ ∧
      part.text = plan.target.initial := by
  have hspans := h.spans
  rw [hsingle] at hspans
  obtain ⟨part, hparts, hspan⟩ := map_eq_singleton_iff.mp hspans
  have hmem : part ∈ plan.parts := by simp [hparts]
  refine ⟨part, hparts, hspan, (h.text_eq hmem).trans ?_⟩
  simp [Span.slice, hspan]

theorem AtStart.texts (h : plan.AtStart dialect) :
    plan.target.texts dialect = plan.parts.map PartPlan.text := by
  have htexts : plan.parts.map PartPlan.text =
      (plan.parts.map PartPlan.span).map fun span => span.slice plan.target.initial := by
    rw [map_map]
    exact map_congr_left fun part hmem => h.text_eq hmem
  rw [htexts, h.spans, Target.texts, h.working]
  split
  · rfl
  · simp [Span.slice]

/-- A naming rewrites a target by renaming the pieces of its plan. -/
theorem rewrite_eq (hplan : plan.AtStart dialect) (htable : table.IsNaming) :
    plan.target.rewrite dialect table = plan.renamed table := by
  have hpart : ∀ part ∈ plan.parts, part.span.slice plan.target.initial = part.text ∧
      table.rewrite dialect plan.target.name part.text =
        Piece.sources (part.pieces.map (Piece.rename (table.rename plan.target.name))) :=
    fun part hmem => ⟨(hplan.text_eq hmem).symm, (hplan.parts part hmem).reads.rewrite htable _⟩
  have hworking : (plan.target.rewrite dialect table).working = (plan.renamed table).working := by
    rw [Target.rewrite, hplan.working, renamed]
    cases hcomposite : plan.target.isComposite with
    | false =>
      obtain ⟨part, hparts, hspan, htext⟩ := hplan.single hcomposite
      obtain ⟨-, hrewrite⟩ := hpart part (by simp [hparts])
      rw [htext] at hrewrite
      rw [hrewrite, hparts]
      simp [Text.fill, Span.slice, hspan]
    | true =>
      have hspans := hplan.spans
      rw [hcomposite, if_pos rfl] at hspans
      obtain ⟨hacross, hinside⟩ := Table.across_eq_nil htable.hasBlank
      rw [Table.rewriteList, hacross, hinside]
      change table.rewriteParts dialect plan.target.name plan.target.initial = _
      rw [Table.rewriteParts, ← hspans, map_map]
      refine congrArg (Text.fill _ 0) (map_congr_left fun part hmem => ?_)
      obtain ⟨hslice, hrewrite⟩ := hpart part hmem
      have hhead := ((hplan.parts part hmem).reads.canonical.head?_rename fun _ =>
        htable.isCustomName_rename plan.target.name).1
      rw [Function.comp_apply, hslice, hrewrite]
      exact congrArg (Prod.mk part.span) (fitForm_of_head hhead.symm)
  exact congrArg (fun working : Text => { plan.target with working := working }) hworking

end Plan

/-! ## Choices that are not made -/

/-- A text that a mapping puts in after the choices is one of its texts, or the token. -/
theorem Mapping.mem_replacements_pin {pick : Topic → Text}
    (hpick : ∀ topic, pick topic = topic.token ∨ pick topic ∈ topic.candidates) {token text : Text}
    {mapping : Mapping} (h : text ∈ (mapping.pin pick token).replacements) :
    text ∈ mapping.replacements ∨ text = token := by
  cases mapping with
  | plain replacement => exact .inl h
  | conditional clauses =>
    obtain ⟨pinned, hpinned, htext⟩ := mem_flatMap.mp h
    obtain ⟨clause, hclause, rfl⟩ := mem_map.mp hpinned
    cases hreplacement : clause.replacement with
    | one replacement =>
      rw [Clause.pin, hreplacement] at htext
      exact .inl (mem_flatMap.mpr ⟨clause, hclause, by rwa [hreplacement]⟩)
    | choice candidates =>
      rw [Clause.pin, hreplacement] at htext
      rw [mem_singleton.mp htext]
      refine (hpick ⟨token, candidates⟩).symm.imp_left fun hcandidate => ?_
      exact mem_flatMap.mpr ⟨clause, hclause, by rwa [hreplacement]⟩

namespace Table

variable {table : Table} {property : Text} {pick : Topic → Text}

theorem IsNaming.pin (h : table.IsNaming)
    (hpick : ∀ topic, pick topic = topic.token ∨ pick topic ∈ topic.candidates) :
    IsNaming (table.pin pick) where
  token entry hmem := by
    obtain ⟨source, hsource, rfl⟩ := mem_map.mp hmem
    exact h.token source hsource
  replacement entry hmem text htext := by
    obtain ⟨source, hsource, rfl⟩ := mem_map.mp hmem
    rcases Mapping.mem_replacements_pin hpick htext with htext | rfl
    · exact h.replacement source hsource text htext
    · exact h.token source hsource

end Table

/-- Where a choice stands for the token itself, an entry puts in what it does without a choice. -/
theorem Entry.outcome_pin_token (property : Text) :
    (entry.pin Topic.token).outcome property = entry.outcome property := by
  unfold outcome pick pin
  rw [Mapping.replacementIn?_pin]
  cases entry.mapping.replacementIn? property with
  | none => rfl
  | some replacement => cases replacement <;> rfl

/-- Where choices stand for the tokens themselves, a table renames what it does without them. -/
theorem Table.rename_pin_token (table : Table) (property : Text) :
    (table.pin Topic.token).rename property = table.rename property := by
  funext name
  unfold Table.rename Table.pin
  rw [foldl_map]
  refine foldl_ext _ _ _ fun name entry _ => ?_
  rw [rename_eq, rename_eq, outcome_pin_token]
  rfl

/-- Where choices stand for the tokens themselves, a table touches what it does without them. -/
theorem Target.untouched_pin_token {dialect : Dialect} {target : Target} :
    target.Untouched dialect (table.pin Topic.token) ↔ target.Untouched dialect table := by
  unfold Target.Untouched Table.pin
  rw [forall_mem_map]
  refine forall₂_congr fun entry _ => forall₂_congr fun value _ => ?_
  rw [acts, outcome_pin_token]
  rfl

namespace Resolution

variable {σ : Type} {interaction : Interaction σ} {context : Context} {text : Text}
  {dialect : Dialect} {table : Table}

/-- The plans of the targets of a file. -/
structure Planned (path text : Text) (plans : List Plan) : Prop where
  targets : plans.map Plan.target = ofRules text (rules path text)
  atStart : ∀ plan ∈ plans, plan.AtStart (ofPath path).ofValue

theorem exists_planned (path text : Text) : ∃ plans, Planned path text plans := by
  refine ⟨(ofRules text (rules path text)).map
    (Plan.start (ofPath path).ofValue), ?_, fun plan hmem => ?_⟩
  · rw [map_map]
    exact map_id _
  · obtain ⟨target, htarget, rfl⟩ := mem_map.mp hmem
    exact Plan.start_atStart (ofRules_source htarget).1

namespace Planned

variable {path : Text} {plans : List Plan}

theorem mem_targets (h : Planned path text plans) {plan : Plan} (hmem : plan ∈ plans) :
    plan.target ∈ ofRules text (rules path text) :=
  h.targets ▸ mem_map_of_mem hmem

theorem fresh (h : Planned path text plans) :
    ∀ plan ∈ plans, plan.Sound (ofPath path).ofValue ∧ plan.Fresh :=
  fun plan hmem => ⟨(h.atStart plan hmem).toSound, (h.atStart plan hmem).toFresh⟩

theorem ordered (h : Planned path text plans) :
    Span.Ordered text.length 0 (plans.map fun plan => plan.target.span) := by
  have hordered := ofRules_ordered path text
  rwa [← h.targets, map_map] at hordered

/-- A naming rewrites the targets of plans by renaming them. -/
theorem map_rewrite (h : Planned path text plans) (htable : table.IsNaming) :
    (ofRules text (rules path text)).map
      (Target.rewrite (ofPath path).ofValue table) =
      plans.map fun plan => plan.renamed table := by
  rw [← h.targets, map_map]
  exact map_congr_left fun plan hmem =>
    Plan.rewrite_eq (h.atStart plan hmem) htable

end Planned

/-- The plans of the targets of a file, and the data that a naming makes of the file. -/
structure Renames (path text : Text) (table : Table) (plans : List Plan) (data : Text) : Prop
    extends Planned path text plans where
  naming : table.IsNaming
  data_eq : data = apply (plans.map fun plan => plan.renamed table) text

variable {session : Session σ}

/-- Where no question may be asked and nothing is settled, a file is resolved by renaming the names
in its values, without changes if no target is touched. -/
theorem resolveFile_renames (interaction : Interaction σ) (hquiet : context.interactive = false)
    (htable : table.IsNaming) {plans : List Plan} (hplans : Planned context.path text plans)
    (hsession : session.answers = {}) :
    ∃ changes after,
      (resolveFile interaction context table text).run.run session =
        (.ok ⟨apply (plans.map fun plan => plan.renamed table) text, changes⟩, after) ∧
      after.answers = {} ∧
      (changes = [] ↔ ∀ target ∈ ofRules text (rules context.path text),
        target.Untouched (ofPath context.path).ofValue table) := by
  obtain ⟨outcome, lines, hrun, hok⟩ := @tryResolve_quiet σ interaction context text hquiet table
    (rules context.path text) session
  obtain ⟨⟨data, changes⟩, rfl⟩ := exists_ok hrun hok htable.isFlush
  obtain ⟨hdata, hchanges⟩ := tryResolve_rewrites hrun
  have hverdict : (session.hear interaction lines).answers.verdict = Topic.token := by
    change session.answers.verdict = _
    rw [hsession]
    rfl
  have hrenamed : (plans.map fun plan => plan.renamed (table.pin Topic.token)) =
      plans.map fun plan => plan.renamed table := by
    simp only [Plan.renamed, Table.rename_pin_token]
  rw [hverdict] at hdata hchanges
  rw [hplans.map_rewrite (htable.pin fun topic => .inl rfl), hrenamed] at hdata
  simp only [untouched_pin_token] at hchanges
  subst hdata
  exact ⟨changes, _, resolveFile_of_tryResolve hrun, hsession, hchanges⟩

/-- A file none of whose targets is touched stays as it is, without changes. -/
theorem resolveFile_of_untouched (interaction : Interaction σ)
    (hquiet : context.interactive = false) (htable : table.IsNaming)
    (h : ∀ target ∈ ofRules text (rules context.path text),
      target.Untouched (ofPath context.path).ofValue table)
    {session : Session σ} (hsession : session.answers = {}) :
    ∃ last, (resolveFile interaction context table text).run.run session =
      (.ok ⟨text, []⟩, last) := by
  obtain ⟨plans, hplans⟩ := exists_planned ..
  obtain ⟨changes, last, hresult, -, hchanges⟩ :=
    resolveFile_renames interaction hquiet htable hplans hsession
  rw [← hplans.map_rewrite htable, map_rewrite_of_untouched h, apply_ofRules,
    hchanges.mpr h] at hresult
  exact ⟨last, hresult⟩

end Resolution

end Restyle
