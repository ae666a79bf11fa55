import Restyle.Proofs.Migration.Renaming
import Restyle.Proofs.Migration.Words
import Restyle.Proofs.Value.Numeral

/-!
# Resolving a stylesheet twice

A number holds no name, so that a renaming does not touch it (`Target.untouched_of_number`). In
other values it swaps words for words, so the resolved stylesheet has the same targets as the first
one, and their parts are the renamed ones (`Plan.texts_eq`, `Resolution.outlines_eq`). No token that
has a replacement is left in them, so that the table does not touch them
(`Plan.untouched_of_renamed`). So resolving a stylesheet again changes nothing:
`Resolution.resolveFile_twice`.
-/

namespace Restyle

open Dialect List Source Target

open Token (isCustomName)

theorem Token.isWord_of_isCustomName {name : Text} (h : isCustomName name) :
    Token.IsWord name :=
  ⟨head?_of_isCustomName h, isIdentifierByte_of_isCustomName h⟩

/-- Renaming pieces swaps words. -/
theorem Piece.swaps_rename {isOpen : Bool} {pieces : List Piece} {change : Text → Text}
    (hchange : ∀ name, isCustomName name → isCustomName (change name))
    (h : Canonical isOpen pieces) :
    Swaps (sources pieces) (sources (pieces.map (rename change))) := by
  induction pieces generalizing isOpen with
  | nil => exact Relation.ReflTransGen.refl
  | cons piece pieces ih =>
    cases piece with
    | byte source shown =>
      exact @Swaps.append [source] [source] _ _ Relation.ReflTransGen.refl (ih h.2)
    | name text =>
      obtain ⟨-, hname, -, hrest⟩ := h
      have hswap : Swap text (change text) :=
        ⟨[], text, change text, [], Token.isWord_of_isCustomName hname,
          Token.isWord_of_isCustomName (hchange text hname), by simp, by simp⟩
      exact Swaps.append (Relation.ReflTransGen.single hswap) (ih hrest)

namespace Target

variable {target : Target}

/-- A number is a target as it is displayed. -/
theorem positional_of_isNumber {path text : Text}
    (h : target ∈ ofRules text (rules path text)) (hnumber : target.isNumber) :
    target.isComposite = false ∧ ∃ number : Binary64, target.initial = utf8 number.positional := by
  rw [ofRules_eq, mem_mergeSort] at h
  obtain ⟨declared, -, rfl⟩ := mem_map.mp h
  unfold Declared.target at hnumber ⊢
  cases hvalue : declared.value with
  | number value => exact ⟨rfl, value, rfl⟩
  | text raw => simp [hvalue, DeclaredValue.isNumber] at hnumber

theorem untouched_of_number {path text : Text} {table : Table}
    (h : target ∈ ofRules text (rules path text)) (hnumber : target.isNumber)
    (htable : table.IsNaming) (dialect : Dialect) : target.Untouched dialect table := by
  obtain ⟨hsingle, number, hinitial⟩ := positional_of_isNumber h hnumber
  intro entry hmem value hvalue
  rw [searched_eq _ _ (htable.hasBlank _ hmem), texts, hsingle, if_neg Bool.false_ne_true,
    mem_singleton, (ofRules_source h).1, hinitial] at hvalue
  have hcount := Token.count_positional_eq_zero
    (Token.isCustomName_iff.mpr (htable.token entry hmem)) dialect number
  rw [hvalue, Bool.eq_false_iff]
  exact fun hacts => Token.occursIn_iff.mp (Bool.and_eq_true_iff.mp hacts).2 hcount

end Target

namespace Plan

variable {dialect : Dialect} {plan : Plan} {table : Table}

/-! ## What a renaming leaves -/

/-- A renaming swaps words in the parts of a plan. -/
theorem swaps_parts (hplan : plan.AtStart dialect) (htable : table.IsNaming) :
    ∀ part ∈ plan.parts, Swaps (part.span.slice plan.target.initial)
      (Piece.sources (part.pieces.map (Piece.rename (table.rename plan.target.name)))) := by
  intro part hmem
  rw [← hplan.text_eq hmem]
  exact Piece.swaps_rename (fun _ => htable.isCustomName_rename _)
    (hplan.parts part hmem).reads.canonical

/-- A renaming swaps words in the value of a plan. -/
theorem swaps_renamed (hplan : plan.AtStart dialect)
    (htable : table.IsNaming) :
    Swaps plan.target.initial (plan.renamed table).working := by
  have hslices : plan.target.initial.fill 0 (plan.parts.map fun part =>
      (part.span, part.span.slice plan.target.initial)) = plan.target.initial := by
    have hfill := Text.fill_slices hplan.ordered plan.target.initial
    rwa [drop_zero, map_map] at hfill
  have hswaps := @Text.swaps_fill _ plan.parts PartPlan.span _ _ (swaps_parts hplan htable)
    plan.target.initial 0
  rwa [hslices] at hswaps

/-- The plan of a renamed value has the renamed parts. -/
theorem texts_eq {plan' : Plan} (hplan : plan.AtStart dialect)
    (hplan' : plan'.AtStart dialect) (htable : table.IsNaming)
    (hcomposite : plan'.target.isComposite = plan.target.isComposite)
    (hinitial : plan'.target.initial = (plan.renamed table).working) :
    plan'.parts.map PartPlan.text = plan.parts.map fun part =>
      Piece.sources (part.pieces.map (Piece.rename (table.rename plan.target.name))) := by
  simp only [renamed] at hinitial
  cases hlist : plan.target.isComposite with
  | false =>
    -- The one part is the whole value.
    obtain ⟨part, hparts, hspan, -⟩ := hplan.single hlist
    obtain ⟨part', hparts', -, htext'⟩ := hplan'.single (hcomposite.trans hlist)
    rw [hparts', map_singleton, htext', hinitial, hparts]
    simp [Text.fill, Span.slice, hspan]
  | true =>
    have hspans := hplan.spans
    rw [hlist, if_pos rfl] at hspans
    have hspans' := hplan'.spans
    rw [hcomposite, hlist, if_pos rfl] at hspans'
    -- The reading of the parts finds the texts that have been filled in.
    have hfound := (Value.codeParts_stable dialect).fill (fun _ => ())
      (by rw [← hspans, map_map]; rfl)
      (hspans ▸ Value.codeParts_ordered ..)
      (swaps_parts hplan htable)
    rw [← hinitial, ← hspans'] at hfound
    have htexts := congrArg (map Prod.snd) hfound
    simp only [map_map] at htexts
    refine Eq.trans (map_congr_left fun part hmem => ?_) htexts
    exact hplan'.text_eq hmem

/-- A renaming does not touch a renamed value. -/
theorem untouched_of_renamed {plan' : Plan} (hplan : plan.AtStart dialect)
    (hplan' : plan'.AtStart dialect) (htable : table.IsRenaming)
    (hname : plan'.target.name = plan.target.name)
    (hcomposite : plan'.target.isComposite = plan.target.isComposite)
    (hinitial : plan'.target.initial = (plan.renamed table).working) :
    plan'.target.Untouched dialect table := by
  intro entry hmem value hvalue
  rw [searched_eq _ _ (htable.isNaming.hasBlank _ hmem), hplan'.texts,
    texts_eq hplan hplan' htable.isNaming hcomposite hinitial] at hvalue
  obtain ⟨part, hpart, rfl⟩ := mem_map.mp hvalue
  have hreads := (hplan.parts part hpart).reads.rename fun _ =>
    htable.isNaming.isCustomName_rename plan.target.name
  rw [hname, Bool.eq_false_iff, ne_eq,
    hreads.acts_iff (Token.isCustomName_iff.mpr (htable.token entry hmem))]
  rintro ⟨hne, hleft⟩
  have hpick : entry.pick plan.target.name ≠ none := fun hnone =>
    hne (by rw [Entry.outcome, hnone, Option.getD_none])
  -- The token would be what the table makes of a name.
  obtain ⟨piece, -, hpiece⟩ := mem_map.mp hleft
  cases piece with
  | byte source shown => cases hpiece
  | name text => exact htable.rename_ne_token hmem hpick text (Piece.name.inj hpiece)

end Plan

/-! ## Stylesheets -/

/-- A name with the ending of a stylesheet is not that of a program. -/
theorem Dialect.ofPath_ne_script {path ending : Text}
    (hending : ending ∈ [utf8 ".css", utf8 ".scss", utf8 ".sass"])
    (h : Text.endsWith ending (path.map Byte.toLower)) : ofPath path ≠ .script := by
  unfold ofPath
  dsimp only
  simp only [mem_cons, not_mem_nil, or_false] at hending
  split
  · exact Dialect.noConfusion
  next hcss =>
    split
    · exact Dialect.noConfusion
    next hscss =>
      rcases hending with rfl | rfl | rfl
      · exact absurd h hcss
      · simp [h] at hscss
      · simp [h] at hscss

namespace Resolution

variable {σ : Type} {path text data : Text} {table : Table} {plans : List Plan}

/-- A renaming leaves the numbers of a file as they are. -/
theorem renamed_number (htable : table.IsNaming)
    (hplans : Planned path text plans) {plan : Plan} (hmem : plan ∈ plans)
    (hnumber : plan.target.isNumber) : plan.renamed table = plan.target := by
  rw [← Plan.rewrite_eq (hplans.atStart plan hmem) htable]
  exact rewrite_of_untouched (untouched_of_number (hplans.mem_targets hmem) hnumber htable _)

/-- The resolved file has the texts that it declares filled in. -/
theorem data_eq_fill (htable : table.IsNaming)
    (hplans : Planned path text plans) :
    apply (plans.map fun plan => plan.renamed table) text =
      text.fill 0 ((plans.filter fun plan => !plan.target.isNumber).map fun plan =>
        (plan.target.span, (plan.renamed table).working)) := by
  have hsource : ∀ plan ∈ plans, plan.target.isNumber = false →
      plan.target.initial = plan.target.span.slice text := fun plan hmem =>
    (ofRules_source (hplans.mem_targets hmem)).2
  rw [apply_eq_fill (by rw [map_map]; exact hplans.ordered), map_map]
  · -- A number holds what stood there, so that only the texts need be filled in.
    have hfill := (Text.fill_filter (fun plan : Plan =>
      (plan.target.span, (plan.renamed table).held text)) (fun plan => !plan.target.isNumber) text
      hplans.ordered fun plan hmem hnumber => by
        rw [Bool.not_eq_false'] at hnumber
        rw [renamed_number htable hplans hmem hnumber]
        exact held_eq_slice (hplans.atStart plan hmem).working (hsource plan hmem)).1
    refine hfill.symm.trans (congrArg (Text.fill text 0) (map_congr_left fun plan hmem => ?_))
    have hnumber : plan.target.isNumber = false := by simpa using (mem_filter.mp hmem).2
    have hrenamed : (plan.renamed table).isNumber = false := hnumber
    simp [held, render, hrenamed]
  · intro target hmem hnumber
    obtain ⟨plan, hplan, rfl⟩ := mem_map.mp hmem
    exact hsource plan hplan hnumber

/-- A stable reading that finds the texts that a file declares finds the renamed ones in the
resolved file, with the same marks. -/
theorem found_eq {μ : Type} {reading : Text → List (Span × μ)} (hreading : StableReading reading)
    (mark : Plan → μ) (h : Renames path text table plans data)
    (hitems : reading text = (plans.filter fun plan => !plan.target.isNumber).map fun plan =>
      (plan.target.span, mark plan)) :
    ((reading data).map fun found => (found.2, found.1.slice data)) =
      (plans.filter fun plan => !plan.target.isNumber).map fun plan =>
        (mark plan, (plan.renamed table).working) := by
  have hordered : Span.Ordered text.length 0
      ((plans.filter fun plan => !plan.target.isNumber).map fun plan => plan.target.span) :=
    (Text.fill_filter (fun plan : Plan => (plan.target.span, plan.target.span.slice text))
      _ text h.ordered fun _ _ _ => rfl).2
  have hswaps : ∀ plan ∈ plans.filter fun plan => !plan.target.isNumber,
      Swaps (plan.target.span.slice text) (plan.renamed table).working := by
    intro plan hmem
    obtain ⟨hplan, hnumber⟩ := mem_filter.mp hmem
    rw [← (ofRules_source (h.mem_targets hplan)).2 (by simpa using hnumber)]
    exact Plan.swaps_renamed (h.atStart plan hplan) h.naming
  have hfound := hreading.fill mark hitems hordered hswaps
  rwa [← data_eq_fill h.naming h.toPlanned, ← h.data_eq] at hfound

/-- What a stable reading marks the targets of a stylesheet with, it marks those of the resolved
stylesheet with, and these have the renamed values. -/
theorem reading_eq {μ : Type} {mark : Text → Target → μ}
    (hreading : StableReading fun text => (ofRules text (rules path text)).map
      fun target => (target.span, mark text target))
    (hpath : ofPath path ≠ .script) (h : Renames path text table plans data) :
    ((ofRules data (rules path data)).map fun target =>
        (mark data target, target.initial)) =
      plans.map fun plan => (mark text plan.target, (plan.renamed table).working) := by
  have hplain : plans.filter (fun plan => !plan.target.isNumber) = plans :=
    filter_eq_self.mpr fun plan hmem => by simp [isNumber_eq_false hpath (h.mem_targets hmem)]
  have hfound := found_eq hreading (fun plan => mark text plan.target) h (by
    rw [hplain, ← h.targets, map_map]
    rfl)
  rw [hplain, map_map] at hfound
  rw [← hfound]
  refine map_congr_left fun target hmem => ?_
  rw [(ofRules_source hmem).2 (isNumber_eq_false hpath hmem)]
  rfl

/-- The targets of the resolved stylesheet are those of the first one, with the renamed values. -/
theorem outlines_eq (hpath : ofPath path ≠ .script) (h : Renames path text table plans data) :
    ((ofRules data (rules path data)).map fun target =>
        ((target.name, target.isComposite), target.initial)) =
      plans.map fun plan =>
        ((plan.target.name, plan.target.isComposite), (plan.renamed table).working) :=
  @reading_eq path text data table plans _ (fun _ target => (target.name, target.isComposite))
    (outlines_stable hpath) hpath h

/-- The data of a resolution is resolved: the renaming does not touch its targets. -/
theorem untouched_of_stylesheet (hpath : ofPath path ≠ .script) (htable : table.IsRenaming)
    (h : Renames path text table plans data) :
    ∀ target ∈ ofRules data (rules path data),
      target.Untouched (ofPath path).ofValue table := by
  intro target hmem
  -- The target is the renamed one of a plan of the first text.
  have houtline : ((target.name, target.isComposite), target.initial) ∈ plans.map fun plan =>
        ((plan.target.name, plan.target.isComposite), (plan.renamed table).working) := by
    rw [← outlines_eq hpath h]
    exact mem_map.mpr ⟨target, hmem, rfl⟩
  obtain ⟨plan, hplan, heq⟩ := mem_map.mp houtline
  obtain ⟨hmark, hinitial⟩ := Prod.mk.inj heq
  obtain ⟨hname, hcomposite⟩ := Prod.mk.inj hmark
  exact Plan.untouched_of_renamed (h.atStart plan hplan)
    (Plan.start_atStart (ofRules_source hmem).1) htable
    hname.symm hcomposite.symm hinitial.symm

/-- Resolving a stylesheet by a renaming, where no question may be asked and nothing is settled,
succeeds and renames the names in its values, and resolving what comes out by the same table changes
nothing. The name of the stylesheet may end in either case. -/
theorem resolveFile_twice (interaction : Interaction σ) (context : Context) (text : Text)
    (table : Table) (session : Session σ)
    (hpath : ∃ ending ∈ [utf8 ".css", utf8 ".scss", utf8 ".sass"],
      Text.endsWith ending (context.path.map Byte.toLower) = true)
    (hinteractive : context.interactive = false) (hsession : session.answers = {})
    (hrenaming : table.IsRenaming) :
    ∃ resolution after,
      (resolveFile interaction context table text).run.run session = (.ok resolution, after) ∧
      after.answers = {} ∧
      (∃ plans : List Plan,
        plans.map Plan.target = Target.ofRules text (Source.rules context.path text) ∧
        (∀ plan ∈ plans, plan.Sound (Dialect.ofPath context.path).ofValue ∧ plan.Fresh) ∧
        resolution.data = Target.apply (plans.map fun plan => plan.renamed table) text) ∧
      ∀ again : Session σ, again.answers = {} → ∃ last,
        (resolveFile interaction context table resolution.data).run.run again =
          (.ok ⟨resolution.data, []⟩, last) := by
  obtain ⟨ending, hending, hends⟩ := hpath
  have hdialect := ofPath_ne_script hending hends
  obtain ⟨plans, hplans⟩ := exists_planned ..
  obtain ⟨changes, after, hresult, hafter, -⟩ := resolveFile_renames interaction hinteractive
    hrenaming.isNaming hplans hsession
  refine ⟨_, after, hresult, hafter, ⟨plans, hplans.targets, hplans.fresh, rfl⟩,
    fun again hagain => ?_⟩
  exact resolveFile_of_untouched interaction hinteractive hrenaming.isNaming
    (untouched_of_stylesheet hdialect hrenaming ⟨hplans, hrenaming.isNaming, rfl⟩) hagain

/-- A table of a renaming everywhere, one in a single property, and one that has to be chosen. -/
def renameAndChoose : Table :=
  [⟨utf8 "--a", .plain (utf8 "--a-new")⟩,
    ⟨utf8 "--a-b", .conditional [⟨[utf8 "border"], .one (utf8 "--c")⟩]⟩,
    ⟨utf8 "--d", .conditional [⟨[utf8 "color"], .choice [utf8 "--e", utf8 "--f"]⟩]⟩]

/-- A stylesheet with the tokens of `renameAndChoose` in a composite value, in a comment, in a
single value and in a block that is not closed. -/
def unclosedSheet : Text :=
  utf8 ".x\x7bborder:1px var(--a) var(--a-b)/*--a*/;color:var(--d,--a)\x7d.y\x7bcolor:--a"

/-- Resolving `unclosedSheet` twice by `renameAndChoose`. -/
theorem resolveFile_twice_unclosedSheet :
    (∃ ending ∈ [utf8 ".css", utf8 ".scss", utf8 ".sass"],
      Text.endsWith ending ((utf8 "x.SCSS").map Byte.toLower) = true) ∧
    renameAndChoose.IsRenaming ∧
    ∃ resolution after,
      (resolveFile Interaction.silent ⟨utf8 "x.SCSS", false, none⟩ renameAndChoose
        unclosedSheet).run.run Session.silent = (.ok resolution, after) ∧
      ∃ last, (resolveFile Interaction.silent ⟨utf8 "x.SCSS", false, none⟩ renameAndChoose
        resolution.data).run.run Session.silent = (.ok ⟨resolution.data, []⟩, last) := by
  have hpath : ∃ ending ∈ [utf8 ".css", utf8 ".scss", utf8 ".sass"],
      Text.endsWith ending ((utf8 "x.SCSS").map Byte.toLower) = true := by
    decide
  have hrenaming : renameAndChoose.IsRenaming := by decide
  obtain ⟨resolution, after, hresult, -, -, hagain⟩ := resolveFile_twice Interaction.silent
    ⟨utf8 "x.SCSS", false, none⟩ unclosedSheet renameAndChoose Session.silent hpath rfl rfl
    hrenaming
  exact ⟨hpath, hrenaming, resolution, after, hresult, hagain Session.silent rfl⟩

end Resolution

end Restyle
