import Restyle.Proofs.Migration.Frame
import Restyle.Proofs.Migration.Idempotence

/-!
# Resolving a program twice

The values of a program that a renaming may change are the texts that it declares. Where these stand
does not depend on their words, so the resolved program has the renamed ones at their places
(`Resolution.programOutlines_eq`). Another value of it may have come to be declared only if its
block has lost the mark of a type that stood in front of it. If none has, resolving the program
again changes nothing: `Resolution.resolveFile_again`.
-/

namespace Restyle

open Dialect List StyleObject Target

open Token (isCustomName)
open Declaration (Placed placed)
open StyleObject (pick view isStyled outlines outlinesIn)

namespace StyleObject

/-- The places of the declarations that are style, and no numbers. -/
def styledPlaces (text : Text) (place : Nat) : Bool :=
  ((placed .script (script.stripComments text))[place]?).any (isStyled (script.stripComments text))

/-- The view of a declaration, where the values that are style in a text may change. -/
def styledView (text : Text) (watched : Nat) (data : Text) : Option View :=
  ((placed .script (script.stripComments data))[watched]?).map (view (script.stripComments data)
      (pick (styledPlaces text) (placed .script (script.stripComments data))))

/-- There is always a place that is not chosen: the one behind all declarations. -/
theorem styledPlaces_length (text : Text) :
    styledPlaces text (placed .script (script.stripComments text)).length = false := by
  rw [styledPlaces, getElem?_length]
  rfl

/-- A declaration that declares a text has the outline of its target. -/
theorem outline_of_declare {text : Text} {item : Placed}
    (hitem : item ∈ placed .script (script.stripComments text)) {declared : Declared}
    (h : declare? (script.stripComments text) item = some declared)
    (htext : declared.value.isNumber = false) :
    outline (script.stripComments text) item = (declared.target text).outline := by
  obtain ⟨-, _, rfl, rfl⟩ | ⟨hsheet, -⟩ := Source.declare_cases h
  case inr => exact absurd rfl hsheet
  refine Prod.ext (readValue_snd _ _).symm (Prod.ext rfl ?_)
  simp only [outline, Target.outline, Declared.target]
  split
  next value hvalue =>
    simp only at hvalue htext
    rw [hvalue] at htext
    cases htext
  next raw hvalue => rw [slice_of_readValue (Declaration.value_le_of_placed hitem).2 hvalue]

/-- Of some declarations of a program, those that are style have the outlines of the targets that
are no numbers. -/
theorem outlines_filter {text : Text} {items : List Placed}
    (hitems : ∀ item ∈ items, item ∈ placed .script (script.stripComments text)) :
    (items.filter (isStyled (script.stripComments text))).map
        (outline (script.stripComments text)) =
      (((items.filterMap (declare? (script.stripComments text))).map
        (Declared.target text)).filter fun target => !target.isNumber).map Target.outline := by
  induction items with
  | nil => rfl
  | cons item items ih =>
    obtain ⟨hitem, hrest⟩ := forall_mem_cons.mp hitems
    have hstyled := isStyled_eq (script.stripComments text) item
    cases hdeclared : declare? (script.stripComments text) item with
    | none =>
      rw [hdeclared, Option.any_none] at hstyled
      rw [filter_cons_of_neg (by simp [hstyled]), filterMap_cons_none hdeclared, ih hrest]
    | some declared =>
      rw [hdeclared, Option.any_some] at hstyled
      rw [filterMap_cons_some hdeclared, map_cons]
      cases hnumber : declared.value.isNumber with
      | true =>
        rw [hnumber] at hstyled
        rw [filter_cons_of_neg (by simp [hstyled]),
          filter_cons_of_neg (by simp [Declared.target, hnumber]), ih hrest]
      | false =>
        rw [hnumber] at hstyled
        rw [filter_cons_of_pos (by simp [hstyled]),
          filter_cons_of_pos (by simp [Declared.target, hnumber]), map_cons,
          map_cons, ih hrest, outline_of_declare hitem hdeclared hnumber]

/-- The declarations of a program that are style have the outlines of its targets that are no
numbers, in the order of the file. -/
theorem outlines_eq {path : Text} (hpath : ofPath path = .script) (text : Text)
    (watched : Nat) :
    outlines (styledPlaces text) watched text =
      ((ofRules text (Source.rules path text)).filter fun target => !target.isNumber).map
        fun target =>
          (target.span, styledView text watched text, target.name, target.isComposite) := by
  have hunsorted : outlinesIn (styledPlaces text) watched (script.stripComments text) =
      (((Source.declared .script text).map (Declared.target text)).filter
        fun target => !target.isNumber).map fun target =>
          (target.span, styledView text watched text, target.name, target.isComposite) := by
    have hpick : pick (styledPlaces text) (placed .script (script.stripComments text)) =
        (placed .script (script.stripComments text)).filter
          (isStyled (script.stripComments text)) := pick_filter _ _
    have houtlines := congrArg (map fun outline =>
      (outline.1, styledView text watched text, outline.2))
        (@outlines_filter text _ fun item hitem => hitem)
    rw [← hpick, map_map, map_map, ← declared_eq] at houtlines
    exact houtlines
  have hperm : (outlines (styledPlaces text) watched text).Perm
      (((ofRules text (Source.rules path text)).filter fun target => !target.isNumber).map
        fun target =>
          (target.span, styledView text watched text, target.name, target.isComposite)) := by
    rw [ofRules_eq, hpath]
    refine (mergeSort_perm _ _).trans ?_
    rw [hunsorted]
    exact (((mergeSort_perm _ _).filter _).map _).symm
  -- No two values begin at the same place.
  have hdistinct : (outlinesIn (styledPlaces text) watched
      (script.stripComments text)).Pairwise fun left right =>
        left.1.start ≠ right.1.start := by
    rw [hunsorted]
    refine pairwise_map.mpr (List.Pairwise.filter _ (pairwise_map.mpr ?_))
    exact (Source.declared_separate .script text).2.imp And.right
  have hsymm : Std.Symm fun left right : Span × Option View × Text × Bool =>
      left.1.start ≠ right.1.start := ⟨fun _ _ => Ne.symm⟩
  refine @List.Perm.eq_of_pairwise _ (fun left right => left.1.start ≤ right.1.start) _ _ ?_ ?_ ?_
    hperm
  · intro left right hleft hright hle hge
    rw [outlines, mem_mergeSort] at hleft
    have hright' := hperm.mem_iff.mpr hright
    rw [outlines, mem_mergeSort] at hright'
    refine Classical.byContradiction fun hne => ?_
    exact hdistinct.forall hleft hright' hne (Nat.le_antisymm hle hge)
  · exact sorted_of_mergeSort _ _
  · rw [ofRules]
    exact pairwise_map.mpr (List.Pairwise.filter _ (sorted_of_mergeSort _ _))

end StyleObject

namespace Resolution

open StyleObject (styledPlaces styledView)

variable {σ : Type} {path text data : Text} {table : Table} {plans : List Plan}

section Resolved

variable (hpath : ofPath path = .script) (h : Renames path text table plans data)
include hpath h

variable {item' : Placed} {watched : Nat}

/-- The texts that a resolved program declares at the places of those of the first one are the
renamed ones, and what is not chosen looks as it did. -/
theorem programOutlines_eq (hwatched : styledPlaces text watched = false) :
    ((outlines (styledPlaces text) watched data).map fun found => (found.2, found.1.slice data)) =
      (plans.filter fun plan => !plan.target.isNumber).map fun plan =>
        ((styledView text watched text, plan.target.name, plan.target.isComposite),
          (plan.renamed table).working) := by
  refine found_eq (StyleObject.outlines_stable hwatched) (fun plan =>
    (styledView text watched text, plan.target.name, plan.target.isComposite)) h ?_
  rw [StyleObject.outlines_eq hpath, ← h.targets, filter_map, map_map]
  rfl

/-- What is not chosen looks as it did in the resolved program. -/
theorem styledView_eq (hwatched : styledPlaces text watched = false) :
    styledView text watched data = styledView text watched text := by
  have houtlines := programOutlines_eq hpath h hwatched
  cases hfilter : plans.filter fun plan => !plan.target.isNumber with
  | nil =>
    -- Nothing is filled in.
    rw [h.data_eq, data_eq_fill h.naming h.toPlanned, hfilter]
    rfl
  | cons plan rest =>
    rw [hfilter, map_cons] at houtlines
    obtain ⟨found, others, hcons, hfound, -⟩ := map_eq_cons_iff.mp houtlines
    have hmem : found ∈ outlines (styledPlaces text) watched data := hcons ▸ mem_cons_self
    rw [outlines, mem_mergeSort] at hmem
    obtain ⟨item, -, rfl⟩ := mem_map.mp hmem
    exact (Prod.mk.inj (Prod.mk.inj hfound).1).1

/-- A declaration of the resolved program that is style was style before, if no block has lost the
mark of a type. -/
theorem styledPlaces_of_isStyled (hmarks : ¬ StyleObject.Unmarks text data) {place : Nat}
    (hplace : (placed .script (script.stripComments data))[place]? = some item')
    (hstyled : isStyled (script.stripComments data) item') :
    styledPlaces text place := by
  refine Classical.byContradiction fun hplain => ?_
  have hview := styledView_eq hpath h (Bool.eq_false_iff.mpr hplain)
  unfold styledView at hview
  rw [hplace] at hview
  obtain ⟨item, hitem, hsame⟩ := Option.map_eq_some_iff.mp hview.symm
  have hbefore : isStyled (script.stripComments text) item := by
    refine isStyled_of_view hmarks (mem_of_getElem? hitem)
      (mem_of_getElem? hplace) (fun other hother => ?_) hsame hstyled
    obtain ⟨place, hother, hchosen⟩ := mem_pick.mp hother
    rw [styledPlaces, hother] at hchosen
    exact hchosen
  refine hplain ?_
  rw [styledPlaces, hitem]
  exact hbefore

/-- A text that was style before is the renamed one in the resolved program. -/
theorem exists_renamed_of_styledPlaces {place : Nat}
    (hplace : (placed .script (script.stripComments data))[place]? = some item')
    (hstyled : styledPlaces text place) :
    ∃ plan ∈ plans,
      (StyleObject.outline (script.stripComments data) item').2 =
        (plan.target.name, plan.target.isComposite) ∧
      (StyleObject.outline (script.stripComments data) item').1.slice data =
        (plan.renamed table).working := by
  have houtlines := programOutlines_eq hpath h (styledPlaces_length text)
  have hmem : ((styledView text (placed .script (script.stripComments text)).length data,
      (StyleObject.outline (script.stripComments data) item').2),
      (StyleObject.outline (script.stripComments data) item').1.slice data) ∈
        (outlines (styledPlaces text) (placed .script (script.stripComments text)).length data).map
            fun found => (found.2, found.1.slice data) := by
    refine mem_map.mpr ⟨_, mem_mergeSort.mpr (mem_map.mpr
      ⟨item', mem_pick.mpr ⟨place, hplace, hstyled⟩, rfl⟩), rfl⟩
  rw [houtlines] at hmem
  obtain ⟨plan, hplan, heq⟩ := mem_map.mp hmem
  obtain ⟨hmark, hworking⟩ := Prod.mk.inj heq
  exact ⟨plan, (mem_filter.mp hplan).1, (Prod.mk.inj hmark).2.symm, hworking.symm⟩

end Resolved

/-- The data of a resolution is resolved: the renaming does not touch its targets, if no block has
lost the mark of a type. -/
theorem untouched_of_program (hpath : ofPath path = .script) (htable : table.IsRenaming)
    (h : Renames path text table plans data)
    (hmarks : ¬ StyleObject.Unmarks text data) :
    ∀ target ∈ ofRules data (Source.rules path data),
      target.Untouched (ofPath path).ofValue table := by
  intro target htarget
  cases hnumber : target.isNumber with
  | true => exact untouched_of_number htarget hnumber htable.isNaming _
  | false =>
    obtain ⟨hworking, hsource⟩ := ofRules_source htarget
    rw [ofRules_eq, hpath, mem_mergeSort] at htarget
    obtain ⟨declared, hdeclared, rfl⟩ := mem_map.mp htarget
    rw [declared_eq] at hdeclared
    obtain ⟨item', hitem', hdeclare⟩ := mem_filterMap.mp hdeclared
    obtain ⟨place, hplace⟩ := mem_iff_getElem?.mp hitem'
    have htext : declared.value.isNumber = false := hnumber
    have hstyled := isStyled_eq (script.stripComments data) item'
    rw [hdeclare, Option.any_some, htext] at hstyled
    obtain ⟨plan, hplan, hmark, hrenamed⟩ := exists_renamed_of_styledPlaces hpath h hplace
        (styledPlaces_of_isStyled hpath h hmarks hplace hstyled)
    rw [outline_of_declare hitem' hdeclare htext] at hmark hrenamed
    obtain ⟨hname, hcomposite⟩ := Prod.mk.inj hmark
    exact Plan.untouched_of_renamed (h.atStart plan hplan)
      (Plan.start_atStart hworking) htable hname hcomposite
      ((hsource hnumber).trans hrenamed)

/-- Resolving a program by a renaming, where no question may be asked and nothing is settled,
succeeds and renames the names in the values that it declares. Resolving what comes out by the same
table changes nothing, unless the renaming has taken the mark of a type from in front of a block
that is a style object then. -/
theorem resolveFile_again (interaction : Interaction σ) (context : Context) (text : Text)
    (table : Table) (session : Session σ) (hpath : Dialect.ofPath context.path = .script)
    (hinteractive : context.interactive = false) (hsession : session.answers = {})
    (hrenaming : table.IsRenaming) :
    ∃ resolution after,
      (resolveFile interaction context table text).run.run session = (.ok resolution, after) ∧
      after.answers = {} ∧
      (∃ plans : List Plan,
        plans.map Plan.target = Target.ofRules text (Source.rules context.path text) ∧
        (∀ plan ∈ plans, plan.Sound (Dialect.ofPath context.path).ofValue ∧ plan.Fresh) ∧
        resolution.data = Target.apply (plans.map fun plan => plan.renamed table) text) ∧
      (¬ StyleObject.Unmarks text resolution.data →
        ∀ again : Session σ, again.answers = {} → ∃ last,
          (resolveFile interaction context table resolution.data).run.run again =
            (.ok ⟨resolution.data, []⟩, last)) := by
  obtain ⟨plans, hplans⟩ := exists_planned ..
  obtain ⟨changes, after, hresult, hafter, -⟩ := resolveFile_renames interaction hinteractive
    hrenaming.isNaming hplans hsession
  refine ⟨_, after, hresult, hafter, ⟨plans, hplans.targets, hplans.fresh, rfl⟩,
    fun hmarks again hagain => ?_⟩
  exact resolveFile_of_untouched interaction hinteractive hrenaming.isNaming
    (untouched_of_program hpath hrenaming ⟨hplans, hrenaming.isNaming, rfl⟩ hmarks) hagain

/-! ## Types and style objects -/

/-- Where the programs below stand. -/
def programContext : Context :=
  ⟨utf8 "s.js", false, none⟩

/-- A program with a style object and a type behind it. -/
def objectAndType : Text :=
  utf8 "s=\x7btop:.5,color:'var(--a)'\x7d;type T=\x7bcolor:'var(--a)'\x7d"

/-- What resolving `objectAndType` gives: the property renamed in the style object only. -/
def objectAndTypeRenamed : Resolution :=
  ⟨utf8 "s=\x7btop:.5,color:'var(--b)'\x7d;type T=\x7bcolor:'var(--a)'\x7d",
    [⟨utf8 "--a", utf8 "--b", 1⟩]⟩

/-- Resolving `objectAndType` keeps the mark in front of the type, and resolving what comes out
changes nothing. -/
theorem resolveFile_again_objectAndType :
    renameA.IsRenaming ∧
    (resolveFile Interaction.silent programContext renameA objectAndType).run.run Session.silent =
      (.ok objectAndTypeRenamed, Session.silent) ∧
    ¬ StyleObject.Unmarks objectAndType objectAndTypeRenamed.data ∧
    ∃ last, (resolveFile Interaction.silent programContext renameA
      objectAndTypeRenamed.data).run.run Session.silent =
        (.ok ⟨objectAndTypeRenamed.data, []⟩, last) := by
  have hrenaming : renameA.IsRenaming := by decide
  have hpath : Dialect.ofPath programContext.path = .script := by decide
  obtain ⟨hscan, htargets⟩ := @Target.ofRules_of_closed programContext.path objectAndType .script
    [⟨2, 26⟩, ⟨35, 52⟩] [⟨utf8 "top", ⟨7, 9⟩, utf8 "0.5", utf8 "0.5", true, false⟩,
      ⟨utf8 "color", ⟨17, 25⟩, utf8 "var(--a)", utf8 "var(--a)", false, false⟩]
    hpath (by decide) (by decide) (by decide) (by decide)
  have hresult : (resolveFile Interaction.silent programContext renameA objectAndType).run.run
      Session.silent = (.ok objectAndTypeRenamed, Session.silent) := by
    refine resolveFile_of_tryResolve ?_
    rw [tryResolve, htargets]
    rfl
  have hmarks : ¬ StyleObject.Unmarks objectAndType objectAndTypeRenamed.data := by
    have hscan' : Block.scan .script
        (script.stripComments objectAndTypeRenamed.data) = [⟨2, 26⟩, ⟨35, 52⟩] :=
      Block.scan_of_closed _ (by decide) (by decide)
    rintro ⟨number, block, block', hblock, hblock', hmarked, hstyle⟩
    rw [hscan] at hblock
    rw [hscan'] at hblock'
    obtain _ | _ | number := number
    · obtain rfl := Option.some.inj hblock
      exact absurd hmarked (by decide)
    · obtain rfl := Option.some.inj hblock'
      exact absurd hstyle (by decide)
    · cases hblock
  obtain ⟨resolution, after, hagain, -, -, htwice⟩ := resolveFile_again Interaction.silent
    programContext objectAndType renameA Session.silent hpath rfl rfl hrenaming
  rw [hresult] at hagain
  obtain ⟨hresolution, -⟩ := Prod.mk.inj hagain
  obtain rfl := Except.ok.inj hresolution
  exact ⟨hrenaming, hresult, hmarks, htwice hmarks Session.silent rfl⟩

/-- The table that renames a property called like the mark of a type. -/
def renameType : Table :=
  [⟨utf8 "--type", .plain (utf8 "--b")⟩]

/-- A program with two style objects, the first of which has the mark of a type in its value. -/
def markInValue : Text :=
  utf8 "s=\x7bcolor:'--type var(--x)'\x7d;t=\x7bcolor:'var(--type)'\x7d"

/-- The program `markInValue` with the property renamed in the first object. -/
def markRenamed : Text :=
  utf8 "s=\x7bcolor:'--b var(--x)'\x7d;t=\x7bcolor:'var(--type)'\x7d"

/-- The program `markInValue` with the property renamed in both objects. -/
def bothRenamed : Text :=
  utf8 "s=\x7bcolor:'--b var(--x)'\x7d;t=\x7bcolor:'var(--b)'\x7d"

/-- Resolving a program again may change something: the renaming takes the mark of a type away that
stood in front of the second object of `markInValue`. -/
theorem resolveFile_again_changes :
    Dialect.ofPath programContext.path = .script ∧ programContext.interactive = false ∧
    renameType.IsRenaming ∧
    (resolveFile Interaction.silent programContext renameType markInValue).run.run Session.silent =
      (.ok ⟨markRenamed, [⟨utf8 "--type", utf8 "--b", 1⟩]⟩, Session.silent) ∧
    (resolveFile Interaction.silent programContext renameType markRenamed).run.run Session.silent =
      (.ok ⟨bothRenamed, [⟨utf8 "--type", utf8 "--b", 1⟩]⟩, Session.silent) := by
  have hpath : Dialect.ofPath programContext.path = .script := by decide
  obtain ⟨-, htargets⟩ := @Target.ofRules_of_closed programContext.path markInValue .script
    [⟨2, 26⟩, ⟨30, 50⟩] [⟨utf8 "color", ⟨10, 25⟩, utf8 "--type var(--x)", utf8 "--type var(--x)",
      false, false⟩]
    hpath (by decide) (by decide) (by decide) (by decide)
  obtain ⟨-, htargets'⟩ := @Target.ofRules_of_closed programContext.path markRenamed .script
    [⟨2, 23⟩, ⟨27, 47⟩] [⟨utf8 "color", ⟨10, 22⟩, utf8 "--b var(--x)", utf8 "--b var(--x)",
      false, false⟩, ⟨utf8 "color", ⟨35, 46⟩, utf8 "var(--type)", utf8 "var(--type)", false, false⟩]
    hpath (by decide) (by decide) (by decide) (by decide)
  refine ⟨hpath, rfl, by decide, resolveFile_of_tryResolve ?_, resolveFile_of_tryResolve ?_⟩
  · rw [tryResolve, htargets]
    rfl
  · rw [tryResolve, htargets']
    rfl

end Resolution

end Restyle
