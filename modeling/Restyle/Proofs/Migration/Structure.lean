import Restyle.Proofs.Migration.Changes

/-!
# A migration keeps the rules of a stylesheet

Renaming custom properties in the values of a plain CSS file leaves its layout as it was
(`Resolution.layout_eq`): reading the new file gives the same rules with the same properties, and
every declared value is what the resolution left there, without its comments. This is
`Resolution.resolveFile_keeps_rules`.
-/

namespace Restyle

open Declaration Dialect List Source Target

/-! ## Ranks -/

/-- Among items that start at different places, an item stands behind those that start before it. -/
theorem getElem?_mergeSort_countP {α : Type} (start : α → Nat) {items : List α}
    (hdistinct : items.Pairwise fun left right => start left ≠ start right) {item : α}
    (hitem : item ∈ items) :
    (items.mergeSort fun left right => start left ≤ start right)[
      items.countP fun other => start other < start item]? = some item := by
  have hperm := mergeSort_perm items fun left right => start left ≤ start right
  have hsorted := sorted_of_mergeSort start items
  have hdistinct := (hperm.pairwise_iff Ne.symm).mpr hdistinct
  rw [← hperm.countP_eq]
  obtain ⟨before, after, hsplit⟩ := append_of_mem (hperm.mem_iff.mpr hitem)
  rw [hsplit] at hsorted hdistinct ⊢
  have hpairs := hsorted.and hdistinct
  obtain ⟨-, hlater, hearlier⟩ := pairwise_append.mp hpairs
  have hbefore : ∀ other ∈ before, decide (start other < start item) := by
    intro other hother
    obtain ⟨hle, hne⟩ := hearlier other hother item mem_cons_self
    exact decide_eq_true (Nat.lt_of_le_of_ne hle hne)
  have hafter : ∀ other ∈ item :: after, ¬ decide (start other < start item) := by
    intro other hother
    rw [decide_eq_true_eq, Nat.not_lt]
    rcases mem_cons.mp hother with rfl | hother
    · exact Nat.le_refl _
    · exact ((pairwise_cons.mp hlater).1 other hother).1
  rw [countP_append, countP_eq_length.mpr hbefore, countP_eq_zero.mpr hafter,
    Nat.add_zero, getElem?_append_right (Nat.le_refl _), Nat.sub_self]
  rfl

/-- The target of a declaration of a stylesheet is found by the rank of the declaration. -/
theorem Target.getElem?_rank {path text : Text} {dialect : Dialect}
    (hpath : ofPath path = dialect) (hdialect : dialect ≠ .script) {block : Block}
    {declaration : Declaration}
    (hblock : block ∈ Block.scan dialect (dialect.stripComments text))
    (h : declaration ∈ scan dialect (dialect.stripComments text) block.interior) :
    ∃ target, (ofRules text (rules path text))[
        rank dialect (dialect.stripComments text) declaration.value.start]? = some target ∧
      target.span = declaration.value := by
  subst hpath
  have hdistinct : (outlines (ofPath path)
      ((ofPath path).stripComments text)).Pairwise fun left right =>
        left.1.start ≠ right.1.start := by
    rw [← declared_outline hdialect, map_map, pairwise_map]
    exact (declared_separate (ofPath path) text).2.imp And.right
  have hfound := getElem?_mergeSort_countP (fun item : Span × Text × Bool => item.1.start) hdistinct
    (mem_flatMap.mpr ⟨block, hblock, mem_map_of_mem h⟩)
  rw [← ofRules_outline hdialect, getElem?_map, Option.map_eq_some_iff] at hfound
  obtain ⟨target, htarget, houtline⟩ := hfound
  exact ⟨target, htarget, congrArg Prod.fst houtline⟩

/-! ## Rules that become rules -/

theorem forall₂_of_map_eq {α β γ : Type} {first : α → γ} {second : β → γ} {items : List α}
    {others : List β} (h : items.map first = others.map second) :
    List.Forall₂ (fun item other => item ∈ items ∧ other ∈ others ∧ first item = second other)
      items others := by
  induction items generalizing others with
  | nil =>
    obtain rfl : others = [] := by simpa using h.symm
    exact .nil
  | cons item items ih =>
    cases others with
    | nil => cases h
    | cons other others =>
      obtain ⟨hhead, htail⟩ := cons.inj h
      refine .cons ⟨mem_cons_self, mem_cons_self, hhead⟩ ((ih htail).imp ?_)
      rintro left right ⟨hleft, hright, heq⟩
      exact ⟨mem_cons_of_mem _ hleft, mem_cons_of_mem _ hright, heq⟩

/-- The declared value that a property is, or is a part of. -/
def Property.declaredText (property : Property) : Text :=
  match property.part with
  | some part => part.composite
  | none => property.value.display

/-- A property of a file and the one in its place after the file was resolved. They have the same
name, container and index, and the declared value is now what is left of the target that stood
there, with its comments blanked. -/
structure Property.Becomes (targets : List Target) (before after : Property) : Prop where
  name : after.name = before.name
  container : after.container = before.container
  index : after.part.map Part.index = before.part.map Part.index
  value : ∃ target ∈ targets, target.span = before.valueSpan ∧
    after.declaredText = css.stripComments target.working

/-- A rule of a file and the one in its place after the file was resolved. -/
structure Rule.Becomes (targets : List Target) (before after : Rule) : Prop where
  container : after.container = before.container
  properties : List.Forall₂ (Property.Becomes targets) before.properties after.properties

/-- Declarations with the same name, container and number of parts make corresponding properties. -/
theorem Declared.properties_becomes {text data : Text} {targets : List Target}
    {before after : Declared} {raw raw' : Text} (hraw : before.value = .text raw)
    (hraw' : after.value = .text raw') (hname : after.name = before.name)
    (hcontainer : after.container = before.container)
    (hparts : Value.partCount? after.name raw' = Value.partCount? before.name raw)
    (hvalue : ∃ target ∈ targets, target.span = before.span ∧
      raw' = css.stripComments target.working) :
    List.Forall₂ (Property.Becomes targets) (before.properties text) (after.properties data) := by
  rw [Value.partCount?, Value.partCount?] at hparts
  rcases before.properties_cases text with ⟨hwhole, hsingle⟩ | ⟨list, hlist, hisList, hbefore⟩
  · rcases after.properties_cases data with ⟨hwhole', -⟩ | ⟨list', hlist', hisList', -⟩
    · rw [hwhole, hwhole']
      refine .cons ⟨hname, hcontainer, rfl, ?_⟩ .nil
      show ∃ target ∈ targets, target.span = before.span ∧ after.value.display = _
      rw [hraw']
      exact hvalue
    · obtain rfl := DeclaredValue.text.inj (hraw'.symm.trans hlist')
      rw [if_pos hisList', hsingle raw hraw] at hparts
      cases hparts
  · obtain rfl := DeclaredValue.text.inj (hraw.symm.trans hlist)
    rw [if_pos hisList] at hparts
    rcases after.properties_cases data with ⟨-, hsingle'⟩ | ⟨list', hlist', hisList', hafter⟩
    · rw [hsingle' raw' hraw'] at hparts
      cases hparts
    · obtain rfl := DeclaredValue.text.inj (hraw'.symm.trans hlist')
      rw [if_pos hisList', Option.some.injEq] at hparts
      rw [hbefore, hafter]
      refine forall₂_iff_get.mpr ⟨by simp [hparts], fun index hindex hindex' => ?_⟩
      simp only [get_eq_getElem, getElem_map, getElem_zipIdx]
      exact ⟨hname, hcontainer, rfl, hvalue⟩

namespace Resolution

variable {σ : Type} {path text data : Text} {table : Table} {plans : List Plan}

/-- The resolved stylesheet has the layout of the first one, and its targets the renamed values. -/
theorem layout_eq (hpath : ofPath path = .css)
    (h : Renames path text table plans data) :
    layout .css (css.stripComments data) =
        layout .css (css.stripComments text) ∧
      ((ofRules data (rules path data)).map initial) =
        plans.map fun plan => (plan.renamed table).working := by
  have hsheet := ne_script_of_css hpath
  have hread := reading_eq (layout_stable hpath) hsheet h
  constructor
  · cases plans with
    | nil =>
      -- A stylesheet without targets stays as it is.
      rw [h.data_eq]
      rfl
    | cons plan later =>
      cases hfound : ofRules data (rules path data) with
      | nil =>
        rw [hfound] at hread
        cases hread
      | cons target others =>
        rw [hfound] at hread
        exact congrArg Prod.fst (cons.inj hread).1
  · have hsecond := congrArg (map Prod.snd) hread
    rwa [map_map, map_map] at hsecond

section Becomes

variable (hpath : ofPath path = .css)
  (hplans : Planned path text plans)
  (hvalues : (ofRules data (rules path data)).map initial =
    plans.map fun plan => (plan.renamed table).working)
include hpath hplans hvalues

/-- A declaration of the resolved stylesheet declares what was left of the target with its rank. -/
theorem value_of_rank {block block' : Block} {declaration declaration' : Declaration}
    (hblock : block ∈ Block.scan .css (css.stripComments text))
    (h : declaration ∈ scan .css (css.stripComments text) block.interior)
    (hblock' : block' ∈ Block.scan .css (css.stripComments data))
    (h' : declaration' ∈ scan .css (css.stripComments data) block'.interior)
    (hrank : rank .css (css.stripComments data) declaration'.value.start =
      rank .css (css.stripComments text) declaration.value.start) :
    ∃ target ∈ plans.map (fun plan => plan.renamed table), target.span = declaration.value ∧
      declaration'.value.slice (css.stripComments data) =
        css.stripComments target.working := by
  obtain ⟨target, htarget, hspan⟩ := getElem?_rank hpath (by decide) hblock h
  obtain ⟨found, hfound, hplace⟩ := getElem?_rank hpath (by decide) hblock' h'
  rw [← hplans.targets, getElem?_map, Option.map_eq_some_iff] at htarget
  obtain ⟨plan, hplan, rfl⟩ := htarget
  have hsheet := ne_script_of_css hpath
  rw [hrank] at hfound
  have hinitial : found.initial = (plan.renamed table).working := by
    have hsame := congrArg (·[rank .css (css.stripComments text) declaration.value.start]?) hvalues
    simp only [getElem?_map, hplan, hfound] at hsame
    exact Option.some.inj hsame
  have hmem := mem_of_getElem? hfound
  rw [(ofRules_source hmem).2 (isNumber_eq_false hsheet hmem), hplace] at hinitial
  have hreads := reads_value hblock' h' (by decide) fun hscss => by cases hscss
  refine ⟨plan.renamed table, mem_map_of_mem (mem_of_getElem? hplan), hspan, ?_⟩
  rw [hreads.slice_stripComments, hinitial]

/-- A block of the resolved stylesheet with the selector and the slots of a block makes the rule
that the other becomes. -/
theorem ruleOf_becomes {block block' : Block}
    (hblock : block ∈ Block.scan .css (css.stripComments text))
    (hblock' : block' ∈ Block.scan .css (css.stripComments data))
    (hselector : Stylesheet.selector .css (css.stripComments data) block'.opening =
      Stylesheet.selector .css (css.stripComments text) block.opening)
    (hslots : (scan .css (css.stripComments text) block.interior).map
        (slot .css (css.stripComments text)) =
      (scan .css (css.stripComments data) block'.interior).map
        (slot .css (css.stripComments data))) :
    Option.Rel (Rule.Becomes (plans.map fun plan => plan.renamed table))
      (ruleOf? .css text (css.stripComments text)
        (css.visible (css.stripComments text)) block)
      (ruleOf? .css data (css.stripComments data)
        (css.visible (css.stripComments data)) block') := by
  have hproperties : List.Forall₂ (fun before after => List.Forall₂
        (Property.Becomes (plans.map fun plan => plan.renamed table))
        (Declared.properties text before) (Declared.properties data after))
      (declaredIn .css (css.stripComments text) (css.visible (css.stripComments text)) block)
      (declaredIn .css (css.stripComments data) (css.visible (css.stripComments data)) block') := by
    rw [declaredIn_stylesheet (by decide), declaredIn_stylesheet (by decide),
      forall₂_map_left_iff, forall₂_map_right_iff]
    refine (forall₂_of_map_eq hslots).imp ?_
    rintro declaration declaration' ⟨hdeclaration, hdeclaration', hslot⟩
    obtain ⟨hname, hparts, hrank⟩ := Source.Slot.mk.inj hslot
    exact Declared.properties_becomes rfl rfl hname.symm hselector hparts.symm
      (value_of_rank hpath hplans hvalues hblock hdeclaration hblock' hdeclaration' hrank.symm)
  rw [ruleOf?, ruleOf?]
  generalize declaredIn .css (css.stripComments text) _ block = before at hproperties ⊢
  generalize declaredIn .css (css.stripComments data) _ block' = after at hproperties ⊢
  have hflat := rel_flatten (forall₂_map_left_iff.mpr (forall₂_map_right_iff.mpr hproperties))
  cases hproperties with
  | nil => exact .none
  | cons hfirst hothers => exact .some ⟨hselector, hflat⟩

/-- The rules of a stylesheet become those of a resolved stylesheet that has its layout. -/
theorem rules_becomes
    (hlayout : layout .css (css.stripComments data) =
      layout .css (css.stripComments text)) :
    List.Forall₂ (Rule.Becomes (plans.map fun plan => plan.renamed table))
      (rules path text) (rules path data) := by
  rw [rules_eq path text hpath, rules_eq path data hpath]
  refine rel_filterMap ?_ (forall₂_of_map_eq hlayout.symm)
  rintro block block' ⟨hblock, hblock', hentry⟩
  obtain ⟨hselector, hslots⟩ := Prod.mk.inj hentry
  exact ruleOf_becomes hpath hplans hvalues hblock hblock' hselector.symm hslots

end Becomes

/-- Resolving a plain CSS file by a table of custom properties without choices succeeds and keeps
its rules: the new file has as many of them, with the same selectors and the same properties in the
same order, and what is declared is what the targets came to, with comments blanked. -/
theorem resolveFile_keeps_rules (interaction : Interaction σ) (context : Context) (text : Text)
    (table : Table) (session : Session σ) (hpath : Dialect.ofPath context.path = .css)
    (htable : table.IsNaming) (hasks : ∀ entry ∈ table, entry.mapping.asks = false) :
    ∃ resolution targets,
      (resolveFile interaction context table text).run.run session = (.ok resolution, session) ∧
      (resolveTargets interaction context text table
        (Target.ofRules text (Source.rules context.path text))).run.run session =
          (.ok (targets, resolution.changes), session) ∧
      List.Forall₂ (Rule.Becomes targets) (Source.rules context.path text)
        (Source.rules context.path resolution.data) := by
  obtain ⟨plans, hplans⟩ := exists_planned ..
  obtain ⟨changes, hresolve⟩ := @resolveTargets_decided table σ interaction context text hasks
    htable.isFlush (ofRules text (rules context.path text))
  rw [hplans.map_rewrite htable] at hresolve
  obtain ⟨hlayout, hvalues⟩ := layout_eq hpath ⟨hplans, htable, rfl⟩
  refine ⟨⟨apply (plans.map fun plan => plan.renamed table) text, changes⟩,
    plans.map fun plan => plan.renamed table, resolveFile_of_tryResolve ?_, ?_,
    rules_becomes hpath hplans hvalues hlayout⟩
  · rw [tryResolve, hresolve]
    rfl
  · rw [hresolve]
    rfl

/-- A table in which one entry goes on with what another one puts in, in one property only. -/
def chainedNames : Table :=
  [⟨utf8 "--a", .plain (utf8 "--b-c")⟩,
    ⟨utf8 "--b-c", .conditional [⟨[utf8 "color"], .one (utf8 "--d")⟩]⟩]

/-- A stylesheet with a list that has a comment in it, and a rule behind it. -/
def chainedSheet : Text :=
  utf8 "a\x7bmargin:var(--a)/*--a*/ 0;color:--a\x7db\x7btop:var(--b-c)\x7d"

/-- Resolving `chainedSheet` by `chainedNames` keeps its two rules. -/
theorem resolveFile_keeps_rules_chained :
    Dialect.ofPath (utf8 "x.css") = .css ∧ chainedNames.IsNaming ∧
    (∀ entry ∈ chainedNames, entry.mapping.asks = false) ∧
    (Source.rules (utf8 "x.css") chainedSheet).map (fun rule => rule.properties.length) = [3, 1] ∧
    ∃ resolution targets,
      (resolveFile Interaction.silent ⟨utf8 "x.css", false, none⟩ chainedNames
        chainedSheet).run.run Session.silent = (.ok resolution, Session.silent) ∧
      (resolveTargets Interaction.silent ⟨utf8 "x.css", false, none⟩ chainedSheet chainedNames
        (Target.ofRules chainedSheet (Source.rules (utf8 "x.css") chainedSheet))).run.run
          Session.silent = (.ok (targets, resolution.changes), Session.silent) ∧
      List.Forall₂ (Rule.Becomes targets) (Source.rules (utf8 "x.css") chainedSheet)
        (Source.rules (utf8 "x.css") resolution.data) := by
  have hpath : Dialect.ofPath (utf8 "x.css") = .css := rfl
  have hnaming : chainedNames.IsNaming := by decide
  have hasks : ∀ entry ∈ chainedNames, entry.mapping.asks = false := by decide
  have hblocks : Block.scan .css (Dialect.css.stripComments chainedSheet) = [⟨1, 36⟩, ⟨38, 53⟩] :=
    Block.scan_of_closed _ rfl (by decide)
  refine ⟨hpath, hnaming, hasks, ?_, resolveFile_keeps_rules Interaction.silent
    ⟨utf8 "x.css", false, none⟩ chainedSheet chainedNames Session.silent hpath hnaming hasks⟩
  rw [Source.rules_eq (utf8 "x.css") chainedSheet hpath, hblocks]
  rfl

end Resolution

end Restyle
