import Restyle.Migration.Target
import Restyle.Proofs.Rule.Declared
import Restyle.Proofs.Text.Fill

/-!
# Targets of a file

Every declaration of a file makes one target, however many parts its value has
(`Target.ofRules_eq`). The targets follow one another in the file (`Target.ofRules_ordered`), so
that no edit is left out and the edited file is the old one with its changed values filled in:
`Target.apply_eq_fill`.
-/

namespace Restyle

open Declared List Source

/-- The target of a declaration. -/
def Declared.target (text : Text) (declared : Declared) : Target :=
  let initial := match declared.value with
    | .number value => utf8 value.positional
    | .text _ => declared.span.slice text
  { name := declared.name, span := declared.span, initial, working := initial
    isNumber := declared.value.isNumber
    isComposite := match declared.value with
      | .number _ => false
      | .text raw => Value.isList declared.name raw }

/-- Every property that a declaration makes has the target of the declaration, and there is one. -/
theorem Declared.properties_target (text : Text) (declared : Declared) :
    ∃ count, (declared.properties text).map (Target.ofProperty text) =
      replicate (count + 1) (declared.target text) := by
  rcases declared.properties_cases text with ⟨hwhole, hvalue⟩ | ⟨raw, hraw, hlist, hparts⟩
  · refine ⟨0, ?_⟩
    rw [hwhole]
    unfold target
    cases hcase : declared.value with
    | number value => simp [whole, Target.ofProperty, hcase]
    | text raw =>
      simp [whole, Target.ofProperty, hcase, DeclaredValue.isNumber, hvalue raw hcase]
  · have hmany := Value.one_lt_of_isList hlist
    refine ⟨(Value.parts raw).length - 1, ?_⟩
    rw [Nat.sub_add_cancel (Nat.le_of_lt hmany), hparts, map_map]
    refine eq_replicate_iff.mpr ⟨by simp, fun target hmem => ?_⟩
    obtain ⟨part, -, rfl⟩ := mem_map.mp hmem
    simp [partOf, target, Target.ofProperty, hraw, DeclaredValue.isNumber, hlist]

namespace Target

theorem distinct_sublist (seen : List Nat) (targets : List Target) :
    (distinct seen targets).Sublist targets := by
  fun_induction distinct seen targets with
  | case1 => exact .slnil
  | case2 seen target rest hseen ih => exact ih.cons target
  | case3 seen target rest hseen ih => exact ih.cons_cons target

theorem distinct_replicate_append {seen : List Nat} {target : Target}
    (h : target.span.start ∈ seen) (count : Nat) (rest : List Target) :
    distinct seen (replicate count target ++ rest) = distinct seen rest := by
  induction count with
  | zero => rfl
  | succ count ih =>
    rw [replicate_succ, cons_append, distinct, if_pos (by simpa using h), ih]

/-- Of repeated targets one is kept of each, if they begin at different places. -/
theorem distinct_flatMap {α : Type} {items : List α} {repeated : α → List Target}
    {target : α → Target} {seen : List Nat}
    (hrepeated : ∀ item ∈ items, ∃ count,
      repeated item = replicate (count + 1) (target item))
    (hseen : ∀ item ∈ items, (target item).span.start ∉ seen)
    (hpairwise : items.Pairwise fun left right =>
      (target left).span.start ≠ (target right).span.start) :
    distinct seen (items.flatMap repeated) = items.map target := by
  induction items generalizing seen with
  | nil => rfl
  | cons item items ih =>
    obtain ⟨hhead, htail⟩ := pairwise_cons.mp hpairwise
    obtain ⟨count, hcount⟩ := hrepeated item mem_cons_self
    rw [flatMap_cons, hcount, replicate_succ, cons_append, distinct,
      if_neg (by simpa using hseen item mem_cons_self),
      distinct_replicate_append mem_cons_self]
    refine congrArg (target item :: ·) (ih ?_ ?_ htail)
    · exact fun other hmem => hrepeated other (mem_cons_of_mem _ hmem)
    · intro other hmem
      rw [mem_cons, not_or]
      exact ⟨(hhead other hmem).symm, hseen other (mem_cons_of_mem _ hmem)⟩

/-- The targets of a file are those of its declarations, in the order of the file. -/
theorem ofRules_eq (path text : Text) :
    ofRules text (rules path text) =
      ((declared (Dialect.ofPath path) text).map (target text)).mergeSort
        fun left right => left.span.start ≤ right.span.start := by
  rw [ofRules, rules_properties, map_flatMap, distinct_flatMap]
  · exact fun declared _ => declared.properties_target text
  · exact fun declared _ => not_mem_nil
  · exact (declared_separate ..).2.imp And.right

/-- The blocks and the targets of a file whose blocks close in the order in which they open. -/
theorem ofRules_of_closed {path text : Text} {dialect : Dialect} {blocks : List Block}
    {targets : List Target} (hpath : Dialect.ofPath path = dialect)
    (hblocks : Block.closed 0 [] (dialect.visible (dialect.stripComments text)) = blocks)
    (hsorted : blocks.Pairwise fun left right => left.opening ≤ right.opening)
    (htargets : (blocks.flatMap (declaredIn dialect (dialect.stripComments text)
      (dialect.visible (dialect.stripComments text)))).map (target text) = targets)
    (hordered : targets.Pairwise fun left right => left.span.start ≤ right.span.start) :
    Block.scan dialect (dialect.stripComments text) = blocks ∧
      ofRules text (rules path text) = targets := by
  have hscan := Block.scan_of_closed blocks hblocks hsorted
  refine ⟨hscan, ?_⟩
  rw [ofRules_eq, hpath, declared, hscan, htargets]
  exact mergeSort_of_pairwise (hordered.imp decide_eq_true)

theorem ofRules_ordered (path text : Text) :
    Span.Ordered text.length 0 ((ofRules text (rules path text)).map Target.span) := by
  obtain ⟨hbounds, hseparate⟩ := declared_separate (Dialect.ofPath path) text
  have hperm := mergeSort_perm
    ((declared (Dialect.ofPath path) text).map (target text))
    fun left right => left.span.start ≤ right.span.start
  have hspan : ∀ target ∈ ofRules text (rules path text),
      target.span.start ≤ target.span.stop ∧ target.span.stop ≤ text.length := by
    intro target hmem
    rw [ofRules_eq] at hmem
    obtain ⟨declared, hdeclared, rfl⟩ := mem_map.mp (hperm.mem_iff.mp hmem)
    exact hbounds declared hdeclared
  have hsorted : (ofRules text (rules path text)).Pairwise fun left right =>
      left.span.start ≤ right.span.start := by
    exact sorted_of_mergeSort _ _
  have hapart : (ofRules text (rules path text)).Pairwise fun left right =>
      left.span.Apart right.span ∧ left.span.start ≠ right.span.start := by
    rw [ofRules_eq]
    refine (hperm.pairwise_iff fun h => ⟨h.1.symm, h.2.symm⟩).mpr ?_
    exact pairwise_map.mpr hseparate
  refine Span.ordered_of_pairwise (Nat.zero_le _) ?_ (pairwise_map.mpr ?_)
  · intro span hmem
    obtain ⟨target, htarget, rfl⟩ := mem_map.mp hmem
    exact ⟨Nat.zero_le _, hspan target htarget⟩
  · -- Of two separate spans the one that begins first ends first.
    refine (hsorted.and hapart).imp_of_mem ?_
    rintro left right hleft hright ⟨hle, hsides | hsides, hne⟩
    · exact hsides
    · have hleftOrder := (hspan left hleft).1
      have hrightOrder := (hspan right hright).1
      omega

end Target

/-! ## Edits that follow one another -/

namespace Edit

/-- Edits that follow one another are all made: where the edits made so far begin is never before
the end of the next one, and the result is the text with the replacements filled in. -/
theorem foldr_applyOne {text : Text} {offset : Nat} {edits : List Edit}
    (hordered : Span.Ordered text.length offset (edits.map Edit.span)) :
    edits.foldr applyOne (text, none) =
      (text.fill 0 (edits.map fun edit => (edit.span, edit.replacement)),
        edits.head?.map fun edit => edit.span.start) := by
  induction edits generalizing offset with
  | nil => rfl
  | cons edit later ih =>
    obtain ⟨hstart, horder, hlater⟩ := hordered
    have hmap : Span.Ordered text.length edit.span.stop
        ((later.map fun edit => (edit.span, edit.replacement)).map Prod.fst) := by
      rwa [map_map]
    have hkept := Text.fill_skip (Nat.zero_le _) hmap text
    have hfloor : (later.head?.map fun edit => edit.span.start).any
        (· < edit.span.stop) = false := by
      cases later with
      | nil => rfl
      | cons next later => simpa using hlater.1
    have hstop := hlater.offset_le
    have hlength : ((Span.mk 0 edit.span.stop).slice text).length = edit.span.stop := by
      simp [Span.slice, hstop]
    rw [foldr_cons, ih hlater, applyOne, if_neg (by simp [hfloor]), hkept,
      take_append_of_le_length (by rw [hlength]; exact horder),
      drop_append_of_le_length (Nat.le_of_eq hlength.symm)]
    simp [Text.fill, Span.slice, take_take, Nat.min_eq_left horder]

/-- No edit reaches into those made before it. -/
theorem applyOne_floor {text : Text} {offset : Nat} {before later : List Edit} {edit : Edit}
    (hordered : Span.Ordered text.length offset ((before ++ edit :: later).map Edit.span)) :
    (later.foldr applyOne (text, none)).2.any (· < edit.span.stop) = false := by
  rw [map_append] at hordered
  obtain ⟨start, -, -, -, hlater⟩ := hordered.of_append
  rw [foldr_applyOne hlater]
  cases later with
  | nil => rfl
  | cons next later => simpa using hlater.1

end Edit

namespace Target

/-- What a target's span holds in the edited text: its value, but a number that has not changed
stays as it was written. -/
def held (text : Text) (target : Target) : Text :=
  if target.isNumber && target.working == target.initial then target.span.slice text
  else target.render

variable {text : Text} {target : Target} {targets : List Target}

/-- A target whose value has not changed holds what stood there. -/
theorem held_eq_slice (hkept : target.working = target.initial)
    (hsource : target.isNumber = false → target.initial = target.span.slice text) :
    target.held text = target.span.slice text := by
  cases hnumber : target.isNumber with
  | true => simp [held, hnumber, hkept]
  | false => simp [held, render, hnumber, hkept, hsource hnumber]

theorem held_eq_render (hchanged : target.working ≠ target.initial) (text : Text) :
    target.held text = target.render := by
  simp [held, hchanged]

theorem edits_ordered (hordered : Span.Ordered text.length 0 (targets.map Target.span)) :
    Span.Ordered text.length 0 ((edits targets).map Edit.span) := by
  rw [edits, map_map]
  exact (Text.fill_filter (fun target : Target => (target.span, target.span.slice text)) _ text
    hordered fun _ _ _ => rfl).2

/-- The edited text is the old one with every target's span holding its value. -/
theorem apply_eq_fill (hordered : Span.Ordered text.length 0 (targets.map Target.span))
    (hsource : ∀ target ∈ targets, target.isNumber = false →
      target.initial = target.span.slice text) :
    apply targets text =
      text.fill 0 (targets.map fun target => (target.span, target.held text)) := by
  have hrender : (edits targets).map (fun edit => (edit.span, edit.replacement)) =
      (targets.filter fun target => target.working != target.initial).map
        fun target => (target.span, target.held text) := by
    rw [edits, map_map]
    refine map_congr_left fun target hmem => ?_
    obtain ⟨-, hchanged⟩ := mem_filter.mp hmem
    rw [Function.comp_apply, held_eq_render (by simpa using hchanged)]
  rw [apply, Edit.applyAll, Edit.foldr_applyOne (edits_ordered hordered), hrender]
  refine (Text.fill_filter (fun target : Target => (target.span, target.held text)) _ text hordered
    ?_).1
  intro target hmem hkept
  exact held_eq_slice (by simpa using hkept) (hsource target hmem)

/-- The initial value of a target is its source text, if it is no number. -/
theorem ofRules_source {path : Text} (hmem : target ∈ ofRules text (rules path text)) :
    target.working = target.initial ∧
      (target.isNumber = false → target.initial = target.span.slice text) := by
  rw [ofRules_eq, mem_mergeSort] at hmem
  obtain ⟨declared, -, rfl⟩ := mem_map.mp hmem
  refine ⟨rfl, fun hnumber => ?_⟩
  unfold target at hnumber ⊢
  cases hvalue : declared.value with
  | number value => simp [hvalue, DeclaredValue.isNumber] at hnumber
  | text raw => rfl

theorem apply_ofRules (path text : Text) :
    apply (ofRules text (rules path text)) text = text := by
  have hedits : edits (ofRules text (rules path text)) = [] := by
    refine map_eq_nil_iff.mpr (filter_eq_nil_iff.mpr fun target hmem => ?_)
    simp [(ofRules_source hmem).1]
  rw [apply, hedits]
  rfl

/-- A target without what a resolution makes of it. -/
def frame (target : Target) : Target :=
  { target with working := target.initial }

/-- Targets with the frames of a file's targets stand where these do and have their source texts. -/
theorem ordered_of_frames {path : Text}
    (hframes : targets.map frame = (ofRules text (rules path text)).map frame) :
    Span.Ordered text.length 0 (targets.map Target.span) ∧
      ∀ target ∈ targets, target.isNumber = false → target.initial = target.span.slice text := by
  constructor
  · have hspans := congrArg (map Target.span) hframes
    rw [map_map, map_map] at hspans
    exact hspans ▸ ofRules_ordered ..
  · intro target hmem hnumber
    have hframe : target.frame ∈ (ofRules text (rules path text)).map frame :=
      hframes ▸ mem_map_of_mem hmem
    obtain ⟨original, horiginal, heq⟩ := mem_map.mp hframe
    obtain ⟨hname, hspan, hinitial, -, hisNumber, hisComposite⟩ := mk.inj heq
    rw [← hinitial, ← hspan]
    exact (ofRules_source horiginal).2 (hisNumber.trans hnumber)

end Target

end Restyle
