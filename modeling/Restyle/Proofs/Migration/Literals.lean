import Restyle.Proofs.Migration.License
import Restyle.Proofs.Rule.Places
import Restyle.Proofs.Value.Literal

/-!
# Literals of a program that is migrated

The values of a program stand between quotes, and a number is put between quotes if it turns into
something else. In the data of a resolution the quote behind such a value closes the literal that
the quote before it opens if and only if the new value keeps a literal open:
`Resolution.resolveFile_literals`. Nothing is escaped on the way, so a replacement with a quote in
it ends the literal early (`resolveFile_breaks_literal`). A value keeps its literal open if the
replacements have no quote of its kind, no backslash and no line feed.
-/

namespace Restyle

open Byte Declaration Dialect List Literal Source Span StyleObject Target

open Declaration (Placed placed)

/-! ## Declared values with their quotes -/

namespace Text

/-- A text may be filled in two parts, if no span reaches over the place between them. -/
theorem fill_append {offset middle : Nat} {earlier later : List (Span × Text)}
    (hearlier : Span.Ordered middle offset (earlier.map Prod.fst)) {limit : Nat}
    (hlater : Span.Ordered limit middle (later.map Prod.fst)) (text : Text) :
    fill text offset (earlier ++ later) =
      fill (text.take middle) offset earlier ++ fill text middle later := by
  induction earlier generalizing offset with
  | nil =>
    have hskip := fill_skip hearlier hlater text
    rw [nil_append, hskip, fill, slice, drop_take]
  | cons item earlier ih =>
    obtain ⟨hstart, horder, hrest⟩ := hearlier
    have hle := hrest.offset_le
    have hslice : (Span.mk offset item.1.start).slice (text.take middle) =
        (Span.mk offset item.1.start).slice text := by
      rw [slice, slice, drop_take, take_take, Nat.min_eq_left]
      show item.1.start - offset ≤ middle - offset
      omega
    rw [cons_append, fill, fill, ih hrest, hslice]
    simp only [append_assoc]

end Text

namespace Target

/-- The declared values of a program, each with its quotes and with its target, in the order of the
file. -/
def sites (text : Text) : List (Span × Target) :=
  ((placed .script (script.stripComments text)).filterMap fun item =>
    (declare? (script.stripComments text) item).map fun declared =>
      (item.value, declared.target text)).mergeSort
    fun left right => left.2.span.start ≤ right.2.span.start

variable {text : Text} {site : Span × Target}

theorem map_snd_sites {path : Text} (hpath : ofPath path = .script) (text : Text) :
    (sites text).map Prod.snd = ofRules text (rules path text) := by
  have htargets : (declared .script text).map (Declared.target text) =
      ((placed .script (script.stripComments text)).filterMap fun item =>
        (declare? (script.stripComments text) item).map fun declared =>
          (item.value, declared.target text)).map Prod.snd := by
    rw [declared_eq, map_filterMap, map_filterMap]
    exact filterMap_congr fun item _ => by rw [Option.map_map]; rfl
  rw [ofRules_eq, hpath, htargets]
  exact map_mergeSort fun _ _ _ _ => rfl

theorem exists_placed (h : site ∈ sites text) :
    ∃ item ∈ placed .script (script.stripComments text), ∃ declared,
      declare? (script.stripComments text) item = some declared ∧
      site = (item.value, declared.target text) := by
  rw [sites, mem_mergeSort] at h
  obtain ⟨item, hitem, hsite⟩ := mem_filterMap.mp h
  obtain ⟨declared, hdeclared, rfl⟩ := Option.map_eq_some_iff.mp hsite
  exact ⟨item, hitem, declared, hdeclared, rfl⟩

theorem within_of_mem_sites (h : site ∈ sites text) :
    site.2.span.Within site.1 ∧ site.1.stop ≤ text.length := by
  obtain ⟨item, hitem, declared, hdeclared, rfl⟩ := exists_placed h
  obtain ⟨hlt, hstop⟩ := value_le_of_placed hitem
  refine ⟨declare_within hstop hlt hdeclared, ?_⟩
  rwa [stripComments, length_stripFrom] at hstop

theorem sites_pairwise (text : Text) :
    (sites text).Pairwise fun left right => left.1.stop ≤ right.1.start := by
  have hapart : (sites text).Pairwise fun left right => left.1.Apart right.1 := by
    refine ((mergeSort_perm _ _).pairwise_iff fun h => h.symm).mpr ?_
    refine pairwise_filterMap.mpr ?_
    refine (placed_apart .script (script.stripComments text)).imp ?_
    intro left right hapart site hsite other hother
    obtain ⟨declared, -, rfl⟩ := Option.map_eq_some_iff.mp hsite
    obtain ⟨declared', -, rfl⟩ := Option.map_eq_some_iff.mp hother
    exact hapart
  have hsorted : (sites text).Pairwise fun left right => left.2.span.start ≤ right.2.span.start :=
    sorted_of_mergeSort _ _
  -- Of two values apart the one whose text begins first ends first.
  refine (hsorted.and hapart).imp_of_mem ?_
  rintro left right hleft hright ⟨hle, hsides | hsides⟩
  · exact hsides
  · have hwithin := (within_of_mem_sites hleft).1
    have hwithin' := (within_of_mem_sites hright).1
    have := hwithin.start_le
    have := hwithin'.start_lt
    omega

/-- Around one declared value the targets before it fill what stands before, and those after it what
stands behind. -/
theorem fill_around {earlier later : List (Span × Target)} {value : Span} {target : Target}
    (hsites : sites text = earlier ++ (value, target) :: later) (new : Target → Text) :
    text.fill 0 ((sites text).map fun site => (site.2.span, new site.2)) =
      Text.fill (text.take value.start) 0 (earlier.map fun site => (site.2.span, new site.2)) ++
      ((Span.mk value.start target.span.start).slice text ++ new target ++
        (Span.mk target.span.stop value.stop).slice text ++
        text.fill value.stop (later.map fun site => (site.2.span, new site.2))) := by
  have hpairwise := sites_pairwise text
  rw [hsites, pairwise_append, pairwise_cons] at hpairwise
  obtain ⟨hearlier, ⟨hhead, hlater⟩, hacross⟩ := hpairwise
  have hmem : (value, target) ∈ sites text := by
    rw [hsites]
    exact mem_append_right _ mem_cons_self
  obtain ⟨hwithin, hbound⟩ := within_of_mem_sites hmem
  have hspans : ∀ sites' : List (Span × Target), (∀ site ∈ sites', site ∈ sites text) →
      sites'.Pairwise (fun left right => left.1.stop ≤ right.1.start) → ∀ start limit,
      start ≤ limit → (∀ site ∈ sites', start ≤ site.1.start ∧ site.1.stop ≤ limit) →
      Span.Ordered limit start
        ((sites'.map fun site => (site.2.span, new site.2)).map Prod.fst) := by
    intro sites' hsub hpairs start limit hle hbounds
    rw [map_map]
    refine ordered_of_pairwise hle ?_ (pairwise_map.mpr ?_)
    · intro span hspan
      obtain ⟨site, hsite, rfl⟩ := mem_map.mp hspan
      have hin := (within_of_mem_sites (hsub site hsite)).1
      obtain ⟨hstart, hstop⟩ := hbounds site hsite
      exact ⟨Nat.le_trans hstart hin.start_le, hin.order, Nat.le_trans hin.stop_le hstop⟩
    · refine hpairs.imp_of_mem ?_
      intro left right hleft hright hle
      exact Nat.le_trans (within_of_mem_sites (hsub left hleft)).1.stop_le
        (Nat.le_trans hle (within_of_mem_sites (hsub right hright)).1.start_le)
  have hbefore := hspans earlier
    (fun site hsite => by rw [hsites]; exact mem_append_left _ hsite) hearlier 0 value.start
    (Nat.zero_le _) fun site hsite => ⟨Nat.zero_le _, hacross site hsite _ mem_cons_self⟩
  have hbehind := hspans later (fun site hsite => by
      rw [hsites]
      exact mem_append_right _ (mem_cons_of_mem _ hsite)) hlater value.stop text.length
    hbound fun site hsite => ⟨hhead site hsite, (within_of_mem_sites (by
      rw [hsites]
      exact mem_append_right _ (mem_cons_of_mem _ hsite))).2⟩
  have hrest : Span.Ordered text.length value.start
      ((((value, target) :: later).map fun site => (site.2.span, new site.2)).map Prod.fst) :=
    ⟨hwithin.start_le, hwithin.order, hbehind.mono hwithin.stop_le⟩
  rw [hsites, map_append, Text.fill_append hbefore hrest, map_cons, Text.fill,
    Text.fill_skip hwithin.stop_le hbehind, ← append_assoc _ _ (text.fill _ _)]

/-- Around one declared value the new targets before it fill what stands before, and those after it
what stands behind. -/
theorem fill_held {change : Target → Target} (hspan : ∀ target, (change target).span = target.span)
    {targets : List Target} (htargets : targets = (sites text).map fun site => change site.2)
    {place : Nat} (hplace : (sites text)[place]? = some site) :
    text.fill 0 (targets.map fun target => (target.span, target.held text)) =
      Text.fill (text.take site.1.start) 0
        ((targets.take place).map fun target => (target.span, target.held text)) ++
      ((Span.mk site.1.start site.2.span.start).slice text ++ (change site.2).held text ++
        (Span.mk site.2.span.stop site.1.stop).slice text ++
        text.fill site.1.stop
          ((targets.drop (place + 1)).map fun target => (target.span, target.held text))) := by
  obtain ⟨hlt, hsite⟩ := List.getElem?_eq_some_iff.mp hplace
  have hsplit : sites text = (sites text).take place ++ site :: (sites text).drop (place + 1) := by
    rw [← hsite, ← drop_eq_getElem_cons hlt, take_append_drop]
  have hitems : ∀ items : List (Span × Target),
      ((items.map fun site => change site.2).map fun target => (target.span, target.held text)) =
        items.map fun site => (site.2.span, (change site.2).held text) := by
    intro items
    rw [map_map]
    exact map_congr_left fun site _ => by rw [Function.comp_apply, hspan]
  rw [htargets, ← map_take, ← map_drop, hitems, hitems, hitems]
  exact fill_around hsplit fun target => (change target).held text

/-- A declared value stands in quotes of a kind: it is one literal of the program, or a number that
turns into something else and is put in quotes. -/
inductive Quoted (text : Text) (value : Span) (target : Target) : UInt8 → Prop where
  | kept {quote : UInt8} : StyleObject.isQuote quote → text[value.start]? = some quote →
      read text value.start = (value.stop, true) → Quoted text value target quote
  | inserted : target.isNumber → target.working ≠ target.initial →
      Value.isNumeral target.working = false → Quoted text value target apostrophe

end Target

namespace StyleObject

/-- A value with the same quote at both ends is quoted. -/
theorem isQuoted_of_quotes {stripped : Text} {value : Span} {quote : UInt8}
    (hquote : isQuote quote) (hlength : value.start + 2 ≤ value.stop)
    (hstart : stripped[value.start]? = some quote)
    (hstop : stripped[value.stop - 1]? = some quote) :
    isQuoted (value.slice stripped) := by
  have hbound := (List.getElem?_eq_some_iff.mp hstop).1
  have hraw := @Span.length_slice value stripped (by omega)
  have hget : ∀ index < value.stop - value.start,
      (value.slice stripped)[index]? = stripped[value.start + index]? := by
    intro index hindex
    rw [slice, getElem?_take, if_pos hindex, getElem?_drop]
  have hhead : (value.slice stripped).head? = some quote := by
    rw [head?_eq_getElem?, hget 0 (by omega), Nat.add_zero, hstart]
  have hlast : (value.slice stripped).getLast? = some quote := by
    rw [getLast?_eq_getElem?, hraw, hget _ (by omega),
      show value.start + (value.stop - value.start - 1) = value.stop - 1 by omega, hstop]
  rw [isQuoted, hhead, hlast, hraw]
  simp only [Option.any_some, hquote, Bool.and_true, beq_self_eq_true, decide_eq_true_eq]
  omega

end StyleObject

namespace Target

variable {text : Text} {value : Span} {target : Target} {quote : UInt8}

/-- At its ends a declared value is in the program what it is without comments. -/
theorem getElem?_ends {item : Placed}
    (hitem : item ∈ placed .script (script.stripComments text)) {index : Nat}
    (hindex : index = item.value.start ∨ index + 1 = item.value.stop) :
    (script.stripComments text)[index]? = text[index]? := by
  obtain ⟨hblock, hdeclaration⟩ := mem_placed.mp hitem
  obtain ⟨byte, hmark, -⟩ := marks_of_value (mem_of_getElem? hblock) hdeclaration hindex
  obtain ⟨htext, hstripped⟩ := getElem?_of_unmarked hmark
  rw [htext, hstripped]

/-- The target of a declared value that is one literal is what stands between the quotes, and that
keeps the literal open. -/
theorem initial_of_literal (hsite : (value, target) ∈ sites text)
    (hquote : StyleObject.isQuote quote) (hstart : text[value.start]? = some quote)
    (hread : read text value.start = (value.stop, true)) :
    target.isNumber = false ∧ target.span = ⟨value.start + 1, value.stop - 1⟩ ∧
      value.start + 2 ≤ value.stop ∧ text[value.stop - 1]? = some quote ∧
      keepsOpen quote target.initial := by
  obtain ⟨item, hitem, declared, hdeclared, heq⟩ := exists_placed hsite
  obtain ⟨rfl, rfl⟩ := Prod.mk.inj heq
  obtain ⟨hlt, hbound⟩ := value_le_of_placed hitem
  obtain ⟨inside, behind, htext, hfront, hstop, hopen⟩ := exists_of_read hstart hread
  have hclosing : text[item.value.stop - 1]? = some quote := by
    rw [htext, getElem?_append_right (by omega), hfront,
      show item.value.stop - 1 - item.value.start = inside.length + 1 by omega, getElem?_cons_succ,
      getElem?_append_right (Nat.le_refl _), Nat.sub_self, getElem?_cons_zero]
  have hquoted : isQuoted (item.value.slice (script.stripComments text)) := by
    refine isQuoted_of_quotes hquote (by omega) ?_ ?_
    · rw [getElem?_ends hitem (.inl rfl), hstart]
    · rw [getElem?_ends hitem (.inr (by omega)), hclosing]
  obtain ⟨hspan, -⟩ := declare_span hbound hdeclared
  rw [if_pos rfl] at hspan
  change declared.span = StyleObject.inner (script.stripComments text) item.value at hspan
  rw [StyleObject.inner, if_pos hquoted] at hspan
  have hnumber : declared.value.isNumber = false := by
    refine eq_false_of_ne_true fun hnumber => ?_
    obtain ⟨-, hdeclare⟩ := Option.ite_none_right_eq_some.mp hdeclared
    obtain rfl := Option.some.inj hdeclare
    have hwhole := (readValue_of_isNumber hnumber).2
    have hstarts := congrArg start (hwhole.symm.trans hspan)
    exact absurd hstarts (Nat.ne_of_lt (Nat.lt_succ_self _))
  have hinitial : (declared.target text).initial = inside := by
    have hsource : (declared.target text).initial = declared.span.slice text := by
      cases hvalue : declared.value with
      | number value => rw [hvalue] at hnumber; cases hnumber
      | text raw => simp only [Declared.target, hvalue]
    rw [hsource, hspan, slice, htext, ← drop_drop, drop_left' hfront]
    show ((quote :: (inside ++ quote :: behind)).drop 1).take _ = inside
    rw [drop_one, tail_cons, take_left']
    show inside.length = item.value.stop - 1 - (item.value.start + 1)
    omega
  exact ⟨hnumber, hspan, by omega, hclosing, by rwa [hinitial]⟩

/-- A number is its declared value, and it is displayed in a clean text. -/
theorem initial_of_isNumber (hsite : (value, target) ∈ sites text)
    (hnumber : target.isNumber) (hquote : StyleObject.isQuote quote) :
    target.span = value ∧ isClean quote target.initial := by
  obtain ⟨item, -, declared, hdeclared, heq⟩ := exists_placed hsite
  obtain ⟨rfl, rfl⟩ := Prod.mk.inj heq
  constructor
  · obtain ⟨-, hdeclare⟩ := Option.ite_none_right_eq_some.mp hdeclared
    obtain rfl := Option.some.inj hdeclare
    exact (readValue_of_isNumber hnumber).2
  · obtain ⟨number, hvalue⟩ : ∃ number, declared.value = .number number := by
      cases hvalue : declared.value with
      | number number => exact ⟨number, rfl⟩
      | text raw =>
        change declared.value.isNumber at hnumber
        rw [hvalue] at hnumber
        cases hnumber
    have hinitial : (declared.target text).initial = utf8 number.positional := by
      simp only [Declared.target, hvalue]
    rw [hinitial]
    exact isClean_positional hquote number

/-- What the text holds from the start of a declared value to its end, once it stands in quotes: the
new value between them. The old one kept a literal open. -/
theorem held_of_quoted {origin : Target} (hsite : (value, origin) ∈ sites text)
    (hframe : target.frame = origin.frame) (hquoted : target.Quoted text value quote) :
    StyleObject.isQuote quote ∧ keepsOpen quote origin.initial ∧
      (Span.mk value.start origin.span.start).slice text ++ target.held text ++
        (Span.mk origin.span.stop value.stop).slice text =
          quote :: (target.working ++ [quote]) := by
  obtain ⟨-, -, hinitial, -, hisNumber, -⟩ := Target.mk.inj hframe
  cases hquoted with
  | kept hquote hstart hread =>
    obtain ⟨hnumber, hspan, hlength, hstop, hopen⟩ := initial_of_literal hsite hquote hstart hread
    have hone : ∀ offset, text[offset]? = some quote →
        (Span.mk offset (offset + 1)).slice text = [quote] := by
      intro offset hoffset
      obtain ⟨hlt, hbyte⟩ := List.getElem?_eq_some_iff.mp hoffset
      rw [slice, drop_eq_getElem_cons hlt, hbyte, Nat.add_sub_cancel_left]
      rfl
    have hheld : target.held text = target.working := by
      simp [held, render, hisNumber.trans hnumber]
    have hclosing := hone (value.stop - 1) hstop
    rw [show value.stop - 1 + 1 = value.stop by omega] at hclosing
    rw [hheld, hspan, hone value.start hstart, hclosing]
    exact ⟨hquote, hopen, rfl⟩
  | inserted hnumber hchanged hnumeral =>
    have hquote : StyleObject.isQuote apostrophe := rfl
    obtain ⟨hspan, hclean⟩ := initial_of_isNumber hsite (hisNumber.symm.trans hnumber) hquote
    have hheld : target.held text = utf8 "'" ++ target.working ++ utf8 "'" := by
      rw [held_eq_render hchanged, render, hnumber, hnumeral]
      rfl
    rw [hheld, hspan, slice_empty, slice_empty, append_nil]
    exact ⟨hquote, keepsOpen_of_isClean hclean, rfl⟩

end Target

/-! ## Rewriting -/

variable {table : Table}

/-- What replacing tokens keeps, the entries of a table keep. -/
theorem Table.rewrite_keeps (keeps : Text → Prop) {dialect : Dialect} {property : Text}
    (hstep : ∀ entry ∈ table, entry.outcome property ≠ entry.token → ∀ value, keeps value →
      keeps (Value.replaceToken dialect value entry.token (entry.outcome property))) {value : Text}
    (h : keeps value) : keeps (table.rewrite dialect property value) := by
  induction table generalizing value with
  | nil => exact h
  | cons entry table ih =>
    obtain ⟨hentry, hlater⟩ := forall_mem_cons.mp hstep
    refine ih hlater ?_
    show keeps (entry.rewrite ..)
    unfold Entry.rewrite
    split
    next hacts =>
      simp only [Entry.acts, Bool.and_eq_true, bne_iff_ne] at hacts
      exact hentry hacts.1 value h
    · exact h

/-- The table leaves the literal around a value open: its replacements in the property are clean,
and where the value has escapes, which is then no list, tokens have neither blanks nor backslashes
and replacements are not empty. -/
structure Table.Spares (quote : UInt8) (target : Target) (table : Table) : Prop where
  clean : ∀ entry ∈ table, ∀ replacement, entry.Offers target.name replacement →
    isClean quote replacement
  escapes : backslash ∈ target.initial → target.isComposite = false ∧ ∀ entry ∈ table,
    (∀ byte ∈ entry.token, byte ≠ space ∧ byte ≠ newline ∧ byte ≠ backslash) ∧
    ∀ replacement, entry.Offers target.name replacement → replacement ≠ []

/-- Whether a table spares a value does not depend on what became of it. -/
theorem Table.Spares.of_frame {quote : UInt8} {target origin : Target}
    (h : table.Spares quote target) (hframe : target.frame = origin.frame) :
    table.Spares quote origin := by
  obtain ⟨hname, -, hinitial, -, -, hcomposite⟩ := Target.mk.inj hframe
  constructor
  · rw [← hname]
    exact h.clean
  · rw [← hname, ← hinitial, ← hcomposite]
    exact h.escapes

/-- A target that keeps a literal open does so after a table that spares it, once the choices are
made. -/
theorem Target.keepsOpen_rewrite {quote : UInt8} {target : Target}
    (hquote : StyleObject.isQuote quote) (hspares : table.Spares quote target)
    {pick : Topic → Text}
    (hpick : ∀ topic, pick topic = topic.token ∨ pick topic ∈ topic.candidates)
    (hworking : target.working = target.initial) (h : keepsOpen quote target.working)
    (dialect : Dialect) :
    keepsOpen quote (target.rewrite dialect (table.pin pick)).working := by
  have hoffers : ∀ entry ∈ table.pin pick, entry.outcome target.name ≠ entry.token →
      ∃ origin ∈ table, origin.token = entry.token ∧
        origin.Offers target.name (entry.outcome target.name) := by
    intro entry hentry hne
    obtain ⟨origin, horigin, rfl⟩ := mem_map.mp hentry
    exact ⟨origin, horigin, rfl, Entry.offers_of_pin hpick hne⟩
  by_cases hescapes : backslash ∈ target.initial
  · -- Escapes stay whole, since no token takes a backslash with it.
    obtain ⟨hsingle, htokens⟩ := hspares.escapes hescapes
    rw [rewrite_single hsingle]
    refine Table.rewrite_keeps (keepsOpen quote ·) (fun entry hentry hne value hvalue => ?_) h
    obtain ⟨origin, horigin, htoken, hoffer⟩ := hoffers entry hentry hne
    obtain ⟨hbytes, hnonempty⟩ := htokens origin horigin
    exact keepsOpen_replaceToken (htoken ▸ hbytes)
      (hspares.clean origin horigin _ hoffer) (hnonempty _ hoffer) hvalue
  · -- The value is clean, and so is every text that is made from it.
    have hclean := isClean_of_keepsOpen h (hworking ▸ hescapes)
    have hrewrite : ∀ entries : Table, entries ⊆ table.pin pick → ∀ value, isClean quote value →
        isClean quote (entries.rewrite dialect target.name value) := by
      intro entries hentries value hvalue
      refine Table.rewrite_keeps (isClean quote ·) (fun entry hentry hne value hvalue => ?_) hvalue
      obtain ⟨origin, horigin, -, hoffer⟩ := hoffers entry (hentries hentry) hne
      exact isClean_replaceToken (hspares.clean origin horigin _ hoffer) hvalue
    refine keepsOpen_of_isClean ?_
    show isClean quote (if target.isComposite then _ else _)
    split
    · have hacross := hrewrite (Table.across (table.pin pick)) (filter_subset_self _) _ hclean
      refine isClean_fill hacross fun item hitem => ?_
      obtain ⟨span, -, rfl⟩ := mem_map.mp hitem
      refine isClean_fitForm hquote _ (hrewrite _ (filter_subset_self _) _ ?_)
      exact isClean_of_subset hacross fun byte hbyte =>
        drop_subset _ _ (take_subset _ _ hbyte)
    · exact hrewrite _ (List.Subset.refl _) _ hclean

namespace Resolution

variable {σ : Type}

/-- The targets of a file after its resolution, which are those of the file if it fails. -/
def finalTargets (interaction : Interaction σ) (context : Context) (table : Table) (text : Text)
    (before : Session σ) : List Target :=
  match ((resolveTargets interaction context text table
    (ofRules text (rules context.path text))).run.run before).1 with
  | .ok (targets, _) => targets
  | .error _ => ofRules text (rules context.path text)

/-- The final targets are the targets of the file with new values. They fill the data, and those
that keep a literal open do so still if the table spares it. -/
theorem finalTargets_eq {interaction : Interaction σ} {context : Context} {table : Table}
    {text : Text} {before after : Session σ} {resolution : Resolution} (hbefore : before.Admitted)
    (h : (resolveFile interaction context table text).run.run before = (.ok resolution, after)) :
    ∃ change : Target → Target,
      resolution.data = apply (finalTargets interaction context table text before) text ∧
      finalTargets interaction context table text before =
        (ofRules text (rules context.path text)).map change ∧
      (∀ target, (change target).frame = target.frame) ∧
      ∀ (target : Target) (quote : UInt8), StyleObject.isQuote quote →
        table.Spares quote target → target.working = target.initial →
        keepsOpen quote target.working →
        keepsOpen quote (change target).working := by
  rcases hattempt : (resolveTargets interaction context text table
    (ofRules text (rules context.path text))).run.run before with ⟨outcome, middle⟩
  have htry : (tryResolve interaction context table (rules context.path text)
      text).run.run before = _ := Dialogue.run_bind ..
  rw [hattempt] at htry
  rcases outcome with (error | _) | ⟨targets, changes⟩
  · rw [resolveFile_of_error htry] at h
    cases h
    refine ⟨id, ?_, ?_, fun _ => rfl, fun _ _ _ _ _ h => h⟩
    · rw [finalTargets, hattempt]
      exact (apply_ofRules ..).symm
    · rw [finalTargets, hattempt]
      exact (map_id _).symm
  · rw [resolveFile_of_outcome htry rfl] at h
    cases h
  · obtain ⟨events, hpath, -⟩ := resolveFile_converses interaction context table text _ _ _ h
    have hpick := (hpath.admitted hbefore).verdict
    rw [resolveFile_of_tryResolve htry] at h
    cases h
    obtain ⟨rfl, -⟩ := resolveTargets_records hattempt
    refine ⟨rewrite (ofPath context.path).ofValue
      (table.pin after.answers.verdict), ?_, ?_, fun _ => rfl, ?_⟩
    · rw [finalTargets, hattempt]
    · rw [finalTargets, hattempt]
    · intro target quote hquote hspares hworking hopen
      exact keepsOpen_rewrite hquote hspares hpick hworking hopen _

/-- A program is resolved, unless that cuts a character for a token with a space at an end. In the
data of its resolution every value that is one literal, or a number put in quotes,
stands between its quotes, and the quote behind it closes the literal that the quote before it opens
if and only if the new value keeps a literal open. It does if the table spares the value. -/
theorem resolveFile_literals (interaction : Interaction σ) (context : Context) (table : Table)
    (text : Text) (before : Session σ) (hpath : Dialect.ofPath context.path = .script)
    (hbefore : before.Admitted) :
    ((∃ resolution after,
      (resolveFile interaction context table text).run.run before = (.ok resolution, after)) ∨
    (∃ after,
      (resolveFile interaction context table text).run.run before = (.error .panic, after)) ∧
      ∃ entry ∈ table, ¬ entry.token.IsFlush) ∧
    ∀ (resolution : Resolution) (after : Session σ),
      (resolveFile interaction context table text).run.run before = (.ok resolution, after) →
      ∃ targets, targets = finalTargets interaction context table text before ∧
        targets.map Target.frame = (Target.sites text).map (fun site => site.2.frame) ∧
        ∀ (place : Nat) (site : Span × Target) (target : Target) (quote : UInt8),
          (Target.sites text)[place]? = some site → targets[place]? = some target →
          target.Quoted text site.1 quote →
          ∃ front behind : Text,
            front = Text.fill (text.take site.1.start) 0
              ((targets.take place).map fun other => (other.span, other.held text)) ∧
            behind = text.fill site.1.stop
              ((targets.drop (place + 1)).map fun other => (other.span, other.held text)) ∧
            resolution.data = front ++ quote :: (target.working ++ quote :: behind) ∧
            (Literal.read resolution.data front.length =
                (front.length + target.working.length + 2, true) ↔
              Literal.keepsOpen quote target.working = true) ∧
            (table.Spares quote target → Literal.keepsOpen quote target.working = true) := by
  refine ⟨resolveFile_returns interaction context table text before,
    fun resolution after hrun => ?_⟩
  obtain ⟨change, hdata, hfinal, hframe, hkeeps⟩ := finalTargets_eq hbefore hrun
  have hsites := map_snd_sites hpath text
  refine ⟨_, rfl, ?_, ?_⟩
  · rw [hfinal, ← hsites, map_map, map_map]
    exact map_congr_left fun site _ => hframe site.2
  · intro place site target quote hplace htarget hquoted
    have hmem : site ∈ sites text := mem_of_getElem? hplace
    have hfinals : finalTargets interaction context table text before =
        (sites text).map fun site => change site.2 := by
      rw [hfinal, ← hsites, map_map]
      rfl
    obtain rfl : change site.2 = target := by
      rw [hfinals, getElem?_map, hplace] at htarget
      exact Option.some.inj htarget
    obtain ⟨hquote, hopen, hheld⟩ := held_of_quoted hmem (hframe site.2) hquoted
    -- The data is filled by the final targets, and this one stands in the middle.
    have hframes : (finalTargets interaction context table text before).map frame =
        (ofRules text (Source.rules context.path text)).map frame := by
      rw [hfinal, map_map]
      exact map_congr_left fun target _ => hframe target
    obtain ⟨hordered, hsource⟩ := ordered_of_frames hframes
    have hspan : ∀ target, (change target).span = target.span := fun target =>
      (Target.mk.inj (hframe target)).2.1
    have hfilled := hdata.trans (apply_eq_fill hordered hsource)
    rw [fill_held hspan hfinals hplace, hheld, cons_append, append_assoc,
      singleton_append] at hfilled
    refine ⟨_, _, rfl, rfl, hfilled, ?_, fun hspares => ?_⟩
    · have hbackslash : quote ≠ backslash := by
        rcases quote_cases hquote with rfl | rfl | rfl <;> decide
      rw [hfilled]
      exact read_iff hbackslash _ _ _
    · have hworking : site.2.working = site.2.initial :=
        (ofRules_source (hsites ▸ mem_map_of_mem hmem)).1
      exact hkeeps site.2 quote hquote (hspares.of_frame (hframe site.2)) hworking
        (hworking ▸ hopen)

/-- A table with a quote of the other kind in a replacement, and one that turns the number of
`halfTop` into a name. -/
def quoteTable : Table :=
  [⟨utf8 "--a", .plain (utf8 "--b\"")⟩, ⟨utf8 "0.5", .plain (utf8 "--half")⟩]

theorem sites_halfTop : Target.sites halfTop =
    [(⟨7, 9⟩, ⟨utf8 "top", ⟨7, 9⟩, utf8 "0.5", utf8 "0.5", true, false⟩),
      (⟨16, 26⟩, ⟨utf8 "color", ⟨17, 25⟩, utf8 "var(--a)", utf8 "var(--a)", false, false⟩)] := by
  rw [sites, placed, Block.scan_of_closed [⟨2, 26⟩] (by decide) (by decide),
    mergeSort_of_pairwise (by decide)]
  decide

/-- The literal of `halfTop` and the one that its number becomes are closed behind the new
values. -/
theorem resolveFile_literals_halfTop :
    Dialect.ofPath (utf8 "s.js") = .script ∧ Session.silent.Admitted ∧
    ∃ (resolution : Resolution) (after : Session Unit),
      (resolveFile Interaction.silent ⟨utf8 "s.js", false, none⟩ quoteTable halfTop).run.run
        Session.silent = (.ok resolution, after) ∧
      Literal.read halfTop 16 = (26, true) ∧
      (∃ front behind,
        resolution.data = front ++ Byte.apostrophe :: (utf8 "--half" ++ Byte.apostrophe :: behind) ∧
        Literal.read resolution.data front.length = (front.length + 8, true)) ∧
      ∃ front behind,
        resolution.data =
          front ++ Byte.apostrophe :: (utf8 "var(--b\")" ++ Byte.apostrophe :: behind) ∧
        Literal.read resolution.data front.length = (front.length + 11, true) := by
  have hpath : ofPath (utf8 "s.js") = .script := by decide
  have hadmitted : Session.silent.Admitted := by
    intro topic choice hfind
    cases hfind
  obtain ⟨hreturns, hresolved⟩ := resolveFile_literals Interaction.silent
    ⟨utf8 "s.js", false, none⟩ quoteTable halfTop Session.silent hpath hadmitted
  obtain ⟨resolution, after, hrun⟩ := hreturns.resolve_right fun hpanic =>
    absurd hpanic.2 (by decide)
  obtain ⟨targets, htargets, -, hliterals⟩ := hresolved resolution after hrun
  have hfinal : targets = [⟨utf8 "top", ⟨7, 9⟩, utf8 "0.5", utf8 "--half", true, false⟩,
      ⟨utf8 "color", ⟨17, 25⟩, utf8 "var(--a)", utf8 "var(--b\")", false, false⟩] := by
    rw [htargets, finalTargets, halfTop_targets]
    rfl
  have hread : read halfTop 16 = (26, true) := by decide
  rw [hfinal, sites_halfTop] at hliterals
  obtain ⟨front, behind, -, -, hdata, hiff, -⟩ := hliterals 0 _ _ apostrophe rfl rfl
    (.inserted rfl (by decide) (by decide))
  obtain ⟨front', behind', -, -, hdata', hiff', -⟩ := hliterals 1 _ _ apostrophe rfl rfl
    (.kept rfl (by decide) hread)
  exact ⟨hpath, hadmitted, resolution, after, hrun, hread,
    ⟨front, behind, hdata, hiff.mpr (by decide)⟩,
    front', behind', hdata', hiff'.mpr (by decide)⟩

/-- A replacement with a quote in it ends the literal of `halfTop` before the quote behind it. -/
theorem resolveFile_breaks_literal :
    Literal.read halfTop 16 = (26, true) ∧
    (resolveFile Interaction.silent ⟨utf8 "s.js", false, none⟩
      [⟨utf8 "--a", .plain (utf8 "it's")⟩] halfTop).run.run Session.silent =
      (.ok ⟨utf8 "s=\x7btop:.5,color:'var(it's)'\x7d", [⟨utf8 "--a", utf8 "it's", 1⟩]⟩,
        Session.silent) ∧
    (utf8 "s=\x7btop:.5,color:'var(it's)'\x7d")[26]? = some Byte.apostrophe ∧
    Literal.read (utf8 "s=\x7btop:.5,color:'var(it's)'\x7d") 16 = (24, true) := by
  refine ⟨by decide, resolveFile_of_tryResolve ?_, by decide, by decide⟩
  rw [tryResolve, halfTop_targets]
  rfl

end Resolution

end Restyle
