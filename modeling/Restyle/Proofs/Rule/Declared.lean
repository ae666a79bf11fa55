import Restyle.Proofs.Declaration.Entries
import Restyle.Proofs.Dialect.Comments
import Restyle.Rule.Source

/-!
# What a file declares

The properties of a file's rules come from its declarations: `Source.declared` lists these block by
block, and a declaration with several parts makes several properties of one value
(`Source.rules_properties`). The values of two declarations have no byte in common, in whichever
blocks they stand: `Source.declared_separate`.
-/

namespace Restyle

open Declaration Dialect List StyleObject Stylesheet Value

/-- A declaration of a file: a name with its value, the span of the value without its quotes, and
the selector or object that it belongs to. -/
structure Declared where
  name : Text
  value : DeclaredValue
  span : Span
  container : Text

/-- Two properties are parts of one declared value, the left one before the right one. -/
def Property.Sibling (left right : Property) : Prop :=
  left.name = right.name ∧ left.container = right.container ∧ left.valueSpan = right.valueSpan ∧
    ∃ composite index index', left.part = some ⟨composite, index⟩ ∧
      right.part = some ⟨composite, index'⟩ ∧ index < index'

/-- A span lies in another and does not begin at its end. -/
structure Span.Within (inner outer : Span) : Prop where
  start_le : outer.start ≤ inner.start
  start_lt : inner.start < outer.stop
  order : inner.start ≤ inner.stop
  stop_le : inner.stop ≤ outer.stop

theorem Span.Within.mono {inner middle outer : Span} (h : inner.Within middle)
    (hstart : outer.start ≤ middle.start) (hstop : middle.stop ≤ outer.stop) :
    inner.Within outer where
  start_le := Nat.le_trans hstart h.start_le
  start_lt := Nat.lt_of_lt_of_le h.start_lt hstop
  order := h.order
  stop_le := Nat.le_trans h.stop_le hstop

theorem Value.one_lt_of_isList {name raw : Text} (h : isList name raw) :
    1 < (parts raw).length := by
  simp only [isList, Bool.and_eq_true, decide_eq_true_eq] at h
  exact h.2

namespace Declared

variable (text : Text) (declared : Declared)

/-- The properties that a declaration makes in a text. -/
def properties : List Property :=
  Property.ofDeclaration text declared.name declared.value declared.span declared.container

/-- The property of a value that is no list. -/
def whole : Property :=
  { name := declared.name, value := declared.value, container := declared.container
    place := Place.ofSpan text declared.span, valueSpan := declared.span, part := none }

/-- The property of a part of a list, given the list and the part's span and index in it. -/
def partOf (text raw : Text) (declared : Declared) (part : Span × Nat) : Property :=
  { name := declared.name, value := .text (part.1.slice raw), container := declared.container
    place := Place.ofSpan text (part.1.shift declared.span.start), valueSpan := declared.span
    part := some ⟨raw, part.2⟩ }

/-- A declaration makes one property, or the parts of a list. -/
theorem properties_cases :
    declared.properties text = [declared.whole text] ∧
        (∀ raw, declared.value = .text raw → isList declared.name raw = false) ∨
      ∃ raw, declared.value = .text raw ∧ isList declared.name raw ∧
        declared.properties text = (parts raw).zipIdx.map (declared.partOf text raw) := by
  obtain ⟨name, value, span, container⟩ := declared
  cases value with
  | number value => exact .inl ⟨rfl, fun raw hraw => by cases hraw⟩
  | text raw =>
    by_cases hlist : isList name raw
    · exact .inr ⟨raw, rfl, hlist, if_pos hlist⟩
    · refine .inl ⟨if_neg hlist, fun raw' hraw => ?_⟩
      cases hraw
      exact Bool.eq_false_iff.mpr hlist

/-- The properties of a declaration have the span of its value. -/
theorem valueSpan_of_mem {text : Text} {declared : Declared} {property : Property}
    (h : property ∈ declared.properties text) : property.valueSpan = declared.span := by
  rcases declared.properties_cases text with ⟨hwhole, -⟩ | ⟨raw, -, -, hparts⟩
  · rw [hwhole, mem_singleton] at h
    rw [h]
    rfl
  · rw [hparts] at h
    obtain ⟨part, -, rfl⟩ := mem_map.mp h
    rfl

theorem properties_ne_nil : declared.properties text ≠ [] := by
  intro hnil
  rcases declared.properties_cases text with ⟨hwhole, -⟩ | ⟨raw, -, hlist, hparts⟩
  · rw [hnil] at hwhole
    cases hwhole
  · have hmany := one_lt_of_isList hlist
    rw [hnil, eq_comm, map_eq_nil_iff, zipIdx_eq_nil_iff] at hparts
    rw [hparts] at hmany
    cases hmany

theorem properties_siblings : (declared.properties text).Pairwise Property.Sibling := by
  rcases declared.properties_cases text with ⟨hwhole, -⟩ | ⟨raw, -, -, hparts⟩
  · rw [hwhole]
    exact pairwise_singleton _ _
  · rw [hparts]
    refine pairwise_iff_getElem.mpr fun first second hfirst hsecond hlt => ?_
    simp only [getElem_map, getElem_zipIdx]
    exact ⟨rfl, rfl, rfl, raw, _, _, rfl, rfl, by simpa using hlt⟩

/-- Two declarations have values that begin at different places and have no byte in common. -/
def Separate (left right : Declared) : Prop :=
  left.span.Apart right.span ∧ left.span.start ≠ right.span.start

end Declared

/-- What lies in spans that are apart is separate. -/
theorem Span.Within.separate {left right : Declared} {outer outer' : Span}
    (hleft : left.span.Within outer) (hright : right.span.Within outer') (h : outer.Apart outer') :
    left.Separate right := by
  refine ⟨h.mono ⟨hleft.start_le, hleft.stop_le⟩ ⟨hright.start_le, hright.stop_le⟩, ?_⟩
  have hleftStart := hleft.start_le
  have hleftStop := hleft.start_lt
  have hrightStart := hright.start_le
  have hrightStop := hright.start_lt
  rcases h with h | h <;> omega

namespace Source

/-- What a declaration found in a block of a text without comments declares. In a program, only what
looks like style in a style object is declared. -/
def declare? (dialect : Dialect) (stripped : Text) (block : Block) (declaration : Declaration) :
    Option Declared :=
  let raw := declaration.value.slice stripped
  match dialect with
  | .script =>
    let (value, span) := readValue raw declaration.value
    if isStyleBlock stripped block && !isCode raw
        && (PropertyName.isStyle declaration.name || looksLikeStyle value.display) then
      some ⟨declaration.name, value, span, objectName stripped block.opening⟩
    else none
  | _ =>
    some ⟨declaration.name, .text raw, declaration.value, selector dialect stripped block.opening⟩

/-- The declarations of a block of a text without comments, given its visible bytes. -/
def declaredIn (dialect : Dialect) (stripped : Text) (marks : List (UInt8 × Bool)) (block : Block) :
    List Declared :=
  (scanVisible dialect stripped marks block.interior).filterMap (declare? dialect stripped block)

/-- The declarations of a text, block by block. -/
def declared (dialect : Dialect) (text : Text) : List Declared :=
  let stripped := dialect.stripComments text
  (Block.scan dialect stripped).flatMap (declaredIn dialect stripped (dialect.visible stripped))

variable {dialect : Dialect} {stripped : Text} {block : Block}

/-- Everything that stands in a block of a stylesheet is declared. -/
theorem declaredIn_stylesheet (hdialect : dialect ≠ .script) (stripped : Text)
    (marks : List (UInt8 × Bool)) (block : Block) :
    declaredIn dialect stripped marks block =
      (scanVisible dialect stripped marks block.interior).map fun declaration =>
        ⟨declaration.name, .text (declaration.value.slice stripped), declaration.value,
          selector dialect stripped block.opening⟩ := by
  cases dialect with
  | css | scss => exact congrFun filterMap_eq_map' _
  | script => exact absurd rfl hdialect

/-- What a block is called: its selector, or its object. -/
def containerOf (dialect : Dialect) (stripped : Text) (block : Block) : Text :=
  match dialect with
  | .script => objectName stripped block.opening
  | _ => selector dialect stripped block.opening

/-- The rule of a block that declares something, given the text without comments and its visible
bytes. -/
def ruleOf? (dialect : Dialect) (text stripped : Text) (marks : List (UInt8 × Bool))
    (block : Block) : Option Rule :=
  match declaredIn dialect stripped marks block with
  | [] => none
  | items =>
    some ⟨containerOf dialect stripped block, items.flatMap (Declared.properties text),
      Place.ofSpan text block.span⟩

/-- A block of a stylesheet makes a rule if it declares something. -/
theorem stylesheet_ruleOf (hdialect : dialect ≠ .script) (text stripped : Text)
    (marks : List (UInt8 × Bool)) (block : Block) :
    Stylesheet.ruleOf? dialect text stripped marks block =
      ruleOf? dialect text stripped marks block := by
  have hcontainer : containerOf dialect stripped block =
      selector dialect stripped block.opening := by
    cases dialect with
    | css | scss => rfl
    | script => exact absurd rfl hdialect
  rw [Stylesheet.ruleOf?, ruleOf?, declaredIn_stylesheet hdialect, hcontainer]
  cases scanVisible dialect stripped marks block.interior with
  | nil => rfl
  | cons first others =>
    simp only [map_cons, flatMap_cons, flatMap_map]
    rfl

/-- The entries that look like style in a style object are what the block declares. -/
theorem styleEntries_eq (hstyle : isStyleBlock stripped block)
    (declarations : List Declaration) :
    (styleEntries stripped declarations).map (fun (name, value, span) =>
        Declared.mk name value span (objectName stripped block.opening)) =
      declarations.filterMap (declare? .script stripped block) := by
  rw [styleEntries, map_filterMap]
  congr 1
  funext declaration
  simp only [declare?, hstyle, Bool.true_and]
  split <;> rfl

/-- A block of a program makes a rule if it declares something. -/
theorem styleObject_ruleOf (text stripped : Text) (marks : List (UInt8 × Bool)) (block : Block) :
    StyleObject.ruleOf? text stripped marks block =
      ruleOf? .script text stripped marks block := by
  rw [StyleObject.ruleOf?, ruleOf?]
  by_cases hstyle : isStyleBlock stripped block
  · rw [if_pos hstyle, declaredIn, ← styleEntries_eq hstyle]
    cases styleEntries stripped (scanVisible .script stripped marks block.interior) with
    | nil => rfl
    | cons first others =>
      simp only [map_cons, flatMap_cons, flatMap_map, containerOf, Declared.properties]
  · have hnothing : declare? .script stripped block = fun _ => none := by
      funext declaration
      simp [declare?, hstyle]
    have hnone : declaredIn .script stripped marks block = [] := by simp [declaredIn, hnothing]
    rw [if_neg hstyle, hnone]

variable {marks : List (UInt8 × Bool)} (path : Text)

theorem rules_eq (text : Text) (hpath : ofPath path = dialect) :
    rules path text = (Block.scan dialect (dialect.stripComments text)).filterMap
      (ruleOf? dialect text (dialect.stripComments text)
        (dialect.visible (dialect.stripComments text))) := by
  rw [rules, hpath]
  unfold rulesIn
  split
  · exact congrArg (filterMap · _) (funext (styleObject_ruleOf _ _ _))
  next hsheet =>
    exact congrArg (filterMap · _) (funext (stylesheet_ruleOf hsheet _ _ _))

theorem ruleOf_eq_some {text : Text} {rule : Rule}
    (h : ruleOf? dialect text stripped marks block = some rule) :
    declaredIn dialect stripped marks block ≠ [] ∧
      rule = ⟨containerOf dialect stripped block,
        (declaredIn dialect stripped marks block).flatMap (Declared.properties text),
        Place.ofSpan text block.span⟩ := by
  rw [ruleOf?] at h
  split at h
  · cases h
  next hne => exact ⟨hne, (Option.some.inj h).symm⟩

/-- The properties of a rule are those that its block declares. -/
theorem ruleOf_properties (dialect : Dialect) (text stripped : Text)
    (marks : List (UInt8 × Bool)) (block : Block) :
    (ruleOf? dialect text stripped marks block).toList.flatMap Rule.properties =
      (declaredIn dialect stripped marks block).flatMap (Declared.properties text) := by
  rw [ruleOf?]
  cases declaredIn dialect stripped marks block with
  | nil => rfl
  | cons first others => simp

/-- The properties of a file's rules are those that its declarations make. -/
theorem rules_properties (text : Text) :
    (rules path text).flatMap Rule.properties =
      (declared (ofPath path) text).flatMap (Declared.properties text) := by
  rw [rules_eq path text rfl, declared, flatMap_assoc]
  simp only [← ruleOf_properties]
  induction Block.scan (ofPath path) ((ofPath path).stripComments text) with
  | nil => rfl
  | cons block blocks ih =>
    rw [flatMap_cons, ← ih, filterMap_cons]
    split
    next hnone => rw [hnone]; rfl
    next rule hsome => rw [hsome]; simp

/-! ## Values of two declarations -/

/-- The value of an entry of a program lies in the entry's value, without its quotes if it has
them. -/
theorem readValue_within {raw : Text} {span : Span} (hlength : raw.length = span.length)
    (hlt : span.start < span.stop) : (readValue raw span).2.Within span := by
  unfold readValue
  split
  next hquoted =>
    simp only [Bool.and_eq_true, decide_eq_true_eq] at hquoted
    have htwo := hquoted.1.1
    rw [hlength, Span.length] at htwo
    constructor <;> simp only <;> omega
  · split <;> exact ⟨Nat.le_refl _, hlt, Nat.le_of_lt hlt, Nat.le_refl _⟩

/-- A style object and a stylesheet declare the value of an entry, one of them without its
quotes. -/
theorem declare_cases {declaration : Declaration} {declared : Declared}
    (h : declare? dialect stripped block declaration = some declared) :
    (dialect = .script ∧ ∃ read, read = readValue (declaration.value.slice stripped)
        declaration.value ∧ declared = ⟨declaration.name, read.1, read.2,
          objectName stripped block.opening⟩) ∨
      dialect ≠ .script ∧ declared = ⟨declaration.name, .text (declaration.value.slice stripped),
        declaration.value, selector dialect stripped block.opening⟩ := by
  unfold declare? at h
  split at h
  · obtain ⟨-, h⟩ := Option.ite_none_right_eq_some.mp h
    exact .inl ⟨rfl, _, rfl, (Option.some.inj h).symm⟩
  next hsheet => exact .inr ⟨hsheet, (Option.some.inj h).symm⟩

theorem declare_within {declaration : Declaration} {declared : Declared}
    (hstop : declaration.value.stop ≤ stripped.length)
    (hlt : declaration.value.start < declaration.value.stop)
    (h : declare? dialect stripped block declaration = some declared) :
    declared.span.Within declaration.value := by
  obtain ⟨-, _, rfl, rfl⟩ | ⟨-, rfl⟩ := declare_cases h
  · exact readValue_within (Span.length_slice hstop) hlt
  · exact ⟨Nat.le_refl _, hlt, Nat.le_of_lt hlt, Nat.le_refl _⟩

/-- What a block declares lies in entries of the block, and two values that it declares are
separate. -/
theorem declaredIn_within (hblock : Block.Matched marks block)
    (hlength : marks.length = stripped.length) :
    (∀ declared ∈ declaredIn dialect stripped marks block, ∃ entry,
      Declaration.IsEntry marks (block.opening + 1) block.closing (block.opening + 1) entry ∧
        declared.span.Within entry ∧ entry.stop ≤ stripped.length) ∧
    (declaredIn dialect stripped marks block).Pairwise Declared.Separate := by
  obtain ⟨hvalues, horder⟩ := @Declaration.scanVisible_values _ dialect _ _ hblock hlength
  have hwithin : ∀ declaration ∈ scanVisible dialect stripped marks block.interior, ∀ declared,
      declare? dialect stripped block declaration = some declared →
        declared.span.Within declaration.value := by
    intro declaration hmem declared hdeclared
    obtain ⟨entry, -, -, hlt, hstop, hend⟩ := hvalues declaration hmem
    exact declare_within (Nat.le_trans hstop hend) hlt hdeclared
  constructor
  · intro declared hmem
    obtain ⟨declaration, hdeclaration, hdeclared⟩ := mem_filterMap.mp hmem
    obtain ⟨entry, hentry, hstart, -, hstop, hend⟩ := hvalues declaration hdeclaration
    exact ⟨entry, hentry, (hwithin _ hdeclaration _ hdeclared).mono hstart hstop, hend⟩
  · refine pairwise_filterMap.mpr (horder.imp_of_mem ?_)
    intro first second hfirst hsecond horder left hleft right hright
    exact (hwithin _ hfirst _ hleft).separate (hwithin _ hsecond _ hright) (Or.inl horder)

/-- The values that a text declares lie in the text, and any two of them are separate, in nested
blocks too. -/
theorem declared_separate (dialect : Dialect) (text : Text) :
    (∀ item ∈ declared dialect text,
      item.span.start ≤ item.span.stop ∧ item.span.stop ≤ text.length) ∧
    (declared dialect text).Pairwise Declared.Separate := by
  have hlength := length_visible dialect (dialect.stripComments text)
  have hmatched : ∀ block ∈ Block.scan dialect (dialect.stripComments text),
      Block.Matched (dialect.visible (dialect.stripComments text)) block :=
    fun block hmem => Block.matched_of_mem_scan hmem
  constructor
  · intro item hmem
    obtain ⟨block, hblock, hitem⟩ := mem_flatMap.mp hmem
    obtain ⟨entry, -, hwithin, hend⟩ :=
      (declaredIn_within (hmatched block hblock) hlength).1 item hitem
    rw [stripComments, length_stripFrom] at hend
    exact ⟨hwithin.order, Nat.le_trans hwithin.stop_le hend⟩
  · refine pairwise_flatMap.mpr ⟨fun block hmem =>
      (declaredIn_within (hmatched block hmem) hlength).2, ?_⟩
    refine (Block.scan_pairwise_ne ..).imp_of_mem ?_
    intro first second hfirst hsecond hne left hleft right hright
    obtain ⟨entry, hentry, hwithin, -⟩ :=
      (declaredIn_within (hmatched first hfirst) hlength).1 left hleft
    obtain ⟨entry', hentry', hwithin', -⟩ :=
      (declaredIn_within (hmatched second hsecond) hlength).1 right hright
    exact hwithin.separate hwithin'
      (hentry.apart (hmatched first hfirst) (hmatched second hsecond) hne hentry')

/-- Two properties of a file are parts of one value, or their values are separate. -/
theorem properties_separate (text : Text) :
    ((rules path text).flatMap Rule.properties).Pairwise fun left right =>
      left.Sibling right ∨ left.valueSpan.Apart right.valueSpan ∧
        left.valueSpan.start ≠ right.valueSpan.start := by
  rw [rules_properties]
  refine pairwise_flatMap.mpr ⟨fun declared _ => ?_, ?_⟩
  · exact (declared.properties_siblings text).imp Or.inl
  · refine (declared_separate ..).2.imp ?_
    intro first second hseparate left hleft right hright
    rw [Declared.valueSpan_of_mem hleft, Declared.valueSpan_of_mem hright]
    exact Or.inr hseparate

end Source

end Restyle
