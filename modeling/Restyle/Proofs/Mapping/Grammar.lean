import Restyle.Mapping.Reading
import Restyle.Proofs.Attempt

/-!
# The grammar of mapping tables

What a step's configuration may hold is said here without the reader: where the mappings stand
(`Table.Located`), and which document describes which mapping (`Mapping.Describes`). The reader
accepts exactly these documents, gives the entries they describe, and otherwise names the first
member that describes none (`Table.read_exact`).
-/

namespace Restyle

open List Json

namespace Mapping

/-- A document gives texts: a string one, and an array of strings each of them. -/
inductive Gives : Json → List Text → Prop
  | string (value : String) : Gives (.string value) [utf8 value]
  | strings (values : List String) : Gives (.array (values.map .string)) (values.map utf8)

/-- A document names properties. `null` names none. -/
def Limits (document : Json) (names : List Text) : Prop :=
  (document = .null ∧ names = []) ∨ Gives document names

/-- An option names properties and offers candidates, as the members of an object or as an array of
the two. Where an object has a key several times all its values are of the right form, and the last
counts. -/
inductive Offers : Json → List Text → List Text → Prop
  | object {members value names candidates}
      (limits : ∀ value, ("ifProp", value) ∈ members → ∃ names, Limits value names)
      (gives : ∀ value, ("replace", value) ∈ members → ∃ texts, Gives value texts)
      (named : Limits ((members.reverse.lookup "ifProp").getD .null) names)
      (last : members.reverse.lookup "replace" = some value) (given : Gives value candidates) :
      Offers (.object members) names candidates
  | pair {first second names candidates} (named : Limits first names)
      (given : Gives second candidates) : Offers (.array [first, second]) names candidates

/-- Candidates make a replacement. A single one is no choice. -/
def Makes (candidates : List Text) : Replacement → Prop
  | .one candidate => candidates = [candidate]
  | .choice choices => candidates = choices ∧ 2 ≤ choices.length

/-- An option states a clause. -/
def States (option : Json) (clause : Clause) : Prop :=
  ∃ candidates, Offers option clause.properties candidates ∧ Makes candidates clause.replacement

/-- A document describes a mapping: a string a plain one, and an object with options the clauses
that they state, in their order. -/
inductive Describes : Json → Mapping → Prop
  | plain (value : String) : Describes (.string value) (.plain (utf8 value))
  | conditional {document options clauses}
      (holds : document.get? "options" = some (.array options)) (nonempty : options ≠ [])
      (states : List.Forall₂ States options clauses) : Describes document (.conditional clauses)

/-! ## Options -/

variable {document : Json} {names candidates texts : List Text} {mapping : Mapping}
  {clause : Clause}

theorem gives_iff :
    Gives document texts ↔ ∃ values, stringOrStrings? document = some values ∧
      values.map utf8 = texts := by
  constructor
  · rintro (value | values)
    · exact ⟨[value], rfl, rfl⟩
    · exact ⟨values, asStrings?_eq_some_iff.mpr rfl, rfl⟩
  · rintro ⟨values, hvalues, rfl⟩
    unfold stringOrStrings? at hvalues
    split at hvalues
    · cases hvalues
      exact .string _
    · rw [asStrings?_eq_some_iff.mp hvalues]
      exact .strings values

theorem readReplacements_eq_ok_iff :
    readReplacements document = .ok texts ↔ Gives document texts := by
  rw [gives_iff, readReplacements]
  cases stringOrStrings? document <;> simp

theorem readProperties_eq_ok_iff : readProperties document = .ok names ↔ Limits document names := by
  rw [Limits, gives_iff]
  unfold readProperties
  split
  · simp [stringOrStrings?, asStrings?, asArray?, eq_comm]
  next hnull =>
    have hnull : document ≠ .null := hnull
    cases stringOrStrings? document <;> simp [hnull]

/-- What is read of the members of an option after others. -/
theorem readMembers_eq_ok_iff {properties : List Text} {replacements : Option (List Text)}
    {members : List (String × Json)} :
    readMembers properties replacements members = .ok (names, candidates) ↔
      (∀ value, ("ifProp", value) ∈ members → ∃ names, Limits value names) ∧
      (∀ value, ("replace", value) ∈ members → ∃ texts, Gives value texts) ∧
      (members.reverse.lookup "ifProp").elim (names = properties) (Limits · names) ∧
      (members.reverse.lookup "replace").elim (replacements = some candidates)
        (Gives · candidates) := by
  induction members generalizing properties replacements with
  | nil =>
    cases replacements <;> simp [readMembers, eq_comm]
  | cons member rest ih =>
    obtain ⟨key, value⟩ := member
    simp only [readMembers, beq_iff_eq, reverse_cons, lookup_append, mem_cons, Prod.mk.injEq]
    have hsingle : ∀ name, name ≠ key → [(key, value)].lookup name = none := by
      intro name hne
      rw [lookup_cons, beq_false_of_ne hne, lookup_nil]
    by_cases hproperties : key = "ifProp"
    · subst hproperties
      simp only [if_true, bind_eq_ok_iff, readProperties_eq_ok_iff, ih]
      cases rest.reverse.lookup "ifProp" <;> simp <;> grind
    by_cases hreplacements : key = "replace"
    · subst hreplacements
      simp only [if_neg hproperties, if_true, bind_eq_ok_iff, readReplacements_eq_ok_iff, ih]
      cases rest.reverse.lookup "replace" <;> simp <;> grind
    · have hproperties := Ne.symm hproperties
      have hreplacements := Ne.symm hreplacements
      simp [hproperties.symm, hreplacements.symm, hproperties, hreplacements, hsingle, ih]

/-- An object without `ifProp` names no properties. -/
theorem limits_getD_null {document? : Option Json} :
    Limits (document?.getD .null) names ↔ document?.elim (names = []) (Limits · names) := by
  cases document? with
  | none =>
    rw [← readProperties_eq_ok_iff]
    simp [readProperties, eq_comm]
  | some document => rfl

theorem readOption_eq_ok_iff :
    readOption document = .ok (names, candidates) ↔ Offers document names candidates := by
  constructor
  · intro h
    match document, h with
    | .object members, h =>
      obtain ⟨hlimits, hgives, hnamed, hgiven⟩ := readMembers_eq_ok_iff.mp h
      cases hlast : members.reverse.lookup "replace" with
      | none => simp [hlast] at hgiven
      | some value =>
        rw [hlast] at hgiven
        exact .object hlimits hgives (limits_getD_null.mpr hnamed) hlast hgiven
    | .array [first], h =>
      obtain ⟨_, _, h⟩ := bind_eq_ok_iff.mp h
      cases h
    | .array (first :: second :: rest), h =>
      obtain ⟨properties, hproperties, h⟩ := bind_eq_ok_iff.mp h
      obtain ⟨replacements, hreplacements, h⟩ := bind_eq_ok_iff.mp h
      cases rest with
      | nil =>
        cases h
        exact .pair (readProperties_eq_ok_iff.mp hproperties)
          (readReplacements_eq_ok_iff.mp hreplacements)
      | cons third rest => cases h
  · rintro (⟨hlimits, hgives, hnamed, hlast, hgiven⟩ | ⟨hnamed, hgiven⟩)
    · refine readMembers_eq_ok_iff.mpr ⟨hlimits, hgives, limits_getD_null.mp hnamed, ?_⟩
      rw [hlast]
      exact hgiven
    · simp only [readOption, readProperties_eq_ok_iff.mpr hnamed,
        readReplacements_eq_ok_iff.mpr hgiven]
      rfl

theorem replacementOf_eq_ok_iff {replacement : Replacement} :
    replacementOf candidates = .ok replacement ↔ Makes candidates replacement := by
  rcases candidates with _ | ⟨first, _ | ⟨second, rest⟩⟩ <;> cases replacement <;>
    simp [replacementOf, Makes] <;> grind

theorem clauseOf_eq_ok_iff {option : List Text × List Text} :
    clauseOf option = .ok clause ↔
      option.1 = clause.properties ∧ Makes option.2 clause.replacement := by
  obtain ⟨properties, replacement⟩ := clause
  simp only [clauseOf, bind_eq_ok_iff, replacementOf_eq_ok_iff]
  simp [pure, Except.pure, and_comm]

theorem states_iff {option : Json} :
    States option clause ↔ ∃ read, readOption option = .ok read ∧ clauseOf read = .ok clause := by
  constructor
  · rintro ⟨candidates, hoffers, hmakes⟩
    exact ⟨_, readOption_eq_ok_iff.mpr hoffers, clauseOf_eq_ok_iff.mpr ⟨rfl, hmakes⟩⟩
  · rintro ⟨⟨names, candidates⟩, hread, hclause⟩
    obtain ⟨rfl, hmakes⟩ := clauseOf_eq_ok_iff.mp hclause
    exact ⟨candidates, readOption_eq_ok_iff.mp hread, hmakes⟩

/-- That all options are read before any is found empty makes no difference to what is accepted. -/
theorem readOptions_eq_ok_iff {clauses : List Clause} :
    readOptions document = .ok clauses ↔ ∃ options, document = .array options ∧ options ≠ [] ∧
      List.Forall₂ States options clauses := by
  cases document with
  | array elements =>
    have hstates : List.Forall₂ States elements clauses ↔
        ∃ options, elements.mapM readOption = .ok options ∧
          options.mapM clauseOf = .ok clauses := by
      simp only [mapM_eq_ok_iff, exists_forall₂_iff, ← states_iff]
    simp only [readOptions, bind_eq_ok_iff, array.injEq, exists_eq_left', hstates,
      ← exists_and_left]
    refine exists_congr fun options => ?_
    rw [and_left_comm]
    refine and_congr_right fun hoptions => ?_
    have hlength := (mapM_eq_ok_iff.mp hoptions).length_eq
    cases options with
    | nil =>
      have hempty : elements = [] := length_eq_zero_iff.mp hlength
      simp [hempty, bind, Except.bind, throw, throwThe, MonadExceptOf.throw]
    | cons option rest =>
      have hne : elements ≠ [] := ne_nil_of_length_pos (by simp [hlength])
      simp [hne]
  | _ => simp [readOptions]

theorem read_eq_ok_iff : read document = .ok mapping ↔ Describes document mapping := by
  constructor
  · intro h
    match document, h with
    | .string value, rfl => exact .plain value
    | .object members, h =>
      unfold read at h
      dsimp only at h
      split at h
      next options hoptions =>
        cases hclauses : readOptions options with
        | error problem => rw [hclauses] at h; cases h
        | ok clauses =>
          rw [hclauses] at h
          cases h
          obtain ⟨elements, rfl, hne, hstates⟩ := readOptions_eq_ok_iff.mp hclauses
          exact .conditional hoptions hne hstates
      · cases h
  · rintro (value | ⟨hholds, hne, hstates⟩)
    · rfl
    · match document, hholds with
      | .object members, hholds =>
        have hholds : members.lookup "options" = _ := hholds
        simp only [read, hholds, readOptions_eq_ok_iff.mpr ⟨_, rfl, hne, hstates⟩]
        rfl

/-- A mapping has the types of its parts: options where it is conditional, and candidates to choose
from where there is a choice. -/
def Sound : Mapping → Prop
  | .plain _ => True
  | .conditional clauses => clauses ≠ [] ∧ ∀ clause ∈ clauses, ∀ candidates,
    clause.replacement = .choice candidates → 2 ≤ candidates.length

theorem sound_of_describes (h : Describes document mapping) : Sound mapping := by
  cases h with
  | plain => trivial
  | conditional holds nonempty states =>
    refine ⟨?_, fun clause hclause candidates hchoice => ?_⟩
    · rintro rfl
      exact nonempty (forall₂_nil_right_iff.mp states)
    · obtain ⟨option, -, given, -, hmakes⟩ := exists_of_mem_forall₂ states hclause
      rw [hchoice] at hmakes
      exact hmakes.2

end Mapping

namespace Table

/-- The members that hold the mappings of a configuration: those of `styleValues` if it is there,
else those of `cssValues`, which may be the mappings itself, and else `mappings`. What is there but
has no mappings object is not passed over. -/
inductive Located (config : Json) : List (String × Json) → Prop
  | style {style members} (present : config.get? "styleValues" = some style)
      (holds : style.get? "mappings" = some (.object members)) : Located config members
  | css {css members} (noStyle : config.get? "styleValues" = none)
      (present : config.get? "cssValues" = some css)
      (holds : css.get? "mappings" = some (.object members)) : Located config members
  | cssItself {members} (noStyle : config.get? "styleValues" = none)
      (present : config.get? "cssValues" = some (.object members))
      (bare : members.lookup "mappings" = none) : Located config members
  | mappings {members} (noStyle : config.get? "styleValues" = none)
      (noCss : config.get? "cssValues" = none)
      (holds : config.get? "mappings" = some (.object members)) : Located config members

/-- A member declares an entry: it is for the token that is its key. -/
def Declares (member : String × Json) (entry : Entry) : Prop :=
  member.1 ≠ "" ∧ utf8 member.1 = entry.token ∧ Mapping.Describes member.2 entry.mapping

variable {members : List (String × Json)}

theorem locate?_eq_some_iff {config : Json} :
    locate? config = some members ↔ Located config members := by
  constructor
  · intro h
    unfold locate? at h
    split at h
    next style hstyle =>
      simp only [Option.bind_eq_some_iff, asObject?_eq_some_iff, exists_eq_right] at h
      exact .style hstyle h
    next hstyle =>
      split at h
      next css hcss =>
        split at h
        next mappings hmappings =>
          rw [asObject?_eq_some_iff.mp h] at hmappings
          exact .css hstyle hcss hmappings
        next hmappings =>
          obtain rfl := asObject?_eq_some_iff.mp h
          exact .cssItself hstyle hcss hmappings
      next hcss =>
        simp only [Option.bind_eq_some_iff, asObject?_eq_some_iff, exists_eq_right] at h
        exact .mappings hstyle hcss h
  · rintro (⟨hstyle, hholds⟩ | ⟨hstyle, hcss, hholds⟩ | ⟨hstyle, hcss, hbare⟩ |
      ⟨hstyle, hcss, hholds⟩)
    · simp [locate?, hstyle, hholds, asObject?_eq_some_iff]
    · simp [locate?, hstyle, hcss, hholds, asObject?_eq_some_iff]
    · have hbare : (object _).get? "mappings" = none := hbare
      simp [locate?, hstyle, hcss, hbare, asObject?_eq_some_iff]
    · simp [locate?, hstyle, hcss, hholds, asObject?_eq_some_iff]

/-- A member is read as the entry that it declares, however the problem is reported. -/
theorem readEntry_eq_ok_iff {key : String} {document : Json} {entry : Entry}
    (report : Mapping.Problem → Error) :
    (readEntry key document).mapError report = .ok entry ↔ Declares (key, document) entry := by
  have hreport : (readEntry key document).mapError report = .ok entry ↔
      readEntry key document = .ok entry := by
    cases readEntry key document <;> simp [Except.mapError]
  rw [hreport, readEntry, Declares]
  by_cases hkey : key = ""
  · simp [hkey]
  · obtain ⟨token, mapping⟩ := entry
    rw [← Mapping.read_eq_ok_iff]
    cases Mapping.read document <;> simp [Except.map, hkey]

theorem ofMembers_eq_ok_iff {table : Table} :
    ofMembers members = .ok table ↔ List.Forall₂ Declares members table := by
  simp only [ofMembers, mapM_eq_ok_iff, readEntry_eq_ok_iff]

/-- The first member that declares no entry is reported by its key. -/
theorem exists_of_ofMembers_eq_error {error : Error} (h : ofMembers members = .error error) :
    ∃ before key document after problem, members = before ++ (key, document) :: after ∧
      (∀ member ∈ before, ∃ entry, Declares member entry) ∧
      (¬ ∃ entry, Declares (key, document) entry) ∧
      error = (Cause.mappingInvalid key problem).error := by
  obtain ⟨before, ⟨key, document⟩, after, rfl, hbefore, hfirst⟩ := exists_of_mapM_eq_error h
  simp only [readEntry_eq_ok_iff] at hbefore hfirst
  have hnone : ¬ ∃ entry, Declares (key, document) entry := by
    rintro ⟨entry, hentry⟩
    cases hfirst.symm.trans ((readEntry_eq_ok_iff _).mpr hentry)
  obtain ⟨problem, rfl⟩ := exists_of_mapError_eq_error hfirst
  exact ⟨before, key, document, after, problem.message, rfl, hbefore, hnone, rfl⟩

/-- The table of a configuration is read exactly by the grammar. It is read where the mappings
object is located and every member declares an entry, and then it has those entries, in the order of
the members. Where a member declares none, the first such is named by the error. -/
theorem read_exact (config : Json) :
    ((∃ table, read config = .ok table) ↔ ∃ members, Located config members ∧
      ∀ member ∈ members, ∃ entry, Declares member entry) ∧
    (∀ table, read config = .ok table →
      (∃ members, Located config members ∧ List.Forall₂ Declares members table) ∧
      ∀ entry ∈ table, Mapping.Sound entry.mapping) ∧
    ∀ members, Located config members → ∀ error, read config = .error error →
      error.cause.code = "mapping.invalid" ∧
      ∃ before key document after problem, members = before ++ (key, document) :: after ∧
        (∀ member ∈ before, ∃ entry, Declares member entry) ∧
        (¬ ∃ entry, Declares (key, document) entry) ∧
        error = (Cause.mappingInvalid key problem).error := by
  have hread : ∀ table, read config = .ok table ↔
      ∃ members, Located config members ∧ List.Forall₂ Declares members table := by
    intro table
    simp only [← ofMembers_eq_ok_iff, ← locate?_eq_some_iff, read]
    cases locate? config <;> simp
  refine ⟨?accepted, fun table h => ⟨(hread table).mp h, ?sound⟩, ?first⟩
  case accepted =>
    simp only [hread, ← exists_forall₂_iff_forall, ← exists_and_left]
    exact exists_comm
  case sound =>
    intro entry hentry
    obtain ⟨members, -, hdeclares⟩ := (hread table).mp h
    obtain ⟨member, -, -, -, hdescribes⟩ := exists_of_mem_forall₂ hdeclares hentry
    exact Mapping.sound_of_describes hdescribes
  case first =>
    intro members hlocated error h
    rw [read, locate?_eq_some_iff.mpr hlocated] at h
    obtain ⟨before, key, document, after, problem, hmembers, hbefore, hnone, rfl⟩ :=
      exists_of_ofMembers_eq_error h
    exact ⟨rfl, before, key, document, after, problem, hmembers, hbefore, hnone, rfl⟩

end Table

end Restyle
