import Mathlib.Data.List.TakeWhile
import Restyle.Configuration.Loading
import Restyle.Proofs.Attempt

/-!
# Validation and reading agree

A document is validated by checks and read by fields. What is to hold of a document is listed here
condition by condition (`Configuration.conditions`), and validation finds the problems of those that
do not hold, each once and in their order (`Configuration.problems_eq_violated`). Where all of them
hold a configuration is read: `Configuration.validate_agrees`.
-/

namespace Restyle

open Json List

/-- The string has nothing but blanks. -/
def IsBlankString (string : String) : Prop :=
  ∀ char ∈ string.toList, isBlank char

/-- Trimming leaves nothing of a string exactly if it has nothing but blanks. -/
theorem trimString_eq_empty_iff {string : String} :
    trimString string = "" ↔ IsBlankString string := by
  rw [trimString, ← String.toList_inj, String.toList_ofList, String.toList_empty, Text.trimChars,
    reverse_eq_nil_iff, dropWhile_eq_nil_iff]
  constructor
  · intro h char hchar
    by_contra hblank
    have hfirst : string.toList.dropWhile isBlank ≠ [] := by
      rw [Ne, dropWhile_eq_nil_iff]
      exact fun hall => hblank (hall char hchar)
    have hhead := head_dropWhile_not isBlank hfirst
    rw [h _ (mem_reverse.mpr (head_mem hfirst))] at hhead
    cases hhead
  · intro h
    rw [dropWhile_eq_nil_iff.mpr h]
    exact forall_mem_nil _

namespace MigrationStep

/-- The members of an object are those of the step as it is written. -/
structure Written (step : MigrationStep) (members : List (String × Json)) : Prop where
  name : members.lookup "name" = some (.string step.name)
  plugin : members.lookup "plugin" = some (.string step.plugin)
  config : members.lookup "config" = some step.config
  includes : members.lookup "include" = step.includes.map .ofStrings
  excludes : members.lookup "exclude" = step.excludes.map .ofStrings
  enabled : members.lookup "enabled" = step.enabled.map .bool

/-- The step has what it needs. -/
def Sound (step : MigrationStep) : Prop :=
  ¬ IsBlankString step.name ∧ ¬ IsBlankString step.plugin ∧
    ∃ members, step.config = .object members

end MigrationStep

theorem Json.asStrings?_ofStrings (strings : List String) :
    (ofStrings strings).asStrings? = some strings :=
  asStrings?_eq_some_iff.mpr rfl

/-! ## Conditions -/

open Classical in
/-- The problems of the conditions that do not hold, in the order of the conditions. -/
noncomputable def violated {π : Type} (conditions : List (Prop × π)) : List π :=
  conditions.filterMap fun (holds, problem) => if holds then none else some problem

/-- The problems of two lists of conditions come one after the other. -/
theorem violated_append {π : Type} (first second : List (Prop × π)) :
    violated (first ++ second) = violated first ++ violated second :=
  filterMap_append

theorem violated_cons_cons {π : Type} (first second : Prop × π) (rest : List (Prop × π)) :
    violated (first :: second :: rest) = violated [first] ++ violated (second :: rest) :=
  violated_append [first] (second :: rest)

/-- Problems may be reported in another way before or after they are found. -/
theorem violated_map {π ρ : Type} (f : π → ρ) (conditions : List (Prop × π)) :
    violated (conditions.map (Prod.map id f)) = (violated conditions).map f := by
  rw [violated, violated, filterMap_map, map_filterMap]
  congr 1
  funext condition
  by_cases h : condition.1 <;> simp [h]

/-- There is no problem exactly if all conditions hold. -/
theorem violated_eq_nil_iff {π : Type} {conditions : List (Prop × π)} :
    violated conditions = [] ↔ ∀ condition ∈ conditions, condition.1 := by
  simp [violated, filterMap_eq_nil_iff]

namespace Configuration

variable (members : List (String × Json)) (field : String)

/-- A member is a list of strings if it is there. -/
def MaybeStrings (value? : Option Json) : Prop :=
  ∃ patterns? : Option (List String), value? = patterns?.map .ofStrings

/-- What is to hold of a text that a step needs. -/
def textConditions : List (Prop × StepProblem) :=
  [(∃ text, members.lookup field = some (.string text), .missing field),
    (∀ text, members.lookup field = some (.string text) → ¬ IsBlankString text, .blank field)]

/-- What is to hold of a step, in the order of the checks. -/
def stepConditions : Json → List (Prop × StepProblem)
  | .object members => textConditions members "name" ++ textConditions members "plugin" ++
    [(∃ config, members.lookup "config" = some (.object config), .configNotObject),
      (∃ flag? : Option Bool, members.lookup "enabled" = flag?.map .bool, .enabledNotBoolean),
      (MaybeStrings (members.lookup "include"), .patterns "include" .notStrings),
      (MaybeStrings (members.lookup "exclude"), .patterns "exclude" .notStrings)]
  | _ => [(False, .notObject)]

/-- What is to hold of a document, in the order of the checks. -/
def conditions : Json → List (Prop × Problem)
  | .object members =>
    [(members.lookup "include" ≠ none, .missing "include"),
      (MaybeStrings (members.lookup "include"), .patterns "include" .notStrings),
      (members.lookup "include" ≠ some (.ofStrings []), .patterns "include" .empty)] ++
    [(MaybeStrings (members.lookup "exclude"), .patterns "exclude" .notStrings)] ++
    ([(members.lookup "migrations" ≠ none, .missing "migrations"),
      (members.lookup "migrations" ≠ some (.array []), .stepsEmpty),
      (∀ value, members.lookup "migrations" = some value → ∃ steps, value = .array steps,
        .stepsNotArray)] ++
    (((members.lookup "migrations").bind asArray?).getD []).zipIdx.flatMap
      fun (step, index) => (stepConditions step).map (Prod.map id (.step index)))
  | _ => [(False, .notObject)]

variable {members field}

/-! ## Checks -/

theorem maybeStrings_none : MaybeStrings none :=
  ⟨none, rfl⟩

/-- A member that is there is a list of strings if it can be taken for one. -/
theorem maybeStrings_some_iff {value : Json} :
    MaybeStrings (some value) ↔ ∃ patterns, value.asStrings? = some patterns := by
  simp only [asStrings?_eq_some_iff]
  constructor
  · rintro ⟨_ | patterns, h⟩
    · cases h
    · exact ⟨patterns, Option.some.inj h⟩
  · rintro ⟨patterns, rfl⟩
    exact ⟨some patterns, rfl⟩

/-- The check of a text finds the problems of its conditions. -/
theorem textProblem?_eq_violated :
    (textProblem? members field).toList = violated (textConditions members field) := by
  unfold textProblem? textConditions
  rcases members.lookup field with _ | value
  · simp [violated]
  cases value with
  | string text =>
    by_cases h : IsBlankString text <;>
      simp [violated, asString?, trimString_eq_empty_iff, h]
  | _ => simp [violated, asString?]

/-- The checks of a step find the problems of its conditions, in their order. -/
theorem stepProblems_eq_violated (step : Json) :
    stepProblems step = violated (stepConditions step) := by
  cases step with
  | object members =>
    have hconfig : (configProblem? members).toList = violated
        [(∃ config, members.lookup "config" = some (.object config), .configNotObject)] := by
      unfold configProblem?
      rcases members.lookup "config" with _ | value
      · simp [violated]
      · cases value <;> simp [violated, asObject?]
    have henabled : (enabledProblem? members).toList = violated
        [(∃ flag? : Option Bool, members.lookup "enabled" = flag?.map .bool,
          .enabledNotBoolean)] := by
      unfold enabledProblem?
      rcases members.lookup "enabled" with _ | value
      · simp [violated, eq_comm]
      · cases value <;> simp [violated, eq_comm]
    have hpatterns : ∀ field, (stepPatternProblem? members field).toList = violated
        [(MaybeStrings (members.lookup field), .patterns field .notStrings)] := by
      intro field
      unfold stepPatternProblem? patternProblem?
      cases members.lookup field with
      | none => simp [violated, maybeStrings_none]
      | some value =>
        rw [maybeStrings_some_iff, Option.bind_some]
        cases value.asStrings? <;> simp [violated]
    rw [stepProblems, filterMap_eq_flatMap_toList]
    simp only [flatMap_cons, flatMap_nil, id, textProblem?_eq_violated, hconfig, henabled,
      hpatterns, stepConditions, violated_append, violated_cons_cons, append_assoc, append_nil]
  | _ => simp [stepProblems, stepConditions, violated]

/-- The checks of the steps find the problems of each, with the number of the step. -/
theorem stepsProblems_eq_violated (start : Nat) (steps : List Json) :
    stepsProblems start steps = violated ((steps.zipIdx start).flatMap fun (step, index) =>
      (stepConditions step).map (Prod.map id (.step index))) := by
  induction steps generalizing start with
  | nil => rfl
  | cons step rest ih =>
    rw [stepsProblems, zipIdx_cons, flatMap_cons, violated_append, violated_map, ih,
      stepProblems_eq_violated]

/-- Validation finds the problems of the conditions that do not hold, in their order. -/
theorem problems_eq_violated (document : Json) :
    problems document = violated (conditions document) := by
  cases document with
  | object members =>
    rw [problems, conditions, violated_append, violated_append]
    congr 2
    · -- the patterns that are needed
      unfold patternsProblem? patternProblem?
      cases members.lookup "include" with
      | none => simp [violated, maybeStrings_none]
      | some value =>
        have hempty : value = .ofStrings [] ↔ value.asStrings? = some [] :=
          asStrings?_eq_some_iff.symm
        rw [maybeStrings_some_iff, Ne, Ne, Option.some_inj, hempty]
        dsimp only
        rcases value.asStrings? with _ | _ | _ <;> simp [violated]
    · -- the patterns that may be there
      unfold patternsProblem? patternProblem?
      cases members.lookup "exclude" with
      | none => simp [violated, maybeStrings_none]
      | some value =>
        rw [maybeStrings_some_iff]
        dsimp only
        cases value.asStrings? <;> simp [violated]
    · -- the steps
      rw [violated_append, ← stepsProblems_eq_violated]
      rcases members.lookup "migrations" with _ | value
      · simp [migrationProblems, violated, stepsProblems]
      cases value with
      | array steps => cases steps <;> simp [migrationProblems, violated, stepsProblems, asArray?]
      | _ => simp [migrationProblems, violated, stepsProblems, asArray?]
  | _ => simp [problems, conditions, violated]

/-! ## Documents without problems -/

/-- A step without problems has the members of a sound step. -/
theorem stepConditions_iff {document : Json} :
    (∀ condition ∈ stepConditions document, condition.1) ↔ ∃ members, document = .object members ∧
      ∃ step : MigrationStep, step.Written members ∧ step.Sound := by
  cases document with
  | object members =>
    simp only [stepConditions, textConditions, forall_mem_append, forall_mem_cons]
    constructor
    · rintro ⟨⟨⟨⟨name, hname⟩, hnamed, -⟩, ⟨plugin, hplugin⟩, hplugged, -⟩, ⟨config, hconfig⟩,
        ⟨enabled, henabled⟩, ⟨includes, hincludes⟩, ⟨excludes, hexcludes⟩, -⟩
      exact ⟨members, rfl, ⟨name, plugin, .object config, includes, excludes, enabled⟩,
        ⟨hname, hplugin, hconfig, hincludes, hexcludes, henabled⟩, hnamed name hname,
        hplugged plugin hplugin, config, rfl⟩
    · rintro ⟨_, ⟨⟩, step, hwritten, hname, hplugin, config, hconfig⟩
      have hblank : ∀ {field text}, members.lookup field = some (.string text) →
          ¬ IsBlankString text → ∀ other, members.lookup field = some (.string other) →
            ¬ IsBlankString other := by grind
      exact ⟨⟨⟨⟨_, hwritten.name⟩, hblank hwritten.name hname, forall_mem_nil _⟩,
        ⟨_, hwritten.plugin⟩, hblank hwritten.plugin hplugin, forall_mem_nil _⟩,
        ⟨config, hconfig ▸ hwritten.config⟩, ⟨_, hwritten.enabled⟩, ⟨_, hwritten.includes⟩,
        ⟨_, hwritten.excludes⟩, forall_mem_nil _⟩
  | _ => simp [stepConditions]

end Configuration

/-! ## Reading and writing -/

namespace MigrationStep

/-- A step is read from the members that it is written with. -/
theorem Written.ofJson? {step : MigrationStep} {members : List (String × Json)}
    (h : step.Written members) : ofJson? (.object members) = some step := by
  have hstrings : ∀ strings? : Option (List String),
      optional? asStrings? (strings?.map .ofStrings) = some strings? := by
    rintro (_ | strings)
    · rfl
    · exact congrArg (Option.map some) (asStrings?_ofStrings strings)
  have henabled : optional? asBool? (step.enabled.map .bool) = some step.enabled := by
    cases step.enabled <;> rfl
  simp [MigrationStep.ofJson?, asRecord?, h.name, h.plugin, h.config, h.includes, h.excludes,
    h.enabled, asString?, hstrings, henabled]

/-- A step is written with its members. -/
theorem written_toJson (step : MigrationStep) :
    ∃ members, step.toJson = .object members ∧ step.Written members := by
  obtain ⟨name, plugin, config, includes, excludes, enabled⟩ := step
  refine ⟨_, rfl, ?_⟩
  cases includes <;> cases excludes <;> cases enabled <;> exact ⟨rfl, rfl, rfl, rfl, rfl, rfl⟩

end MigrationStep

namespace Configuration

/-- The conditions of a step that is written hold if the step has what it needs. -/
theorem stepConditions_toJson_iff (step : MigrationStep) :
    (∀ condition ∈ stepConditions step.toJson, condition.1) ↔ step.Sound := by
  obtain ⟨members, hmembers, hwritten⟩ := step.written_toJson
  rw [stepConditions_iff]
  constructor
  · rintro ⟨_, hother, other, hread, hsound⟩
    obtain rfl := object.inj (hmembers.symm.trans hother)
    exact Option.some.inj (hwritten.ofJson?.symm.trans hread.ofJson?) ▸ hsound
  · exact fun hsound => ⟨members, hmembers, step, hwritten, hsound⟩

/-- A document is valid exactly if all conditions hold of it. -/
theorem validate_eq_ok_iff {document : Json} :
    validate document = .ok () ↔ ∀ condition ∈ conditions document, condition.1 := by
  rw [← violated_eq_nil_iff, ← problems_eq_violated]
  unfold validate
  split
  next h => exact iff_of_true rfl h
  next h => exact iff_of_false (by simp) h

/-- The conditions of a document hold exactly if it has patterns, may have others, and has steps of
which the conditions hold. -/
theorem forall_mem_conditions_iff {members : List (String × Json)} :
    (∀ condition ∈ conditions (.object members), condition.1) ↔
      (members.lookup "include" ≠ some (.ofStrings []) ∧
        ∃ includes, members.lookup "include" = some (.ofStrings includes)) ∧
      MaybeStrings (members.lookup "exclude") ∧
      members.lookup "migrations" ≠ some (.array []) ∧
      ∃ steps, members.lookup "migrations" = some (.array steps) ∧
        ∀ step ∈ steps, ∀ condition ∈ stepConditions step, condition.1 := by
  have hsteps : ∀ steps : List Json, (∀ condition ∈ steps.zipIdx.flatMap (fun (step, index) =>
      (stepConditions step).map (Prod.map id (Problem.step index))), condition.1) ↔
      ∀ step ∈ steps, ∀ condition ∈ stepConditions step, condition.1 := by
    intro steps
    conv_rhs => rw [← zipIdx_map_fst 0 steps]
    simp only [forall_mem_flatMap, forall_mem_map, Prod.map_fst, id]
  simp only [conditions, forall_mem_append, forall_mem_cons, hsteps]
  constructor
  · rintro ⟨⟨⟨hinclude, ⟨_ | includes, hincludes⟩, hnonempty, -⟩, hexclude, -⟩,
      ⟨hmigrations, hne, harray, -⟩, hall⟩
    · exact absurd hincludes hinclude
    · obtain ⟨value, hvalue⟩ := Option.ne_none_iff_exists'.mp hmigrations
      obtain ⟨steps, rfl⟩ := harray value hvalue
      rw [hvalue] at hall
      exact ⟨⟨hnonempty, includes, hincludes⟩, hexclude, hne, steps, hvalue, hall⟩
  · rintro ⟨⟨hnonempty, includes, hincludes⟩, hexclude, hne, steps, hvalue, hall⟩
    rw [hvalue] at hne
    rw [hincludes] at hnonempty
    rw [hincludes, hvalue]
    exact ⟨⟨⟨by simp, ⟨some includes, rfl⟩, hnonempty, forall_mem_nil _⟩, hexclude,
      forall_mem_nil _⟩, ⟨by simp, hne, by simp, forall_mem_nil _⟩, hall⟩

/-- A valid document is read. -/
theorem exists_ofJson?_of_validate {document : Json} (h : validate document = .ok ()) :
    ∃ configuration, ofJson? document = some configuration := by
  rw [validate_eq_ok_iff] at h
  cases document with
  | object members =>
    obtain ⟨⟨-, includes, hincludes⟩, ⟨excludes?, hexcludes⟩, -, documents, hdocuments, hsteps⟩ :=
      forall_mem_conditions_iff.mp h
    have hread : ∀ document ∈ documents, ∃ step, MigrationStep.ofJson? document = some step := by
      intro document hdocument
      obtain ⟨members, rfl, step, hwritten, -⟩ := stepConditions_iff.mp (hsteps document hdocument)
      exact ⟨step, hwritten.ofJson?⟩
    obtain ⟨steps, hsteps⟩ := exists_forall₂_iff_forall.mpr hread
    cases excludes? <;>
      simp [ofJson?, asRecord?, hincludes, hexcludes, hdocuments, asStrings?_ofStrings,
        excludesOf?, asArray?, mapM_eq_some_iff.mpr hsteps]
  | _ => exact (h (False, .notObject) mem_cons_self).elim

variable (configuration : Configuration)

/-- A configuration that is written is read back. -/
theorem ofJson?_toJson : ofJson? configuration.toJson = some configuration := by
  have hsteps : (configuration.steps.map MigrationStep.toJson).mapM MigrationStep.ofJson? =
      some configuration.steps := by
    rw [mapM_eq_some_iff, forall₂_map_left_iff, forall₂_same]
    intro step _
    obtain ⟨members, hmembers, hwritten⟩ := step.written_toJson
    rw [hmembers, hwritten.ofJson?]
  simp [ofJson?, toJson, asRecord?, lookup_cons, asStrings?_ofStrings, excludesOf?,
    asArray?, hsteps]

/-- A configuration that is written is valid exactly if it names files and steps and its steps have
what they need. -/
theorem validate_toJson_iff : validate configuration.toJson = .ok () ↔
    configuration.includes ≠ [] ∧ configuration.steps ≠ [] ∧
      ∀ step ∈ configuration.steps, step.Sound := by
  have hsteps : (∀ document ∈ configuration.steps.map MigrationStep.toJson,
      ∀ condition ∈ stepConditions document, condition.1) ↔
      ∀ step ∈ configuration.steps, step.Sound := by
    simp only [forall_mem_map, stepConditions_toJson_iff]
  rw [validate_eq_ok_iff, toJson, forall_mem_conditions_iff, ← hsteps]
  have hexcludes : MaybeStrings (some (.array (configuration.excludes.map .string))) :=
    ⟨some configuration.excludes, rfl⟩
  simp [lookup_cons, ofStrings, hexcludes]

/-- Validation and reading agree on all documents. A valid document is read, so that none is found
malformed after it. A configuration that is written is read back, and it is valid if it names files
and steps and its steps have what they need. Where validation fails it tells of every condition that
does not hold, of each once and in the order of the checks. -/
theorem validate_agrees :
    (∀ document, validate document = .ok () → ∃ configuration,
      ofJson? document = some configuration ∧
      ∀ path, ofDocument path document = .ok configuration) ∧
    (∀ configuration : Configuration, ofJson? configuration.toJson = some configuration ∧
      (validate configuration.toJson = .ok () ↔
        configuration.includes ≠ [] ∧ configuration.steps ≠ [] ∧
        ∀ step ∈ configuration.steps, ¬ IsBlankString step.name ∧ ¬ IsBlankString step.plugin ∧
          ∃ members, step.config = .object members)) ∧
    ∀ document error, validate document = .error error →
      let messages := (violated (conditions document)).map Problem.message
      error.cause = .configInvalid "config" none
        (Problems.render "Invalid configuration" messages) (some messages) := by
  refine ⟨?read, ?written, ?problems⟩
  case read =>
    intro document h
    obtain ⟨configuration, hread⟩ := exists_ofJson?_of_validate h
    refine ⟨configuration, hread, fun path => ?_⟩
    rw [ofDocument, hread]
  case written =>
    exact fun configuration => ⟨configuration.ofJson?_toJson, configuration.validate_toJson_iff⟩
  case problems =>
    intro document error h
    rw [← problems_eq_violated]
    unfold validate at h
    split at h
    · cases h
    · cases h
      rfl

end Configuration

end Restyle
