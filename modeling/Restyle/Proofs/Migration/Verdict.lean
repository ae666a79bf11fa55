import Restyle.Interaction.Script
import Restyle.Proofs.Migration.Conversation

/-!
# Resolutions by verdict

What a resolution makes of a file by asking is what it makes of it by a table without choices: the
one in which every choice has given way to its answer, and every choice that was skipped or never
made to the token itself (`Resolution.resolveFile_pinned`). Where no question may be asked there is
no error, and all that is done to the session is to log (`Resolution.tryResolve_quiet`).
-/

namespace Restyle

open Dialogue List

/-! ## Pinned tables -/

/-- What stands for a topic: its answer, or the token if it is skipped or not settled. -/
def Answers.verdict (answers : Answers) (topic : Topic) : Text :=
  (answers.find? topic).join.getD topic.token

variable (pick : Topic → Text) (token : Text)

/-- The replacement without a choice, for which a text is picked. -/
def Replacement.pin : Replacement → Replacement
  | .one text => .one text
  | .choice candidates => .one (pick ⟨token, candidates⟩)

/-- The clause without a choice, for the same properties. -/
def Clause.pin (clause : Clause) : Clause :=
  { clause with replacement := clause.replacement.pin pick token }

/-- The mapping without choices. -/
def Mapping.pin : Mapping → Mapping
  | .plain replacement => .plain replacement
  | .conditional clauses => .conditional (clauses.map (Clause.pin pick token))

/-- The entry without choices. -/
def Entry.pin (entry : Entry) : Entry :=
  { entry with mapping := entry.mapping.pin pick entry.token }

/-- The table without choices. -/
def Table.pin (table : Table) : Table :=
  table.map (Entry.pin pick)

/-- The clause that decides is the same without choices. -/
theorem Mapping.replacementIn?_pin (mapping : Mapping) (property : Text) :
    (mapping.pin pick token).replacementIn? property =
      (mapping.replacementIn? property).map (Replacement.pin pick token) := by
  cases mapping with
  | plain replacement => rfl
  | conditional clauses =>
    unfold Mapping.pin Mapping.replacementIn?
    simp only
    induction clauses with
    | nil => rfl
    | cons clause clauses ih =>
      have hcovers : (clause.pin pick token).covers property = clause.covers property := rfl
      rw [map_cons, find?_cons, find?_cons, hcovers]
      cases clause.covers property with
      | true => rfl
      | false => exact ih

theorem Table.filter_pin (condition : Text → Bool) (table : Table) :
    (table.pin pick).filter (fun entry => condition entry.token) =
      Table.pin pick (table.filter fun entry => condition entry.token) := by
  unfold Table.pin
  rw [filter_map]
  rfl

/-! ## Dialogues and their pinned twins -/

/-- Answers may have been added, but only if questions may be asked. -/
structure Answers.GrowsTo (mayAsk : Bool) (earlier later : Answers) : Prop where
  kept : earlier.entries <+: later.entries
  quiet : mayAsk = false → later = earlier

theorem Answers.GrowsTo.trans {mayAsk : Bool} {earlier middle later : Answers}
    (hfirst : earlier.GrowsTo mayAsk middle) (hsecond : middle.GrowsTo mayAsk later) :
    earlier.GrowsTo mayAsk later :=
  ⟨hfirst.kept.trans hsecond.kept, fun hask => (hsecond.quiet hask).trans (hfirst.quiet hask)⟩

namespace Dialogue

open Session (Path)

variable {σ τ α β : Type}

/-- The answers grow along an orderly conversation. -/
theorem Orderly.growsTo {interaction : Interaction σ} {mayAsk failed : Bool} {events : List Event}
    {before after : Session σ} (h : Orderly mayAsk failed events)
    (hpath : Path interaction before events after) :
    before.answers.GrowsTo mayAsk after.answers := by
  refine ⟨⟨_, hpath.entries.symm⟩, fun hask => ?_⟩
  obtain ⟨lines, rfl⟩ := hpath.eq_hear (h.quiet hask)
  rfl

/-- The dialogue that has the outcome and leaves the session alone. -/
def ofOutcome (outcome : Except Halt α) : Dialogue σ α :=
  ExceptT.mk (pure outcome)

@[simp] theorem ofOutcome_ok (value : α) : (ofOutcome (.ok value) : Dialogue σ α) = pure value :=
  rfl

@[simp] theorem ofOutcome_error (halt : Halt) :
    (ofOutcome (.error halt) : Dialogue σ α) = throw halt :=
  rfl

/-- The dialogue is orderly, and whatever outcome it has, unless it is an error, is the outcome of
its twin, which is pinned to answers that the session may still grow to. -/
structure Follows (interaction : Interaction σ) (mayAsk : Bool) (dialogue : Dialogue σ α)
    (twin : Answers → Dialogue τ α) : Prop where
  converses : Converses interaction (.orderly mayAsk) dialogue
  agrees : ∀ before outcome after final, dialogue.run.run before = (outcome, after) →
    hasFailed outcome = false → after.answers.GrowsTo mayAsk final → twin final = ofOutcome outcome

namespace Follows

variable {interaction : Interaction σ} {mayAsk : Bool}

theorem ofOutcome {outcome : Except Halt α} (h : hasFailed outcome = false) :
    Follows interaction mayAsk (Dialogue.ofOutcome outcome)
      fun _ => (Dialogue.ofOutcome outcome : Dialogue τ α) := by
  refine ⟨fun before result after hrun => ?_, fun before result after final hrun _ _ => ?_⟩
  · cases hrun
    exact ⟨[], .nil before, h ▸ Manner.nil _⟩
  · cases hrun
    rfl

theorem pure (value : α) :
    Follows interaction mayAsk (Pure.pure value) fun _ => (Pure.pure value : Dialogue τ α) :=
  ofOutcome rfl

theorem bind {dialogue : Dialogue σ α} {twin : Answers → Dialogue τ α} {next : α → Dialogue σ β}
    {nextTwin : Answers → α → Dialogue τ β} (hfirst : Follows interaction mayAsk dialogue twin)
    (hnext : ∀ value, Follows interaction mayAsk (next value) fun final => nextTwin final value) :
    Follows interaction mayAsk (dialogue >>= next) fun final => twin final >>= nextTwin final := by
  refine ⟨hfirst.converses.bind fun value => (hnext value).converses, ?_⟩
  intro before outcome after final hrun hok hgrows
  rw [run_bind] at hrun
  rcases hdialogue : dialogue.run.run before with ⟨first, middle⟩
  rw [hdialogue] at hrun
  cases first with
  | error halt =>
    cases hrun
    rw [hfirst.agrees _ _ _ final hdialogue (by cases halt <;> exact hok) hgrows]
    rfl
  | ok value =>
    obtain ⟨events, hpath, hevents⟩ := (hnext value).converses _ _ _ hrun
    -- The final answers are a continuation of those in the middle, so both twins agree with them.
    have hmiddle := (Orderly.growsTo hevents hpath).trans hgrows
    rw [hfirst.agrees _ _ _ final hdialogue rfl hmiddle]
    exact (hnext value).agrees _ _ _ final hrun hok hgrows

theorem foldlM {items : List α} {step : β → α → Dialogue σ β}
    {stepTwin : Answers → β → α → Dialogue τ β}
    (hstep : ∀ state item,
      Follows interaction mayAsk (step state item) fun final => stepTwin final state item)
    (state : β) : Follows interaction mayAsk (items.foldlM step state)
      fun final => items.foldlM (stepTwin final) state := by
  induction items generalizing state with
  | nil => exact pure state
  | cons item items ih =>
    simp only [foldlM_cons]
    exact (hstep state item).bind fun next => ih next

end Follows

end Dialogue

namespace Resolution

open Dialogue (Follows Converses Orderly Yields)

variable {σ τ : Type} (interaction : Interaction σ) (other : Interaction τ)
  (context context' : Context) (text : Text) (dialect : Dialect) (entry : Entry) (table : Table)
  (target : Target) (changes : List Change)

/-- What a choice returns is the verdict on its topic. -/
theorem choose_verdict {topic : Topic} {property : Text} {offset : Nat} {before after : Session σ}
    {choice : Choice} {final : Answers}
    (h : Yields (choose interaction context text topic property offset) before choice after)
    (hgrows : after.answers.GrowsTo context.interactive final) :
    final.verdict topic = choice.getD topic.token := by
  have hfound : ∀ answer, after.answers.find? topic = some answer →
      final.verdict topic = answer.getD topic.token := by
    intro answer hfind
    rw [Answers.verdict, Answers.find?_of_extends hgrows.kept hfind]
    rfl
  obtain ⟨answer, message, hfind, houtcome, rfl⟩ | ⟨hopen, hask, houtcome, message, rfl⟩ |
    ⟨hopen, -, answer, state, lines, -, -, houtcome, rfl⟩ |
    ⟨-, -, -, -, error, -, -, houtcome, -⟩ := choose_cases h
  · cases houtcome
    exact hfound choice hfind
  · cases houtcome
    rw [hgrows.quiet hask]
    change (before.answers.find? topic).join.getD topic.token = topic.token
    rw [hopen]
    rfl
  · cases houtcome
    exact hfound choice (Answers.find?_insert hopen choice)
  · cases houtcome

/-- What replaces a token, or the token itself. -/
def replacementOrToken (interaction : Interaction σ) (context : Context) (text : Text)
    (entry : Entry) (property : Text) (offset : Nat) : Dialogue σ Text :=
  replacementFor interaction context text entry property offset >>= fun replacement =>
    pure (replacement.getD entry.token)

/-- What is done only where something else replaces a token is done by what replaces it or
itself. -/
theorem replacementFor_bind {α : Type} (property : Text) (offset : Nat) (same : α)
    (change : Text → Dialogue σ α) :
    (replacementFor interaction context text entry property offset >>= fun
      | none => pure same
      | some replacement =>
        if replacement == entry.token then pure same else change replacement) =
      replacementOrToken interaction context text entry property offset >>= fun replacement =>
        if replacement == entry.token then pure same else change replacement := by
  rw [replacementOrToken, bind_assoc]
  congr 1
  funext replacement
  rw [pure_bind]
  cases replacement with
  | none => simp
  | some replacement => rfl

/-- What replaces a token is found in the pinned entry. -/
theorem replacementOrToken_follows (property : Text) (offset : Nat) :
    Follows interaction context.interactive
      (replacementOrToken interaction context text entry property offset) fun final =>
        replacementOrToken other context' text (entry.pin final.verdict) property offset := by
  unfold replacementOrToken replacementFor Entry.pin
  simp only [Mapping.replacementIn?_pin]
  cases entry.mapping.replacementIn? property with
  | none => exact Follows.pure entry.token
  | some replacement =>
    cases replacement with
    | one text => exact Follows.pure text
    | choice candidates =>
      refine ⟨(choose_converses interaction context text _ property offset).bind
        fun _ => Converses.pure _, ?_⟩
      intro before outcome after final hrun hok hgrows
      rw [run_bind] at hrun
      rcases hchoose : (choose interaction context text ⟨entry.token, candidates⟩ property
        offset).run.run before with ⟨choice | choice, middle⟩
      · rw [hchoose] at hrun
        cases hrun
        obtain ⟨_, _, _, hchoice, -⟩ | ⟨_, _, hchoice, -⟩ | ⟨_, _, _, _, _, _, _, hchoice, -⟩ |
          ⟨_, _, _, _, _, _, _, hchoice, -⟩ := choose_cases hchoose
        all_goals cases hchoice
        cases hok
      · rw [hchoose] at hrun
        cases hrun
        rw [← choose_verdict interaction context text hchoose hgrows]
        rfl

/-- A target in which a token is replaced, with the change recorded. Nothing happens where the token
is to replace itself. -/
def replaceIn (dialect : Dialect) (token : Text) (target : Target) (changes : List Change)
    (replacement : Text) : Except Halt (Target × List Change) :=
  if replacement == token then .ok (target, changes)
  else match Value.replaceText? dialect target.working token replacement with
    | none => .error .panic
    | some working => .ok ({ target with working }, Change.record token replacement
        (Token.count token (dialect.stripComments target.working)) changes)

/-- A value is resolved by what replaces the token in it. -/
theorem resolveValue_eq :
    resolveValue interaction context text dialect entry target changes =
      if Token.occursIn entry.token (dialect.stripComments target.working) then
        replacementOrToken interaction context text entry target.name
          (occurrenceOffset dialect target entry.token) >>= fun replacement =>
            ofOutcome (replaceIn dialect entry.token target changes replacement)
      else pure (target, changes) := by
  unfold resolveValue
  simp only
  split
  · refine (replacementFor_bind ..).trans (bind_congr fun replacement => ?_)
    unfold replaceIn
    split
    · rfl
    · cases Value.replaceText? dialect target.working entry.token replacement <;> rfl
  · rfl

/-- The parts in which a token is replaced, with the change recorded. -/
def replaceInParts (dialect : Dialect) (token : Text) (parts : List WorkingPart)
    (changes : List Change) (count : Nat) (replacement : Text) : List WorkingPart × List Change :=
  if replacement == token then (parts, changes)
  else (parts.map (WorkingPart.replace dialect token replacement),
    Change.record token replacement count changes)

/-- Parts are resolved by what replaces the token in them. -/
theorem resolveParts_eq (target : Target) (entry : Entry) (parts : List WorkingPart)
    (changes : List Change) :
    resolveParts interaction context text dialect target entry parts changes =
      let count := parts.foldr (fun part sum => part.count dialect entry.token + sum) 0
      if count == 0 then pure (parts, changes)
      else replacementOrToken interaction context text entry target.name
        (occurrenceOffset dialect target entry.token) >>= fun replacement =>
          pure (replaceInParts dialect entry.token parts changes count replacement) := by
  unfold resolveParts
  simp only
  split
  · rfl
  · refine (replacementFor_bind ..).trans (bind_congr fun replacement => ?_)
    unfold replaceInParts
    split <;> rfl

theorem resolveValue_follows :
    Follows interaction context.interactive
      (resolveValue interaction context text dialect entry target changes) fun final =>
        resolveValue other context' text dialect (entry.pin final.verdict) target changes := by
  simp only [resolveValue_eq, Entry.pin]
  split
  · refine (replacementOrToken_follows ..).bind fun replacement => Follows.ofOutcome ?_
    unfold replaceIn
    repeat' split
    all_goals rfl
  · exact Follows.pure _

theorem resolveParts_follows (target : Target) (entry : Entry) (parts : List WorkingPart)
    (changes : List Change) :
    Follows interaction context.interactive
      (resolveParts interaction context text dialect target entry parts changes) fun final =>
        resolveParts other context' text dialect target (entry.pin final.verdict)
          parts changes := by
  simp only [resolveParts_eq, Entry.pin]
  split
  · exact Follows.pure _
  · exact (replacementOrToken_follows ..).bind fun replacement => Follows.pure _

theorem resolveWhole_follows :
    Follows interaction context.interactive
      (resolveWhole interaction context text dialect table target changes) fun final =>
        resolveWhole other context' text dialect (table.pin final.verdict) target changes := by
  unfold resolveWhole Table.pin
  simp only [foldlM_map]
  exact Follows.foldlM (fun state entry =>
    resolveValue_follows ..) _

theorem resolveComposite_follows :
    Follows interaction context.interactive
      (resolveComposite interaction context text dialect table target changes) fun final =>
        resolveComposite other context' text dialect (table.pin final.verdict) target changes := by
  unfold resolveComposite
  simp only [Table.filter_pin]
  refine (resolveWhole_follows ..).bind ?_
  rintro ⟨whole, changes'⟩
  have hparts : ∀ (entries : Table) (parts : List WorkingPart),
      Follows interaction context.interactive (entries.foldlM (fun state entry =>
          resolveParts interaction context text dialect whole entry state.1 state.2)
          (parts, changes'))
        fun final => (entries.pin final.verdict).foldlM (fun state entry =>
          resolveParts other context' text dialect whole entry state.1 state.2)
          (parts, changes') := by
    intro entries parts
    unfold Table.pin
    simp only [foldlM_map]
    exact Follows.foldlM (fun state entry =>
      resolveParts_follows ..) _
  -- Pinning keeps the tokens, so the same entries go to the parts.
  have hfilter := fun final : Answers =>
    Table.filter_pin final.verdict (fun token => !spansParts token) table
  simp only [hfilter]
  exact (hparts _ _).bind fun state => Follows.pure _

/-- Steps on targets go as their twins do. -/
theorem onTargets_follows {mayAsk : Bool} {condition : Target → Bool}
    {step : Target → List Change → Dialogue σ (Target × List Change)}
    {twin : Answers → Target → List Change → Dialogue τ (Target × List Change)}
    (hstep : ∀ target changes,
      Follows interaction mayAsk (step target changes) fun final => twin final target changes)
    (targets : List Target) (changes : List Change) :
    Follows interaction mayAsk (onTargets condition step targets changes)
      fun final => onTargets condition (twin final) targets changes := by
  induction targets generalizing changes with
  | nil => exact Follows.pure _
  | cons target rest ih =>
    simp only [onTargets_cons]
    refine Follows.bind ?_ fun first => (ih first.2).bind fun others => Follows.pure _
    split
    · exact hstep target changes
    · exact Follows.pure _

/-- The targets of a file are resolved as by the pinned table. -/
theorem resolveTargets_follows (hpath : context'.path = context.path) (table : Table)
    (targets : List Target) :
    Follows interaction context.interactive
      (resolveTargets interaction context text table targets) fun final =>
        resolveTargets other context' text (table.pin final.verdict) targets := by
  unfold resolveTargets
  simp only [hpath]
  refine (onTargets_follows interaction
    (resolveComposite_follows interaction other context context' text _ table) targets []).bind ?_
  rintro ⟨targets', changes⟩
  unfold Table.pin
  simp only [foldlM_map]
  exact Follows.foldlM (fun state entry => onTargets_follows interaction
    (resolveValue_follows interaction other context context' text _ entry) state.1 state.2) _

/-- A resolution goes as by the pinned table. -/
theorem tryResolve_follows (hpath : context'.path = context.path) (table : Table)
    (rules : List Rule) :
    Follows interaction context.interactive
      (tryResolve interaction context table rules text) fun final =>
        tryResolve other context' (table.pin final.verdict) rules text :=
  (resolveTargets_follows interaction other context context' text hpath table _).bind
    fun _ => Follows.pure _

variable {interaction context text}

/-- Whatever a resolution that does not fail makes of a file, whoever answers, is what the table
makes of it in which all choices have given way to the verdicts on them. -/
theorem resolveFile_pinned {table : Table} {before after : Session σ}
    {outcome : Except Halt Resolution}
    (h : (tryResolve interaction context table (Source.rules context.path text) text).run.run
      before = (outcome, after)) (hok : hasFailed outcome = false)
    (hpath : context'.path = context.path) :
    resolveFile other context' (table.pin after.answers.verdict) text =
      ofOutcome outcome := by
  have htwin := (tryResolve_follows interaction other context context' text hpath table
    (Source.rules context.path text)).agrees before outcome after after.answers h hok
    ⟨prefix_refl _, fun _ => rfl⟩
  unfold resolveFile resolve
  rw [hpath, htwin]
  rcases outcome with (error | _) | resolution
  · cases hok
  all_goals rfl

/-- A resolution is orderly: it fails where a question does and nowhere else. -/
theorem tryResolve_converses (interaction : Interaction σ) (context : Context) (table : Table)
    (rules : List Rule) (text : Text) :
    Converses interaction (.orderly context.interactive)
      (tryResolve interaction context table rules text) :=
  (tryResolve_follows interaction interaction context context text rfl table rules).converses

/-- A resolution that may not ask does not fail, and all it does to the session is to log. -/
theorem tryResolve_quiet (h : context.interactive = false) (table : Table) (rules : List Rule)
    (before : Session σ) : ∃ outcome lines,
      (tryResolve interaction context table rules text).run.run before =
        (outcome, before.hear interaction lines) ∧ hasFailed outcome = false := by
  rcases hrun : (tryResolve interaction context table rules text).run.run before with
    ⟨outcome, after⟩
  obtain ⟨events, hpath, hevents⟩ :=
    tryResolve_converses interaction context table rules text before outcome after hrun
  have hquiet := hevents.quiet h
  obtain ⟨lines, rfl⟩ := hpath.eq_hear hquiet
  refine ⟨outcome, lines, rfl, Bool.eq_false_iff.mpr fun hfailed => ?_⟩
  -- A failure would be that of a question.
  obtain ⟨earlier, topic, question, rfl, -⟩ := hevents.failure hfailed
  have hasked := hquiet (.failed topic question) (by simp)
  cases hasked

end Resolution

end Restyle
