import Restyle.Migration.Resolution

/-!
# Conversations

`Dialogue.Yields` says how a dialogue runs from one session to another, with a rule for each of
`pure`, `bind` and `tryCatch`. A session goes on by log lines, by answers that settle a topic and by
questions that fail. Each is an `Event`, and `Session.Path` says that a list of events leads from
one session to another. A path asks only about topics that are not settled
(`Session.Path.unsettled`) and settles each of them once (`Session.Path.settles_once`).
`Dialogue.Converses` says that whatever a dialogue does to a session is such a path.
-/

namespace Restyle

/-- Nobody to talk to: questions are skipped and log lines dropped. -/
def Interaction.silent : Interaction Unit where
  isInteractive := false
  ask _ state := (.ok none, state)
  log _ _ state := state

/-- A session with nobody in which nothing is settled. -/
def Session.silent : Session Unit :=
  ⟨{}, ()⟩

namespace Dialogue

variable {σ α β : Type}

/-- The dialogue runs from one session to another and returns the value. -/
def Yields (dialogue : Dialogue σ α) (before : Session σ) (value : α) (after : Session σ) : Prop :=
  dialogue.run.run before = (.ok value, after)

variable {before after : Session σ} (dialogue : Dialogue σ α)

theorem yields_pure {value result : α} :
    Yields (pure value) before result after ↔ value = result ∧ before = after := by
  constructor
  · intro h
    obtain ⟨hvalue, hsession⟩ := Prod.mk.inj h
    exact ⟨Except.ok.inj hvalue, hsession⟩
  · rintro ⟨rfl, rfl⟩
    rfl

theorem run_bind (next : α → Dialogue σ β) (before : Session σ) :
    (dialogue >>= next).run.run before =
      match dialogue.run.run before with
      | (.ok value, middle) => (next value).run.run middle
      | (.error halt, middle) => (.error halt, middle) := by
  change (ExceptT.bindCont next (dialogue.run.run before).1).run (dialogue.run.run before).2 = _
  rcases hdialogue : dialogue.run.run before with ⟨outcome, middle⟩
  cases outcome <;> rfl

/-- A dialogue and what follows it return if both do, one after the other. -/
theorem yields_bind {dialogue : Dialogue σ α} {next : α → Dialogue σ β} {result : β} :
    Yields (dialogue >>= next) before result after ↔
      ∃ value middle, Yields dialogue before value middle ∧
        Yields (next value) middle result after := by
  unfold Yields
  rw [run_bind]
  rcases dialogue.run.run before with ⟨outcome, middle⟩
  cases outcome with
  | ok value =>
    constructor
    · exact fun h => ⟨value, middle, rfl, h⟩
    · rintro ⟨_, _, hfirst, hnext⟩
      obtain ⟨hvalue, rfl⟩ := Prod.mk.inj hfirst
      exact Except.ok.inj hvalue ▸ hnext
  | error halt =>
    constructor
    · intro h
      cases (Prod.mk.inj h).1
    · rintro ⟨_, _, hfirst, -⟩
      cases (Prod.mk.inj hfirst).1

/-- What halts a dialogue is caught where it happens. -/
theorem run_tryCatch (handler : Halt → Dialogue σ α) (before : Session σ) :
    (tryCatchThe Halt dialogue handler).run.run before =
      match dialogue.run.run before with
      | (.ok value, after) => (.ok value, after)
      | (.error halt, middle) => (handler halt).run.run middle := by
  simp only [tryCatchThe, MonadExceptOf.tryCatch, ExceptT.tryCatch, ExceptT.run_mk, StateT.run_bind]
  rcases hdialogue : dialogue.run.run before with ⟨outcome, middle⟩
  change StateT.run dialogue before = _ at hdialogue
  rw [hdialogue]
  cases outcome <;> rfl

end Dialogue

namespace Resolution

/-- A step on targets goes to the first and then to the others. -/
theorem onTargets_cons {σ : Type} (condition : Target → Bool)
    (step : Target → List Change → Dialogue σ (Target × List Change)) (target : Target)
    (rest : List Target) (changes : List Change) :
    onTargets condition step (target :: rest) changes =
      (if condition target then step target changes else pure (target, changes)) >>= fun first =>
        onTargets condition step rest first.2 >>= fun others =>
          pure (first.1 :: others.1, others.2) := by
  rw [onTargets]
  split <;> rfl

variable {σ : Type} {interaction : Interaction σ} {context : Context} {table : Table} {text : Text}
  {before after : Session σ} {resolution : Resolution}

/-- The targets that a resolution ends with, and its data as they fill it. -/
theorem tryResolve_targets
    (h : (tryResolve interaction context table (Source.rules context.path text) text).run.run
      before = (.ok resolution, after)) :
    ∃ targets, (resolveTargets interaction context text table
        (Target.ofRules text (Source.rules context.path text))).run.run before =
        (.ok (targets, resolution.changes), after) ∧
      resolution.data = Target.apply targets text := by
  obtain ⟨⟨targets, changes⟩, middle, htargets, hresult⟩ := Dialogue.yields_bind.mp h
  obtain ⟨rfl, rfl⟩ := Dialogue.yields_pure.mp hresult
  exact ⟨targets, htargets, rfl⟩

end Resolution

open Dialogue List

/-! ## Answers -/

/-- The choice is a skip or one of the topic's candidates. -/
def Topic.Admits (topic : Topic) (choice : Choice) : Prop :=
  ∀ value, choice = some value → value ∈ topic.candidates

namespace Answers

variable {answers earlier later : Answers} {topic : Topic} {choice : Choice}

theorem insert_entries (h : answers.find? topic = none) (choice : Choice) :
    (answers.insert topic choice).entries = answers.entries ++ [(topic, choice)] := by
  rw [insert, h]

theorem find?_of_extends (hextends : earlier.entries <+: later.entries)
    (h : earlier.find? topic = some choice) : later.find? topic = some choice := by
  obtain ⟨added, hadded⟩ := hextends
  unfold find? at h ⊢
  rw [← hadded, lookup_append, h]
  rfl

theorem find?_insert (h : answers.find? topic = none) (choice : Choice) :
    (answers.insert topic choice).find? topic = some choice := by
  unfold find? at h ⊢
  rw [insert_entries h, lookup_append, h]
  simp

theorem mem_of_find? (h : answers.find? topic = some choice) :
    (topic, choice) ∈ answers.entries := by
  obtain ⟨before, after, hsplit, -⟩ := lookup_eq_some_iff.mp h
  rw [hsplit]
  simp

end Answers

/-! ## Events -/

/-- Something that happens to a session. -/
inductive Event where
  /-- A line is logged. -/
  | said (level : Level) (message : String)
  /-- A question is asked, and its answer settles the topic. -/
  | settled (topic : Topic) (question : Question) (choice : Choice)
  /-- A question is asked but not answered, or by something that was not offered. -/
  | failed (topic : Topic) (question : Question)
  deriving DecidableEq, Repr

namespace Event

/-- The topic of the question that is asked. -/
def topic? : Event → Option Topic
  | .said .. => none
  | .settled topic _ _ | .failed topic _ => some topic

/-- The question that is asked. -/
def question? : Event → Option Question
  | .said .. => none
  | .settled _ question _ | .failed _ question => some question

/-- The topic that is settled, with its answer. -/
def answer? : Event → Option (Topic × Choice)
  | .settled topic _ choice => some (topic, choice)
  | _ => none

/-- Whether a question fails. -/
def isFailure : Event → Bool
  | .failed .. => true
  | _ => false

/-- The event of a log line. -/
def ofLine (line : Level × String) : Event :=
  .said line.1 line.2

end Event

/-- The question asks about the topic, for some place in some file. -/
def Question.IsAbout (question : Question) (topic : Topic) : Prop :=
  ∃ context text property offset, question = Resolution.question context text topic property offset

namespace Session

variable {σ : Type} (interaction : Interaction σ)

/-- The session after log lines. -/
def hear (lines : List (Level × String)) (session : Session σ) : Session σ :=
  { session with
    state := lines.foldl (fun state line => interaction.log line.1 line.2 state) session.state }

/-- What an event makes of a session. Only topics that are not settled are asked about. An answer
that the topic admits settles it, any other leaves the settled topics as they are. -/
inductive Step : Session σ → Event → Session σ → Prop where
  | said (session level message) :
      Step session (.said level message) (session.hear interaction [(level, message)])
  | settled (session topic question choice state) :
      session.answers.find? topic = none → question.IsAbout topic →
      interaction.ask question session.state = (.ok choice, state) → topic.Admits choice →
      Step session (.settled topic question choice)
        ⟨session.answers.insert topic choice, state⟩
  | failed (session topic question outcome state) :
      session.answers.find? topic = none → question.IsAbout topic →
      interaction.ask question session.state = (outcome, state) →
      (∀ choice, outcome = .ok choice → ¬ topic.Admits choice) →
      Step session (.failed topic question) { session with state := state }

/-- Events lead from one session to another. -/
inductive Path : Session σ → List Event → Session σ → Prop where
  | nil (session) : Path session [] session
  | cons {before middle after event events} :
      Step interaction before event middle → Path middle events after →
      Path before (event :: events) after

variable {interaction} {before middle after : Session σ} {event : Event}
  {events more : List Event}

namespace Step

/-- An event adds the answer that it has to the settled topics. -/
theorem entries (h : Step interaction before event after) :
    after.answers.entries = before.answers.entries ++ event.answer?.toList := by
  cases h with
  | said level message => exact (append_nil _).symm
  | settled topic question choice state hopen habout hask hadmits =>
    exact Answers.insert_entries hopen choice
  | failed topic question outcome state hopen habout hask hrefused =>
    exact (append_nil _).symm

variable {topic : Topic}

theorem unsettled (h : Step interaction before event after) (htopic : event.topic? = some topic) :
    before.answers.find? topic = none := by
  cases h with
  | said level message => cases htopic
  | settled other question choice state hopen habout hask hadmits
  | failed other question outcome state hopen habout hask hrefused =>
    cases htopic
    exact hopen

theorem settles (h : Step interaction before event after) {choice : Choice}
    (hanswer : event.answer? = some (topic, choice)) :
    topic.Admits choice ∧ after.answers.find? topic = some choice := by
  cases h with
  | said level message => cases hanswer
  | settled other question answer state hopen habout hask hadmits =>
    cases hanswer
    exact ⟨hadmits, Answers.find?_insert hopen choice⟩
  | failed other question outcome state hopen habout hask hrefused => cases hanswer

end Step

namespace Path

theorem single (h : Step interaction before event after) : Path interaction before [event] after :=
  .cons h (.nil after)

theorem append (hfirst : Path interaction before events middle)
    (hsecond : Path interaction middle more after) :
    Path interaction before (events ++ more) after := by
  induction hfirst with
  | nil session => exact hsecond
  | cons hstep _ ih => exact .cons hstep (ih hsecond)

/-- Between two events of a path there is a session. -/
theorem split (h : Path interaction before (events ++ more) after) :
    ∃ middle, Path interaction before events middle ∧ Path interaction middle more after := by
  induction events generalizing before with
  | nil => exact ⟨before, .nil before, h⟩
  | cons event events ih =>
    cases h with
    | cons hstep hrest =>
      obtain ⟨middle, hevents, hmore⟩ := ih hrest
      exact ⟨middle, .cons hstep hevents, hmore⟩

section Settled

variable (h : Path interaction before events after)
include h

/-- A path adds its answers to the settled topics, in their order. -/
theorem entries :
    after.answers.entries = before.answers.entries ++ events.filterMap Event.answer? := by
  induction h with
  | nil session => simp
  | cons hstep _ ih =>
    rw [ih, hstep.entries, append_assoc, filterMap_cons]
    cases Event.answer? _ <;> rfl

variable {topic : Topic} {choice : Choice}

theorem find?_eq (hfind : before.answers.find? topic = some choice) :
    after.answers.find? topic = some choice :=
  Answers.find?_of_extends ⟨_, h.entries.symm⟩ hfind

theorem unsettled (hmem : event ∈ events) (htopic : event.topic? = some topic) :
    before.answers.find? topic = none := by
  induction h with
  | nil session => cases hmem
  | @cons before middle after first rest hstep hrest ih =>
    rcases mem_cons.mp hmem with rfl | hlater
    · exact hstep.unsettled htopic
    · -- Were the topic settled at the start, it would be so after the first event.
      cases hfind : before.answers.find? topic with
      | none => rfl
      | some choice =>
        have hmiddle := (single hstep).find?_eq hfind
        rw [ih hlater] at hmiddle
        cases hmiddle

/-- Once a topic is settled nobody asks about it again. -/
theorem settles_once :
    events.Pairwise fun earlier later => ∀ topic choice,
      earlier.answer? = some (topic, choice) → later.topic? ≠ some topic := by
  induction h with
  | nil session => exact .nil
  | cons hstep hrest ih =>
    refine .cons ?_ ih
    intro later hmem topic choice hanswer htopic
    have hopen := hrest.unsettled hmem htopic
    rw [(hstep.settles hanswer).2] at hopen
    cases hopen

theorem admits (hmem : event ∈ events) (hanswer : event.answer? = some (topic, choice)) :
    topic.Admits choice := by
  induction h with
  | nil session => cases hmem
  | cons hstep _ ih =>
    rcases mem_cons.mp hmem with rfl | hlater
    · exact (hstep.settles hanswer).1
    · exact ih hlater

end Settled

theorem hear (before : Session σ) (lines : List (Level × String)) :
    Path interaction before (lines.map Event.ofLine) (before.hear interaction lines) := by
  induction lines generalizing before with
  | nil => exact .nil before
  | cons line lines ih => exact .cons (.said before line.1 line.2) (ih _)

/-- Without questions a path is a list of log lines. -/
theorem eq_hear (h : Path interaction before events after)
    (hquiet : ∀ event ∈ events, event.topic? = none) :
    ∃ lines, after = before.hear interaction lines := by
  induction h with
  | nil session => exact ⟨[], rfl⟩
  | @cons before middle after event rest hstep _ ih =>
    obtain ⟨lines, rfl⟩ := ih fun later hmem => hquiet later (mem_cons_of_mem _ hmem)
    have hfirst := hquiet event mem_cons_self
    cases hstep with
    | said level message => exact ⟨(level, message) :: lines, rfl⟩
    | settled topic question choice state hopen habout hask hadmits
    | failed topic question outcome state hopen habout hask hrefused => cases hfirst

end Path

end Session

/-! ## Dialogues as conversations -/

namespace Dialogue

open Session (Path)

/-- Whether the outcome of a dialogue is an error. -/
def hasFailed {α : Type} : Except Halt α → Bool
  | .error (.error _) => true
  | _ => false

/-- What may happen in a dialogue that fails, and in one that does not. Dialogues that follow one
another keep to it. -/
structure Manner where
  allows : Bool → List Event → Prop
  nil : allows false []
  append {failed : Bool} {first second : List Event} :
    allows false first → allows failed second → allows failed (first ++ second)

/-- Anything may happen. -/
def Manner.free : Manner where
  allows _ _ := True
  nil := trivial
  append _ _ := trivial

/-- A question that fails is an error that ends the dialogue, and there is no other error. Questions
are asked only if they may be. -/
structure Orderly (mayAsk failed : Bool) (events : List Event) : Prop where
  quiet : mayAsk = false → ∀ event ∈ events, event.topic? = none
  success : failed = false → ∀ event ∈ events, event.isFailure = false
  failure : failed → ∃ earlier topic question, events = earlier ++ [.failed topic question] ∧
    ∀ event ∈ earlier, event.isFailure = false

theorem Orderly.lines (mayAsk : Bool) (lines : List (Level × String)) :
    Orderly mayAsk false (lines.map Event.ofLine) := by
  refine ⟨fun _ event hmem => ?_, fun _ event hmem => ?_, fun h => nomatch h⟩
  all_goals
    obtain ⟨line, -, rfl⟩ := mem_map.mp hmem
    rfl

/-- Dialogues end where a question fails. -/
def Manner.orderly (mayAsk : Bool) : Manner where
  allows := Orderly mayAsk
  nil := ⟨fun _ _ hmem => (by cases hmem), fun _ _ hmem => (by cases hmem), fun h => (by cases h)⟩
  append := by
    intro failed first second hfirst hsecond
    refine ⟨fun hask event hmem => ?_, fun hok event hmem => ?_, fun hfail => ?_⟩
    · rcases mem_append.mp hmem with hmem | hmem
      · exact hfirst.quiet hask event hmem
      · exact hsecond.quiet hask event hmem
    · rcases mem_append.mp hmem with hmem | hmem
      · exact hfirst.success rfl event hmem
      · exact hsecond.success hok event hmem
    · obtain ⟨earlier, topic, question, rfl, hearlier⟩ := hsecond.failure hfail
      refine ⟨first ++ earlier, topic, question, (append_assoc ..).symm, fun event hmem => ?_⟩
      rcases mem_append.mp hmem with hmem | hmem
      · exact hfirst.success rfl event hmem
      · exact hearlier event hmem

variable {σ α β : Type}

/-- Who is asked gives the outcome, and changes by it. -/
theorem run_ask (interaction : Interaction σ) (question : Question) (before : Session σ) :
    (ask interaction question).run.run before =
      ((interaction.ask question before.state).1.mapError .error,
        { before with state := (interaction.ask question before.state).2 }) := by
  rcases hask : interaction.ask question before.state with ⟨answer, state⟩
  change (ask.liftExcept (interaction.ask question before.state).1).run.run
    { before with state := (interaction.ask question before.state).2 } = _
  rw [hask]
  cases answer <;> rfl

/-- Whatever the dialogue does to a session is a path of the manner. -/
def Converses (interaction : Interaction σ) (manner : Manner) (dialogue : Dialogue σ α) : Prop :=
  ∀ before outcome after, dialogue.run.run before = (outcome, after) →
    ∃ events, Path interaction before events after ∧ manner.allows (hasFailed outcome) events

namespace Converses

variable {interaction : Interaction σ} {manner : Manner} {dialogue : Dialogue σ α}
  {next : α → Dialogue σ β}

theorem pure (value : α) : Converses interaction manner (Pure.pure value : Dialogue σ α) := by
  intro before outcome after h
  cases h
  exact ⟨[], .nil before, manner.nil⟩

theorem bind (hfirst : Converses interaction manner dialogue)
    (hnext : ∀ value, Converses interaction manner (next value)) :
    Converses interaction manner (dialogue >>= next) := by
  intro before outcome after h
  rw [run_bind] at h
  cases hrun : dialogue.run.run before with
  | mk first middle =>
    obtain ⟨events, hevents, hallows⟩ := hfirst before first middle hrun
    rw [hrun] at h
    cases first with
    | error halt =>
      cases h
      cases halt <;> exact ⟨events, hevents, hallows⟩
    | ok value =>
      obtain ⟨more, hmore, hallowsMore⟩ := hnext value middle outcome after h
      exact ⟨events ++ more, hevents.append hmore, manner.append hallows hallowsMore⟩

theorem foldlM {items : List α} {step : β → α → Dialogue σ β}
    (hstep : ∀ state, ∀ item ∈ items, Converses interaction manner (step state item)) (state : β) :
    Converses interaction manner (items.foldlM step state) := by
  induction items generalizing state with
  | nil => exact pure state
  | cons item items ih =>
    refine (hstep state item mem_cons_self).bind fun next => ih ?_ next
    exact fun state other hmem => hstep state other (mem_cons_of_mem _ hmem)

theorem log (level : Level) (message : String) :
    Converses interaction .free (Dialogue.log interaction level message) := by
  intro before outcome after h
  cases h
  exact ⟨_, .single (.said before level message), trivial⟩

end Converses

end Dialogue

namespace Resolution

open Dialogue (Converses Orderly)

variable {σ : Type} {interaction : Interaction σ} {context : Context} {text property : Text}
  {topic : Topic} {offset : Nat} {before after : Session σ}

section Caught

variable {table : Table} {resolution : Resolution} {outcome : Except Halt Resolution}

/-- Whatever is no error is what resolving the file comes to. -/
theorem resolveFile_of_outcome
    (h : (tryResolve interaction context table (Source.rules context.path text) text).run.run
      before = (outcome, after)) (hok : hasFailed outcome = false) :
    (resolveFile interaction context table text).run.run before = (outcome, after) := by
  refine (run_tryCatch ..).trans ?_
  rw [h]
  rcases outcome with (error | _) | resolution
  · cases hok
  all_goals rfl

theorem resolveFile_of_tryResolve
    (h : (tryResolve interaction context table (Source.rules context.path text) text).run.run
      before = (.ok resolution, after)) :
    (resolveFile interaction context table text).run.run before = (.ok resolution, after) :=
  resolveFile_of_outcome h rfl

/-- A resolution that fails is logged, and leaves the text as it was. -/
theorem resolveFile_of_error {error : Error}
    (h : (tryResolve interaction context table (Source.rules context.path text) text).run.run
      before = (.error (.error error), after)) :
    (resolveFile interaction context table text).run.run before =
      (.ok (unchanged text), after.hear interaction [(.error, errorLine error)]) := by
  refine (run_tryCatch ..).trans ?_
  rw [h]
  rfl

/-- Only an error is caught. -/
theorem resolveFile_cases
    (h : (resolveFile interaction context table text).run.run before = (outcome, after)) :
    (tryResolve interaction context table (Source.rules context.path text) text).run.run before =
        (outcome, after) ∧ hasFailed outcome = false ∨
      ∃ error middle, (tryResolve interaction context table (Source.rules context.path text)
          text).run.run before = (.error (.error error), middle) ∧
        outcome = .ok (unchanged text) ∧
        after = middle.hear interaction [(.error, errorLine error)] := by
  rcases htry : (tryResolve interaction context table (Source.rules context.path text)
    text).run.run before with ⟨(error | _) | resolution, middle⟩
  · rw [resolveFile_of_error htry] at h
    cases h
    exact .inr ⟨error, middle, rfl, rfl, rfl⟩
  all_goals
    rw [resolveFile_of_outcome htry rfl] at h
    cases h
    exact .inl ⟨rfl, rfl⟩

end Caught

/-- How a choice is made: the topic is settled, or questions may not be asked, or the answer settles
the topic, or the question fails. -/
theorem choose_cases {outcome : Except Halt Choice}
    (h : (choose interaction context text topic property offset).run.run before =
      (outcome, after)) :
    (∃ choice message, before.answers.find? topic = some choice ∧ outcome = .ok choice ∧
      after = before.hear interaction [(.debug, message)]) ∨
    (before.answers.find? topic = none ∧ context.interactive = false ∧ outcome = .ok none ∧
      ∃ message, after = before.hear interaction [(.info, message)]) ∨
    (before.answers.find? topic = none ∧ context.interactive ∧ ∃ choice state lines,
      interaction.ask (question context text topic property offset) before.state =
        (.ok choice, state) ∧ topic.Admits choice ∧ outcome = .ok choice ∧
      after = Session.hear interaction lines ⟨before.answers.insert topic choice, state⟩) ∨
    (before.answers.find? topic = none ∧ context.interactive ∧ ∃ answer state error,
      interaction.ask (question context text topic property offset) before.state =
        (answer, state) ∧ (∀ choice, answer = .ok choice → ¬ topic.Admits choice) ∧
      outcome = .error (.error error) ∧ after = { before with state := state }) := by
  have hget : (get : Dialogue σ (Session σ)).run.run before = (.ok before, before) := rfl
  unfold choose at h
  rw [run_bind, hget] at h
  simp only at h
  cases hfind : before.answers.find? topic with
  | some choice =>
    rw [hfind] at h
    cases h
    exact .inl ⟨choice, _, rfl, rfl, rfl⟩
  | none =>
    rw [hfind] at h
    cases hinteractive : context.interactive with
    | false =>
      rw [hinteractive] at h
      cases h
      exact .inr (.inl ⟨rfl, rfl, rfl, _, rfl⟩)
    | true =>
      rw [hinteractive] at h
      change (ask interaction (question context text topic property offset) >>=
        fun _ => _ : Dialogue σ Choice).run.run before = _ at h
      rw [run_bind, run_ask] at h
      rcases hask : interaction.ask (question context text topic property offset) before.state
        with ⟨answer, state⟩
      rw [hask] at h
      cases answer with
      | error error =>
        cases h
        refine .inr (.inr (.inr ⟨rfl, rfl, _, _, _, rfl, ?_, rfl, rfl⟩))
        intro choice hok
        cases hok
      | ok choice =>
        cases choice with
        | none =>
          cases h
          refine .inr (.inr (.inl ⟨rfl, rfl, _, _, [(_, _)], rfl, ?_, rfl, rfl⟩))
          intro value hvalue
          cases hvalue
        | some value =>
          have hmap : (Except.ok (some value)).mapError Halt.error = .ok (some value) := rfl
          cases hoffered : topic.candidates.contains value with
          | true =>
            simp only [hmap, hoffered, if_true] at h
            cases h
            refine .inr (.inr (.inl ⟨rfl, rfl, _, _, [], rfl, ?_, rfl, rfl⟩))
            intro other hother
            cases hother
            exact contains_iff_mem.mp hoffered
          | false =>
            simp only [hmap, hoffered, Bool.false_eq_true, if_false] at h
            cases h
            refine .inr (.inr (.inr ⟨rfl, rfl, _, _, _, rfl, ?_, rfl, rfl⟩))
            intro other hother hadmits
            cases hother
            have hmem := contains_iff_mem.mpr (hadmits value rfl)
            rw [hoffered] at hmem
            cases hmem

theorem choose_of_settled {choice : Choice} (h : before.answers.find? topic = some choice)
    (interaction : Interaction σ) (context : Context) (text property : Text) (offset : Nat) :
    ∃ message, (choose interaction context text topic property offset).run.run before =
      (.ok choice, before.hear interaction [(.debug, message)]) := by
  rcases hrun : (choose interaction context text topic property offset).run.run before with
    ⟨outcome, after⟩
  obtain ⟨answer, message, hfind, rfl, rfl⟩ | ⟨hopen, -⟩ | ⟨hopen, -⟩ | ⟨hopen, -⟩ :=
    choose_cases hrun
  · rw [h] at hfind
    cases hfind
    exact ⟨message, rfl⟩
  all_goals
    rw [h] at hopen
    cases hopen

/-- A choice is a conversation that asks at most once. -/
theorem choose_converses (interaction : Interaction σ) (context : Context) (text : Text)
    (topic : Topic) (property : Text) (offset : Nat) :
    Converses interaction (.orderly context.interactive)
      (choose interaction context text topic property offset) := by
  intro before outcome after hrun
  obtain ⟨choice, message, -, rfl, rfl⟩ | ⟨-, -, rfl, message, rfl⟩ |
    ⟨hopen, hask, choice, state, lines, hanswer, hadmits, rfl, rfl⟩ |
    ⟨hopen, hask, answer, state, error, hanswer, hrefused, rfl, rfl⟩ := choose_cases hrun
  · exact ⟨_, .hear before [(.debug, message)], .lines _ _⟩
  · exact ⟨_, .hear before [(.info, message)], .lines _ _⟩
  · refine ⟨_, .cons (.settled before topic _ choice state hopen ⟨_, _, _, _, rfl⟩ hanswer hadmits)
      (.hear _ lines), ?_⟩
    refine ⟨fun hquiet => ?_, fun _ => ?_, fun hfail => ?_⟩
    · rw [hask] at hquiet
      cases hquiet
    · exact forall_mem_cons.mpr ⟨rfl, (Orderly.lines context.interactive lines).success rfl⟩
    · cases hfail
  · refine ⟨_, .single (.failed before topic _ answer state hopen ⟨_, _, _, _, rfl⟩ hanswer
      hrefused), ?_⟩
    refine ⟨fun hquiet => ?_, fun hok => ?_, fun _ => ⟨[], topic, _, rfl, fun _ hmem => ?_⟩⟩
    · rw [hask] at hquiet
      cases hquiet
    · cases hok
    · cases hmem

end Resolution

end Restyle
