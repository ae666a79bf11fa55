import Restyle.Interaction.Terminal
import Restyle.Proofs.Batch
import Restyle.Proofs.Migration.Conversation
import Restyle.Proofs.Text.Position

/-!
# Prompts return what they offered

`Terminal.Denotes` says which choice a line stands for. `Terminal.ask_offered`: a terminal reads
lines up to the first that denotes a choice, calls each of the others invalid, and fails only if
there is none, so that a resolution never gets an answer that it did not offer.
-/

namespace Restyle.Terminal

open List Byte

variable {question : Question} {line : String} {choice : Choice}

/-! ## Lines -/

/-- An input is read as its lines, whether or not the last of them is ended. -/
theorem exists_linesOf (input : Text) : ∃ lines : List Text,
    linesOf input = lines.map Text.toString ∧
    (∀ line ∈ lines, newline ∉ line) ∧ lines.flatMap (· ++ [newline]) =
      if input.getLast?.all (· == newline) then input else input ++ [newline] := by
  have hjoin := Text.flatMap_lines input
  have hline := Text.newline_notMem_lines input
  have hne : input.lines ≠ [] := length_pos_iff.mp (Text.length_lines input ▸ Nat.succ_pos _)
  obtain ⟨others, last, hlines⟩ := (eq_nil_or_concat input.lines).resolve_left hne
  rw [hlines, concat_eq_append] at hjoin hline
  rw [linesOf, hlines, concat_eq_append]
  rw [flatMap_append, flatMap_singleton, ← append_assoc, append_cancel_right_eq] at hjoin
  cases last with
  | nil =>
    refine ⟨others, by simp, fun line hmem => hline line (mem_append_left _ hmem), ?_⟩
    rw [append_nil] at hjoin
    rw [← hjoin, if_pos]
    rcases eq_nil_or_concat others with rfl | ⟨others, other, rfl⟩ <;> simp
  | cons byte last =>
    refine ⟨others ++ [byte :: last], by simp, hline, ?_⟩
    rw [if_neg]
    · simp [← hjoin]
    · have hlast := getLast_mem (cons_ne_nil byte last)
      have hbyte := hline _ (mem_append_right _ (mem_singleton_self _))
      rw [← hjoin, getLast?_append, getLast?_eq_some_getLast (cons_ne_nil byte last)]
      simp only [Option.some_or, Option.all_some, beq_iff_eq]
      exact fun h => hbyte (h ▸ hlast)

/-! ## Choices -/

/-- The characters are digits of a number below the limit, perhaps behind a plus sign. -/
def IsNumber (entry : List Char) (number : Nat) : Prop :=
  number < numberLimit ∧
    ∃ digits, (entry = digits ∨ entry = '+' :: digits) ∧ Batch.Spells digits number

/-- The choice that a line stands for: without the blanks around it, the line is empty for the first
offer, zero for a skip if there may be one, or else the number of an offer. -/
def Denotes (question : Question) (line : String) (choice : Choice) : Prop :=
  let entry := trimString line
  (entry = "" ∧ ∃ offer, question.offers.head? = some offer ∧ choice = some offer.value) ∨
    (IsNumber entry.toList 0 ∧ question.allowSkip = true ∧ choice = none) ∨
    ∃ index offer, IsNumber entry.toList (index + 1) ∧ question.offers[index]? = some offer ∧
      choice = some offer.value

theorem number?_eq_some_iff {entry : List Char} {number : Nat} :
    number? entry = some number ↔ IsNumber entry number := by
  have hread : ∀ digits : List Char, (if digits.isEmpty || !digits.all Char.isDigit then none
      else if Nat.ofDigitChars 10 digits 0 < numberLimit then some (Nat.ofDigitChars 10 digits 0)
      else none) = some number ↔ number < numberLimit ∧ Batch.Spells digits number := by
    intro digits
    unfold Batch.Spells
    split <;> grind
  by_cases hplus : ∃ rest, entry = '+' :: rest
  · obtain ⟨rest, rfl⟩ := hplus
    refine (hread rest).trans (and_congr_right fun _ => ⟨fun h => ⟨rest, .inr rfl, h⟩, ?_⟩)
    rintro ⟨digits, rfl | heq, hspells⟩
    · exact absurd (hspells.2.1 '+' mem_cons_self) (by decide)
    · exact (cons.inj heq).2 ▸ hspells
  · rw [not_exists] at hplus
    have hnumber := hread entry
    simp only [number?]
    refine hnumber.trans (and_congr_right fun _ => ⟨fun h => ⟨entry, .inl rfl, h⟩, ?_⟩)
    rintro ⟨digits, rfl | heq, hspells⟩
    · exact hspells
    · exact absurd heq (hplus digits)

theorem choiceOf?_eq_some_iff :
    choiceOf? question (trimString line) = some choice ↔ Denotes question line choice := by
  unfold choiceOf? Denotes
  by_cases hempty : trimString line = ""
  · have hnone : ∀ number, ¬ IsNumber [] number := by
      rintro number ⟨-, digits, rfl | heq, hne, -⟩
      · exact hne rfl
      · cases heq
    simp [hempty, hnone, eq_comm (a := choice)]
  · simp only [hempty, false_and, false_or, ← number?_eq_some_iff]
    rw [if_neg (by simpa using hempty)]
    rcases number? (trimString line).toList with _ | _ | index <;> simp [eq_comm (a := choice)]

/-! ## Reading -/

/-- What is written while lines are refused and one more is wanted. -/
def refusals : List String → String
  | [] => promptText
  | line :: rest =>
    promptText ++ "Invalid choice '" ++ trimString line ++ "', try again.\n" ++ refusals rest

/-- The lines are read up to the first that denotes a choice. -/
theorem readChoice_cases (question : Question) (lines : List String) :
    (∃ rejected line rest choice, lines = rejected ++ line :: rest ∧
      (∀ other ∈ rejected, ∀ choice, ¬ Denotes question other choice) ∧
      Denotes question line choice ∧
      readChoice question lines = (some choice, rest, refusals rejected)) ∨
    ((∀ other ∈ lines, ∀ choice, ¬ Denotes question other choice) ∧
      readChoice question lines = (none, [], refusals lines)) := by
  induction lines with
  | nil => exact .inr ⟨by simp, rfl⟩
  | cons line rest ih =>
    cases hline : choiceOf? question (trimString line) with
    | some choice =>
      exact .inl ⟨[], line, rest, choice, rfl, by simp, choiceOf?_eq_some_iff.mp hline,
        by simp [readChoice, hline, refusals]⟩
    | none =>
      have hnone : ∀ choice, ¬ Denotes question line choice := by
        intro choice hdenotes
        rw [choiceOf?_eq_some_iff.mpr hdenotes] at hline
        cases hline
      obtain ⟨rejected, first, left, choice, rfl, hrejected, hfirst, hread⟩ | ⟨hall, hread⟩ := ih
      · exact .inl ⟨line :: rejected, first, left, choice, rfl,
          forall_mem_cons.mpr ⟨hnone, hrejected⟩, hfirst,
          by simp [readChoice, hline, hread, refusals]⟩
      · exact .inr ⟨forall_mem_cons.mpr ⟨hnone, hall⟩, by simp [readChoice, hline, hread, refusals]⟩

/-- The failure of a terminal whose input has ended. -/
def closed : Error :=
  (Cause.choiceFailed "stdin closed").error

/-- The outcomes of a question: the first line that denotes a choice answers it, and if there is
none it fails. -/
inductive Asks (question : Question) (terminal : Terminal) :
    Except Error Choice × Terminal → Prop
  | answered {rejected : List String} {line : String} {rest : List String} {choice : Choice}
    (input : terminal.input = rejected ++ line :: rest)
    (rejects : ∀ other ∈ rejected, ∀ choice, ¬ Denotes question other choice)
    (denotes : Denotes question line choice) :
    Asks question terminal (.ok choice, { terminal with
      input := rest
      output := terminal.output ++ (showQuestion question ++ refusals rejected) })
  | failed (wanting : Option String)
    (rejects : ∀ other ∈ terminal.input, ∀ choice, ¬ Denotes question other choice) :
    Asks question terminal (.error closed,
      ⟨[], terminal.output ++ (showQuestion question ++ refusals terminal.input), wanting⟩)

theorem asks_ask (question : Question) (terminal : Terminal) :
    Asks question terminal (ask question terminal) := by
  obtain ⟨rejected, line, rest, choice, hinput, hrejected, hline, hread⟩ | ⟨hall, hread⟩ :=
    readChoice_cases question terminal.input
  · rw [ask, hread]
    exact .answered hinput hrejected hline
  · rw [ask, hread]
    exact .failed _ hall

/-- A choice on what a resolution asks is one of the candidates or a skip. -/
theorem Denotes.admits {context : Context} {text property : Text} {topic : Topic} {offset : Nat}
    (h : Denotes (Resolution.question context text topic property offset) line choice) :
    topic.Admits choice := by
  have hoffers : ∀ offer ∈ (Resolution.question context text topic property offset).offers,
      offer.value ∈ topic.candidates := by
    intro offer hmem
    obtain ⟨⟨candidate, index⟩, hcandidate, rfl⟩ := mem_map.mp hmem
    exact fst_mem_of_mem_zipIdx hcandidate
  rintro value rfl
  obtain ⟨-, offer, hoffer, hvalue⟩ | ⟨-, -, hvalue⟩ | ⟨index, offer, -, hoffer, hvalue⟩ := h
  · exact Option.some.inj hvalue ▸ hoffers offer (mem_of_head? hoffer)
  · cases hvalue
  · exact Option.some.inj hvalue ▸ hoffers offer (mem_of_getElem? hoffer)

/-- A question reads lines up to the first that denotes a choice and returns that choice, having
called every earlier line invalid. If no line denotes one, all are read and the question fails. What
a resolution asks is answered by one of the candidates or a skip, so that it fails only where the
input has ended. The lines are those of the input, also where the last is not ended. -/
theorem ask_offered (question : Question) (terminal : Terminal) :
    Asks question terminal (ask question terminal) ∧
    closed.cause.code = "interaction.failed" ∧
    (∀ context text topic property offset,
      (∀ value after, ask (Resolution.question context text topic property offset) terminal =
        (.ok (some value), after) → value ∈ topic.candidates) ∧
      ∀ isInteractive verbose answers error after,
        (Resolution.choose (interaction isInteractive verbose) context text topic property
          offset).run.run ⟨answers, terminal⟩ = (.error error, after) →
        ∃ left, ask (Resolution.question context text topic property offset) terminal =
          (.error closed, left)) ∧
    ∀ stdin : Text, ∃ lines : List Text, linesOf stdin = lines.map Text.toString ∧
      (∀ line ∈ lines, newline ∉ line) ∧ lines.flatMap (· ++ [newline]) =
        if stdin.getLast?.all (· == newline) then stdin else stdin ++ [newline] := by
  refine ⟨asks_ask question terminal, rfl, ?_, exists_linesOf⟩
  intro context text topic property offset
  have hasks := asks_ask (Resolution.question context text topic property offset) terminal
  generalize hask : ask (Resolution.question context text topic property offset) terminal = outcome
    at hasks
  cases hasks with
  | @answered rejected line rest choice hinput hrejected hline =>
    refine ⟨fun value after heq => ?_, fun isInteractive verbose answers error after hrun => ?_⟩
    · cases heq
      exact hline.admits value rfl
    · obtain ⟨_, _, -, hok, -⟩ | ⟨-, -, hok, -⟩ | ⟨-, -, _, _, _, -, -, hok, -⟩ |
        ⟨-, -, answer, state, _, hanswer, hrefused, -, -⟩ := Resolution.choose_cases hrun
      · cases hok
      · cases hok
      · cases hok
      · cases hask.symm.trans hanswer
        exact absurd hline.admits (hrefused choice rfl)
  | failed wanting hall =>
    refine ⟨fun value after heq => ?_, fun _ _ _ _ _ _ => ⟨_, rfl⟩⟩
    cases heq

end Restyle.Terminal
