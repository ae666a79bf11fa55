import Restyle.Question

/-!
# Settled questions

A run settles each question once. A question is known by its token and the candidates for it, and
the first answer stays; a skip is an answer too.
-/

namespace Restyle

/-- What a question is known by. -/
structure Topic where
  token : Text
  candidates : List Text
  deriving DecidableEq, Repr

/-- The topics that are settled, each with its answer. -/
structure Answers where
  entries : List (Topic × Choice) := []
  deriving DecidableEq, Repr

namespace Answers

def find? (answers : Answers) (topic : Topic) : Option Choice :=
  answers.entries.lookup topic

/-- The answers with one more. A topic that is settled keeps its answer. -/
def insert (answers : Answers) (topic : Topic) (choice : Choice) : Answers :=
  match answers.find? topic with
  | some _ => answers
  | none => ⟨answers.entries ++ [(topic, choice)]⟩

def size (answers : Answers) : Nat :=
  answers.entries.length

end Answers

end Restyle
