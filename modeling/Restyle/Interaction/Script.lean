import Restyle.Question

/-!
# Prepared answers

A script answers questions from a list that is made in advance and keeps a record of all it is asked
and told. When the list is at its end, every question is skipped.
-/

namespace Restyle

/-- A prepared answer, or a failure to give one. -/
inductive Script.Reply where
  | choice (choice : Choice)
  | failure (problem : String)
  deriving DecidableEq, Repr

/-- The replies that are left, and the record of questions and log lines. -/
structure Script where
  replies : List Script.Reply := []
  questions : List Question := []
  lines : List (Level × String) := []
  deriving DecidableEq, Repr

namespace Script

def Reply.outcome : Reply → Except Error Choice
  | .choice answer => .ok answer
  | .failure problem => .error (Cause.choiceFailed problem).error

/-- The next reply to a question, which is recorded. -/
def ask (question : Question) (script : Script) : Except Error Choice × Script :=
  let asked := { script with questions := script.questions ++ [question] }
  match script.replies with
  | [] => (.ok none, asked)
  | reply :: rest => (reply.outcome, { asked with replies := rest })

def log (level : Level) (message : String) (script : Script) : Script :=
  { script with lines := script.lines ++ [(level, message)] }

def interaction (isInteractive : Bool) : Interaction Script :=
  { isInteractive, ask, log }

end Script

end Restyle
