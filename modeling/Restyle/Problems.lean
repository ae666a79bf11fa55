import Restyle.Error
import Restyle.Text.Blank

/-!
# Problem lists

What is wrong with an input is reported all at once, as a list under a heading.
-/

namespace Restyle

namespace Problems

def render (heading : String) (problems : List String) : String :=
  heading ++ ":" ++ String.join (problems.map fun problem => "\n  - " ++ problem)

end Problems

/-- A string without the blanks at either end, which must not be empty. -/
def requireNonEmpty (value field problem : String) : Except Error String :=
  let trimmed := trimString value
  if trimmed.isEmpty then .error (Cause.argumentInvalid field problem none none).error
  else .ok trimmed

end Restyle
