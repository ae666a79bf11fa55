import Restyle.Rule.Stylesheet
import Restyle.Rule.StyleObject

/-!
# Rules of a source file

The name of a file decides in which dialect its rules are read.
-/

namespace Restyle.Source

def rulesIn (dialect : Dialect) (text : Text) : List Rule :=
  match dialect with
  | .script => StyleObject.rules text
  | _ => Stylesheet.rules dialect text

def rules (path text : Text) : List Rule :=
  rulesIn (Dialect.ofPath path) text

end Restyle.Source
