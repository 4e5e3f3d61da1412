import Offside.Program
import Offside.Proofs.Reports.Headings

set_option autoImplicit false

/-!
# Reports

A report is five lines. It shows the line of the source that the diagnostic points into, and its caret stands
under the character that the diagnostic points at.
-/
namespace Offside

open Reading

namespace Text

end Text

section Reported

variable {source : String} {settings : Settings} {tokens : List Token} {d : Diagnostic}

end Reported

namespace Diagnostic

variable {source file : String} {d : Diagnostic}

/-- The file and the place in it. -/
def place (d : Diagnostic) (file : String) : String := "-> " ++ file ++ ":" ++ d.position.toText

/-- A bar as far to the right as the one behind the line number. -/
def gutter (d : Diagnostic) : String := Text.alignRight ' ' ((toString d.position.line).length + 2) "|"

/-- The line of the source as it is shown. -/
def excerpt (d : Diagnostic) (line : List Char) : String :=
  toString d.position.line ++ " | " ++ String.ofList (Text.trimReturns line)

end Diagnostic

end Offside
