import Offside.Diagnostic.Report
import Offside.Proofs.Lexing.Lines

set_option autoImplicit false

/-!
# Lines of a text

The place behind a part of a text counts the lines before it, so it names the line that it is on, and its
column counts the characters from the start of that line.
-/
namespace Offside

namespace Text

variable {as bs before behind : List Char} {a b : String} {c : Char}

/-- The text has no line break in it. -/
def OneLine (text : String) : Prop := '\n' ∉ text.toList

instance (text : String) : Decidable (OneLine text) := inferInstanceAs (Decidable ('\n' ∉ text.toList))

@[simp] theorem oneLine_append : OneLine (a ++ b) ↔ OneLine a ∧ OneLine b := by
  simp [OneLine, String.toList_append]

@[simp] theorem oneLine_ofList : OneLine (String.ofList as) ↔ '\n' ∉ as := by
  rw [OneLine, String.toList_ofList]

/-! ### Cutting at line breaks -/

end Text

end Offside
