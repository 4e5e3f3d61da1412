import Offside.Diagnostic
import Offside.Lexeme

set_option autoImplicit false

/-!
# The tokens of a source text

At each place the text of the first class that has one is cut off; blanks and comments are passed over.
A character where no class starts ends the work with a diagnostic.
-/
namespace Offside.Tokens

/-- The tokens of the text that starts at the given place. A class that has a text there takes one
character at least. -/
def scan (start : Position) (cs : List Char) : Except Diagnostic (List Token) :=
  match cs with
  | [] => .ok []
  | c :: rest =>
    match Lexeme.next? (c :: rest) with
    | none => .error ⟨.unrecognised (String.singleton c), start⟩
    | some l =>
      let length := l.extent (c :: rest)
      let text := (c :: rest).take length
      let stop := start.after text
      match l.kind? text with
      | none => scan stop (rest.drop (length - 1))
      | some kind => (scan stop (rest.drop (length - 1))).map (⟨kind, ⟨start, stop⟩⟩ :: ·)
termination_by cs.length
decreasing_by
  all_goals
    simp only [List.length_drop, List.length_cons]
    omega

def ofSource (source : String) : Except Diagnostic (List Token) := scan .origin source.toList

/-- The tokens of a source exist if something was computed from them. -/
theorem exists_of_ofSource {β : Type} {source : String} {f : List Token → β} {b : β}
    (h : (ofSource source).toOption.map f = some b) :
    ∃ tokens, ofSource source = .ok tokens ∧ f tokens = b := by
  cases htokens : ofSource source with
  | error d => simp [htokens, Except.toOption] at h
  | ok tokens => exact ⟨tokens, rfl, by simpa [htokens, Except.toOption] using h⟩

end Offside.Tokens
