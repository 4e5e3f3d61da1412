set_option autoImplicit false

/-!
# Fields of a fixed width

Widths count characters; a text that is wider than its field is left as it is.
-/
namespace Offside.Text

def fill (c : Char) (n : Nat) : String := String.ofList (List.replicate n c)

/-- Puts the text at the right end of its field. -/
def alignRight (c : Char) (width : Nat) (text : String) : String :=
  fill c (width - text.length) ++ text

/-- Puts the text at the left end of its field. -/
def alignLeft (c : Char) (width : Nat) (text : String) : String :=
  text ++ fill c (width - text.length)

end Offside.Text
