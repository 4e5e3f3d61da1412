set_option autoImplicit false

/-!
# Settings of a reading
-/
namespace Offside

structure Settings where
  /-- The columns between a block and the one around it. -/
  indentWidth : Nat := 2
  /-- How many expressions may be open inside one another. -/
  maxDepth : Nat := 256
  /-- Whether a token at the start of a line is kept from continuing the expression of the line before. -/
  lineBreaksEndExpressions : Bool := true
  deriving DecidableEq

end Offside
