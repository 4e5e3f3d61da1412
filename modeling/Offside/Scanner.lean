import Offside.Token

set_option autoImplicit false

/-!
# Scanners

A scanner stands at a place of a source text, has the rest of the text before it, and keeps the tokens
cut so far. It moves by bytes and never past the end; a move that would stop inside a character fails.
-/
namespace Offside

structure Scanner where
  position : Position
  ahead : List Char
  /-- The tokens cut so far, the latest first. -/
  cut : List Token

namespace Scanner

def start (source : String) : Scanner := ⟨.origin, source.toList, []⟩

def atEnd (s : Scanner) : Bool := s.ahead.isEmpty

/-- The next character; at the end, the null character. -/
def peek (s : Scanner) : Char := s.ahead.headD '\x00'

def remainder (s : Scanner) : String := String.ofList s.ahead

/-- Moves `n` bytes forward, or to the end if it is nearer. -/
def advance? (s : Scanner) (n : Nat) : Option Scanner := do
  let bytes := min n (Text.byteLength s.ahead)
  let passed ← Text.takeBytes? bytes s.ahead
  let ahead ← Text.dropBytes? bytes s.ahead
  pure { s with position := s.position.after passed, ahead }

def push (s : Scanner) (t : Token) : Scanner := { s with cut := t :: s.cut }

/-- Cuts a token of the next `n` bytes. -/
def emit? (s : Scanner) (kind : Kind) (n : Nat) : Option Scanner :=
  (s.advance? n).map fun u => u.push ⟨kind, ⟨s.position, u.position⟩⟩

end Scanner

end Offside
