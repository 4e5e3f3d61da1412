import Offside.Diagnostic
import Offside.Reading.State

set_option autoImplicit false

/-!
# Readings

A reading goes from state to state and gives a value, or stops with a fault in the state it had reached. A
reported fault is about the tokens, and another reading may go on from there; a misuse is a step that no
state of the reading allowed.
-/
namespace Offside

namespace Reading

inductive Misuse
  | noOpenGroup
  | noOpenBlock
  deriving DecidableEq

namespace Misuse

def message : Misuse → String
  | .noOpenGroup => "close_group called without a matching open_group"
  | .noOpenBlock => "decrease_indentation called without a matching increase_indentation"

end Misuse

inductive Fault
  | reported (diagnostic : Diagnostic)
  | misused (misuse : Misuse)
  deriving DecidableEq

end Reading

open Reading in
abbrev Reading (α : Type) := EStateM Fault State α

namespace Reading

variable {α : Type}

def fail (cause : Cause) (position : Position) : Reading α := throw (.reported ⟨cause, position⟩)

def endOfInput : Reading α := fun s => .error (.reported ⟨.endOfInput, s.endPosition⟩) s

/-- The next token, which stays ahead. -/
def current : Reading Token := fun s =>
  match s.current? with
  | some t => .ok t s
  | none => endOfInput s

/-- Passes the next token. -/
def consume : Reading Token := fun s =>
  match s.current? with
  | some t => .ok t s.advance
  | none => endOfInput s

def isNext (kind : Kind) : Reading Bool := fun s => .ok (s.isNext kind) s

/-- Passes the next token if it is of the kind. -/
def accept (kind : Kind) : Reading Bool := fun s =>
  if s.isNext kind then .ok true s.advance else .ok false s

/-- Passes the next token, which has to be of the kind. -/
def require (source : String) (kind : Kind) : Reading Token := do
  let t ← current
  if t.kind = kind then consume
  else fail (.unexpected kind t.kind (t.text source)) t.span.start

def skipLineBreaks : Reading Unit := modify State.skipLineBreaks

def skipGroupedLineBreaks : Reading Unit := modify State.skipGroupedLineBreaks

def openGroup : Reading Unit := modify State.openGroup

def closeGroup : Reading Unit := fun s =>
  match s.closeGroup? with
  | some u => .ok () u
  | none => .error (.misused .noOpenGroup) s

/-- Opens a block and gives its level. -/
def openBlock : Reading Nat := fun s => .ok s.openBlock.indentation.current s.openBlock

/-- Closes the innermost block and gives the level of the one around it. -/
def closeBlock : Reading Nat := fun s =>
  match s.closeBlock? with
  | some u => .ok u.indentation.current u
  | none => .error (.misused .noOpenBlock) s

/-- Reads, and then finishes also if the reading reported a fault, which stands. -/
def finishing {β : Type} (reading : Reading α) (finish : Reading β) : Reading α := fun s =>
  match reading s with
  | .ok a t => (finish *> pure a) t
  | .error (.reported d) t => (finish *> throw (.reported d)) t
  | .error (.misused m) t => .error (.misused m) t

/-- Reads one nesting level deeper, as far as the limit lets it. -/
def nested (limit : Nat) (reading : Reading α) : Reading α := fun s =>
  if limit ≤ s.depth then fail (.nestedTooDeeply limit) s.currentPosition s
  else
    match reading { s with depth := s.depth + 1 } with
    | .ok a t => .ok a { t with depth := t.depth - 1 }
    | .error e t => .error e { t with depth := t.depth - 1 }

end Reading

end Offside
