import Offside.Indentation
import Offside.Token

set_option autoImplicit false

/-!
# The state of a reading

A reading stands between the tokens it has passed and those ahead, and never goes back. It keeps the
levels of the open blocks and, for each of them, how many brackets are open: inside a bracket line breaks
do not count, but a block that is opened inside a bracket starts counting anew.
-/
namespace Offside.Reading

structure State where
  /-- The tokens behind, the latest first. -/
  passed : List Token
  ahead : List Token
  indentation : Indentation
  /-- Open brackets of each block and of the level below all blocks, the innermost first. -/
  groups : List Nat
  /-- How many expressions are open inside one another. -/
  depth : Nat
  deriving DecidableEq

namespace State

def start (indentWidth : Nat) (tokens : List Token) : State :=
  ⟨[], tokens, .base indentWidth, [0], 0⟩

def position (s : State) : Nat := s.passed.length

def done (s : State) : Bool := s.ahead.isEmpty

def current? (s : State) : Option Token := s.ahead.head?

def isNext (s : State) (kind : Kind) : Bool := s.current?.any (·.kind = kind)

/-- Whether the last token passed was a line break. -/
def afterLineBreak (s : State) : Bool := s.passed.head?.any (·.kind = .newline)

def hasIndentation (s : State) (column : Nat) : Bool := s.current?.any (column ≤ ·.column)

/-- The end of the last token of all. -/
def endPosition (s : State) : Position :=
  match s.ahead.getLast? with
  | some t => t.span.stop
  | none => (s.passed.head?.map (·.span.stop)).getD .origin

def currentPosition (s : State) : Position :=
  match s.current? with
  | some t => t.span.start
  | none => s.endPosition

def advance (s : State) : State :=
  match s.ahead with
  | [] => s
  | t :: ts => { s with passed := t :: s.passed, ahead := ts }

def skipLineBreaks (s : State) : State :=
  { s with
    passed := (s.ahead.takeWhile (·.kind = .newline)).reverse ++ s.passed
    ahead := s.ahead.dropWhile (·.kind = .newline) }

def inGroup (s : State) : Bool := s.groups.head?.any (0 < ·)

def skipGroupedLineBreaks (s : State) : State := if s.inGroup then s.skipLineBreaks else s

def openGroup (s : State) : State :=
  match s.groups with
  | [] => s
  | n :: outer => { s with groups := (n + 1) :: outer }

def closeGroup? (s : State) : Option State :=
  match s.groups with
  | (n + 1) :: outer => some { s with groups := n :: outer }
  | _ => none

/-- Opens a block one step deeper. -/
def openBlock (s : State) : State :=
  { s with indentation := s.indentation.increase, groups := 0 :: s.groups }

def closeBlock? (s : State) : Option State :=
  s.indentation.decrease?.map fun i => { s with indentation := i, groups := s.groups.tail }

/-- How tightly the next token binds to what was read. Inside a bracket line breaks are looked past;
elsewhere a token behind a line break binds to nothing, unless the settings let it. -/
def power (s : State) (power : Kind → Int) (lineBreaksEnd : Bool) : Int :=
  if s.inGroup then
    match s.ahead.find? (·.kind ≠ .newline) with
    | some t => power t.kind
    | none => 0
  else if s.afterLineBreak && lineBreaksEnd then 0
  else
    match s.current? with
    | some t => power t.kind
    | none => 0

end State

end Offside.Reading
