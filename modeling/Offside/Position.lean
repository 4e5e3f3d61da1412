set_option autoImplicit false

/-!
# Places in a source text

An offset counts bytes, a line counts from one, and a column counts the characters before it on its
line, so the indentation of a line is the column of its first token.
-/
namespace Offside

structure Position where
  offset : Nat
  line : Nat
  column : Nat
  deriving DecidableEq, Repr

structure Span where
  start : Position
  stop : Position
  deriving DecidableEq, Repr

namespace Position

def origin : Position := ⟨0, 1, 0⟩

instance : Inhabited Position := ⟨origin⟩

/-- The place behind one character. -/
def step (p : Position) (c : Char) : Position :=
  if c = '\n' then ⟨p.offset + c.utf8Size, p.line + 1, 0⟩
  else ⟨p.offset + c.utf8Size, p.line, p.column + 1⟩

/-- The place behind a run of characters. -/
def after (p : Position) (cs : List Char) : Position := cs.foldl step p

def toText (p : Position) : String := toString p.line ++ ":" ++ toString p.column

theorem after_nil (p : Position) : p.after [] = p := rfl

theorem after_append (p : Position) (as bs : List Char) :
    p.after (as ++ bs) = (p.after as).after bs := by
  simp [after, List.foldl_append]

end Position

namespace Span

instance : Inhabited Span := ⟨⟨.origin, .origin⟩⟩

/-- From the start of one span to the end of another. -/
def through (a b : Span) : Span := ⟨a.start, b.stop⟩

end Span

end Offside
