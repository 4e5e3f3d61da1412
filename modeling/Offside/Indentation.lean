set_option autoImplicit false

/-!
# Indentation levels

The open blocks, each with the column its lines start at. Column zero is the level below all of them and
is never closed.
-/
namespace Offside

structure Indentation where
  /-- The columns between a block and the one around it. -/
  step : Nat
  /-- The levels of the open blocks, the innermost first. -/
  levels : List Nat
  deriving DecidableEq

namespace Indentation

def base (step : Nat) : Indentation := ⟨step, []⟩

def current (i : Indentation) : Nat := i.levels.headD 0

/-- How many blocks are open. -/
def depth (i : Indentation) : Nat := i.levels.length

def increase (i : Indentation) : Indentation :=
  { i with levels := (i.current + i.step) :: i.levels }

/-- Closes the innermost block; without an open block there is nothing to close. -/
def decrease? (i : Indentation) : Option Indentation :=
  match i.levels with
  | [] => none
  | _ :: outer => some { i with levels := outer }

theorem decrease?_increase (i : Indentation) : i.increase.decrease? = some i := rfl

end Indentation

end Offside
