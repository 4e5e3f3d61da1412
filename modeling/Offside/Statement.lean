import Offside.Climbing
import Offside.Tree

set_option autoImplicit false

/-!
# Statements, blocks and bodies

A statement is an expression that ends its line. A block is a run of statements that all start at the
level of the block; it ends at the first line that starts further left. A body is either one expression on
the rest of a line or, behind a line break, a block one step deeper.
-/
namespace Offside.Reader

open Reading

/-- Reads a statement. One whose body ran to the end of an indented block has passed its line break. -/
def statement (r : Reader Tree) : Reading Tree := do
  let tree ← r.operand 0
  let s ← get
  if s.done ∨ s.afterLineBreak then pure tree
  else do
    let _ ← require r.source .newline
    pure tree

/-- Reads the statements of a block, at most `bound` of them. -/
def statementsWithin (r : Reader Tree) (level : Nat) : Nat → Reading (List Tree)
  | 0 => pure []
  | bound + 1 => do
    skipLineBreaks
    let s ← get
    match s.current? with
    | none => pure []
    | some token =>
      if token.column < level then pure []
      else if level < token.column then fail (.indentation level token.column) token.span.start
      else do
        let tree ← r.statement
        let trees ← statementsWithin r level bound
        pure (tree :: trees)

def block (r : Reader Tree) (level : Nat) : Reading (List Tree) := do
  let s ← get
  r.statementsWithin level s.ahead.length

/-- Reads the block of a body, whose first line has to reach the new level. -/
def indentedBlock (r : Reader Tree) : Reading (List Tree) := do
  let level ← openBlock
  finishing
    (do
      let token ← current
      if token.column < level then fail (.indentation level token.column) token.span.start
      else r.block level)
    closeBlock

def body (r : Reader Tree) : Reading (List Tree) := do
  if ← accept .newline then do
    skipLineBreaks
    r.indentedBlock
  else do
    let tree ← r.operand 0
    pure [tree]

end Offside.Reader
