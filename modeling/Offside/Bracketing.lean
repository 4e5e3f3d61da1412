import Offside.Climbing

set_option autoImplicit false

/-!
# Rules that write out the grouping

A small language whose values are texts: an expression comes out with a pair of parentheses around every
operation, so the text shows how the climbing grouped it. Its rules use nothing but the steps of a
reading.
-/
namespace Offside.Bracketing

open Reading

inductive PrefixRule
  | name
  | shout
  /-- An expression in parentheses. -/
  | group
  /-- An expression in square brackets, inside which line breaks do not count. -/
  | bracket
  | negation
  /-- An indented block of expressions. -/
  | block
  deriving DecidableEq

inductive InfixRule
  | left
  | right
  | trailing
  deriving DecidableEq

/-- Reads the expressions of a block, each behind a space. -/
def linesWithin (r : Reader String) (level : Nat) : Nat → Reading String
  | 0 => pure ""
  | bound + 1 => do
    let s ← get
    if s.hasIndentation level then do
      let e ← r.operand 0
      let _ ← accept .newline
      let es ← linesWithin r level bound
      pure (" " ++ e ++ es)
    else pure ""

def readBlock (r : Reader String) (t : Token) : Reading String := do
  let _ ← require r.source .newline
  let level ← openBlock
  let s ← get
  let lines ← finishing (linesWithin r level s.ahead.length) closeBlock
  let s ← get
  pure ("\x7b" ++ toString level ++ lines ++ " " ++ toString s.indentation.current ++
    t.text r.source ++ "\x7d")

def PrefixRule.read : PrefixRule → Reader String → Token → Reading String
  | .name, r, t => pure (t.text r.source)
  | .shout, _, _ => pure "X"
  | .group, r, _ => do
    let e ← r.operand 0
    let _ ← require r.source .closeParen
    pure e
  | .bracket, r, _ => do
    openGroup
    let e ← finishing (r.operand 0) closeGroup
    let _ ← require r.source .closeBracket
    pure ("[" ++ e ++ "]")
  | .negation, r, t => do
    let e ← r.operand (r.power t.kind)
    pure ("(" ++ t.text r.source ++ e ++ ")")
  | .block, r, t => readBlock r t

def InfixRule.read : InfixRule → Reader String → String → Token → Reading String
  | .left, r, e, t => do
    let f ← r.operand (r.power t.kind)
    pure ("(" ++ e ++ " " ++ t.text r.source ++ " " ++ f ++ ")")
  | .right, r, e, t => do
    let f ← r.operand (r.power t.kind - 1)
    pure ("(" ++ e ++ " " ++ t.text r.source ++ " " ++ f ++ ")")
  | .trailing, r, e, t => pure ("(" ++ e ++ t.text r.source ++ ")")

def language : Language PrefixRule InfixRule String := ⟨PrefixRule.read, InfixRule.read⟩

end Offside.Bracketing
