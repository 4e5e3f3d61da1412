import Offside.Grammar
import Offside.Reading
import Offside.Settings

set_option autoImplicit false

/-!
# Precedence climbing

An expression is started by a prefix rule and continued by infix rules while the next token binds tighter
than the caller asked for. The rules of a language are given apart from the grammar that puts them on
kinds of tokens, and read their operands through the same climbing.

Each expression passes a token before it reads another one, and each round of a loop passes one more; so
the number of tokens ahead bounds both, whatever the nesting limit is.
-/
namespace Offside

/-- What a rule reads with: `operand least` reads an expression whose operators bind tighter than
`least`. -/
structure Reader (N : Type) where
  source : String
  power : Kind → Int
  operand : Int → Reading N

/-- What the rules of a language do with the token that brought them in, which has been passed, and with
the expression to its left. -/
structure Language (P I N : Type) where
  prefixRule : P → Reader N → Token → Reading N
  infixRule : I → Reader N → N → Token → Reading N

structure Setup (P I : Type) where
  grammar : Grammar P I
  source : String
  settings : Settings

namespace Setup

variable {P I N : Type}

def reader (setup : Setup P I) (operand : Int → Reading N) : Reader N :=
  ⟨setup.source, setup.grammar.power, operand⟩

/-- How tightly the next token binds to what was read. -/
def power (setup : Setup P I) (s : Reading.State) : Int :=
  s.power setup.grammar.power setup.settings.lineBreaksEndExpressions

end Setup

namespace Language

open Reading

variable {P I N : Type}

/-- Passes a token and starts an expression with it. -/
def first (language : Language P I N) (setup : Setup P I) (operand : Int → Reading N) :
    Reading N := do
  skipGroupedLineBreaks
  let token ← consume
  match setup.grammar.prefixRule? token.kind with
  | some rule => language.prefixRule rule (setup.reader operand) token
  | none => fail (.noPrefixRule token.kind) token.span.start

/-- Passes a token and continues an expression with it. -/
def next (language : Language P I N) (setup : Setup P I) (operand : Int → Reading N) (left : N) :
    Reading N := do
  skipGroupedLineBreaks
  let token ← consume
  match setup.grammar.infixRule? token.kind with
  | some rule => language.infixRule rule (setup.reader operand) left token
  | none => fail (.noInfixRule token.kind) token.span.start

/-- Continues an expression while the next token binds tighter than `least`, at most `rounds` times. -/
def extend (language : Language P I N) (setup : Setup P I) (operand : Int → Reading N) (least : Int) :
    Nat → N → Reading N
  | 0, left => pure left
  | rounds + 1, left => do
    let s ← get
    if s.done ∨ setup.power s ≤ least then pure left
    else do
      let longer ← language.next setup operand left
      extend language setup operand least rounds longer

def climb (language : Language P I N) (setup : Setup P I) (operand : Int → Reading N) (least : Int) :
    Reading N := do
  let left ← language.first setup operand
  let s ← get
  language.extend setup operand least s.ahead.length left

/-- Reads an expression among the next `bound` tokens. -/
def expressionWithin (language : Language P I N) (setup : Setup P I) : Nat → Int → Reading N
  | 0, _ => nested setup.settings.maxDepth endOfInput
  | bound + 1, least =>
    nested setup.settings.maxDepth
      (language.climb setup (expressionWithin language setup bound) least)

/-- Reads an expression whose operators bind tighter than `least`. -/
def expression (language : Language P I N) (setup : Setup P I) (least : Int) : Reading N := do
  let s ← get
  language.expressionWithin setup s.ahead.length least

end Language

end Offside
