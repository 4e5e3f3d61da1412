import Offside.Binary64.Numeral
import Offside.Statement
import Offside.Text.Escape
import Offside.Tree.Render

set_option autoImplicit false

/-!
# The rules of the language

The rules that start an expression (names, literals, prefix operators, brackets) and those that continue
one (binary operators, assignment, conditionals, functions, calls, indexing).
-/
namespace Offside

/-- How tightly the operators of the language bind, the loosest first. -/
inductive Level
  | lowest
  | assignment
  | conditional
  | function
  | equality
  | relational
  | additive
  | multiplicative
  | unary
  | call
  deriving DecidableEq

namespace Level

def power : Level → Int
  | .lowest => 0
  | .assignment => 10
  | .conditional => 20
  | .function => 30
  | .equality => 40
  | .relational => 50
  | .additive => 60
  | .multiplicative => 70
  | .unary => 80
  | .call => 90

def all : List Level :=
  [.lowest, .assignment, .conditional, .function, .equality, .relational, .additive,
    .multiplicative, .unary, .call]

end Level

inductive PrefixRule
  | identifier
  | number
  | string
  | boolean
  | unary
  | parenthesis
  | list
  deriving DecidableEq

inductive InfixRule
  | binary
  | assignment
  | conditional
  | function
  | call
  | index
  deriving DecidableEq

namespace Reader

open Reading

variable {α : Type}

def text (r : Reader Tree) (t : Token) : String := t.text r.source

def misplaced (r : Reader Tree) (t : Token) (message : String) : Reading α :=
  fail (.misplaced (r.text t) message) t.span.start

/-! ### Bracketed sequences -/

/-- Reads expressions with commas between them up to the closing bracket, at most `bound` behind the
first one; a comma may end the sequence. Without a token left, the one operand that is read reports it. -/
def itemsWithin (r : Reader Tree) (close : Kind) : Nat → Reading (List Tree)
  | 0 => do
    let item ← r.operand 0
    pure [item]
  | bound + 1 => do
    skipLineBreaks
    if ← isNext close then pure []
    else do
      let item ← r.operand 0
      skipLineBreaks
      if ← accept .comma then do
        let items ← itemsWithin r close bound
        pure (item :: items)
      else pure [item]

def items (r : Reader Tree) (close : Kind) : Reading (List Tree) := do
  let s ← get
  r.itemsWithin close s.ahead.length

/-- Reads a sequence with its closing bracket. -/
def sequence (r : Reader Tree) (close : Kind) : Reading (List Tree × Token) := do
  openGroup
  let items ← finishing (r.items close) closeGroup
  let stop ← require r.source close
  pure (items, stop)

/-! ### Rules that start an expression -/

def identifier (r : Reader Tree) (t : Token) : Reading Tree :=
  pure (.identifier t.span (r.text t))

def number (r : Reader Tree) (t : Token) : Reading Tree :=
  match Binary64.ofText? (r.text t) with
  | some value => pure (.number t.span value)
  | none => fail (.malformedNumber (r.text t)) t.span.start

/-- The characters between two quotes that open and close a text. -/
def unquoted? : List Char → Option (List Char)
  | '"' :: cs => if cs.getLast? = some '"' then some cs.dropLast else none
  | _ => none

def string (r : Reader Tree) (t : Token) : Reading Tree :=
  match unquoted? (r.text t).toList with
  | some cs => pure (.string t.span (Text.unescape (String.ofList cs)))
  | none => r.misplaced t "expected a quoted string"

def boolean (t : Token) : Reading Tree := pure (.boolean t.span (t.kind = .trueWord))

def unary (r : Reader Tree) (t : Token) : Reading Tree :=
  match Operator.unary? t.kind with
  | none => r.misplaced t "expected a unary operator"
  | some operator => do
    let operand ← r.operand Level.unary.power
    pure (.unary (t.span.through operand.span) operator operand)

/-- The names of a parameter list. -/
def parameterNames : List Tree → Reading (List String)
  | [] => pure []
  | .identifier _ name :: items => do
    let names ← parameterNames items
    pure (name :: names)
  | item :: _ => fail (.misplaced item.render "parameters must be identifiers") item.span.start

/-- Reads behind an opening parenthesis: a parameter list if an arrow follows the closing one, or else
one expression. -/
def parenthesis (r : Reader Tree) (t : Token) : Reading Tree := do
  let (items, stop) ← r.sequence .closeParen
  let span := t.span.through stop.span
  if ← isNext .arrow then do
    let names ← parameterNames items
    pure (.parameters span names)
  else
    match items with
    | [item] => pure (item.withSpan span)
    | _ => do
      let s ← get
      match s.current? with
      | some follower =>
        fail (.unexpected .arrow follower.kind (r.text follower)) follower.span.start
      | none => r.misplaced stop "expected `->` after a parameter list"

def list (r : Reader Tree) (t : Token) : Reading Tree := do
  let (items, stop) ← r.sequence .closeBracket
  pure (.list (t.span.through stop.span) items)

/-! ### Rules that continue an expression -/

def binary (r : Reader Tree) (left : Tree) (t : Token) : Reading Tree :=
  match Operator.binary? t.kind with
  | none => r.misplaced t "expected a binary operator"
  | some operator => do
    let right ← r.operand (r.power t.kind)
    pure (.binary (left.span.through right.span) operator left right)

/-- Reads the value of an assignment, which may be an assignment in turn. -/
def assignment (r : Reader Tree) (left : Tree) (t : Token) : Reading Tree :=
  if left.isAssignable then do
    let value ← r.operand (r.power t.kind - 1)
    pure (.assign (left.span.through value.span) left value)
  else r.misplaced t "left side of `=` must be a name or an index"

/-- From the start of one span to the end of the last tree. -/
def spanThrough (start : Span) (trees : List Tree) : Span :=
  match trees.getLast? with
  | some last => start.through last.span
  | none => start

def conditional (r : Reader Tree) (left : Tree) : Reading Tree := do
  let body ← r.body
  pure (.conditional (spanThrough left.span body) left body)

/-- The names that the left side of an arrow stands for. -/
def parameters? : Tree → Option (List String)
  | .parameters _ names => some names
  | .identifier _ name => some [name]
  | _ => none

def function (r : Reader Tree) (left : Tree) (t : Token) : Reading Tree :=
  match parameters? left with
  | none => r.misplaced t "expected a parameter list before `->`"
  | some names => do
    let body ← r.body
    pure (.function (spanThrough left.span body) names body)

def call (r : Reader Tree) (left : Tree) : Reading Tree := do
  let (arguments, stop) ← r.sequence .closeParen
  pure (.call (left.span.through stop.span) left arguments)

def index (r : Reader Tree) (left : Tree) : Reading Tree := do
  openGroup
  let item ← finishing (r.operand 0) (skipLineBreaks *> closeGroup)
  let stop ← require r.source .closeBracket
  pure (.index (left.span.through stop.span) left item)

end Reader

namespace PrefixRule

def read : PrefixRule → Reader Tree → Token → Reading Tree
  | .identifier, r, t => r.identifier t
  | .number, r, t => r.number t
  | .string, r, t => r.string t
  | .boolean, _, t => Reader.boolean t
  | .unary, r, t => r.unary t
  | .parenthesis, r, t => r.parenthesis t
  | .list, r, t => r.list t

end PrefixRule

namespace InfixRule

def read : InfixRule → Reader Tree → Tree → Token → Reading Tree
  | .binary, r, left, t => r.binary left t
  | .assignment, r, left, t => r.assignment left t
  | .conditional, r, left, _ => r.conditional left
  | .function, r, left, t => r.function left t
  | .call, r, left, _ => r.call left
  | .index, r, left, _ => r.index left

end InfixRule

def Tree.language : Language PrefixRule InfixRule Tree := ⟨PrefixRule.read, InfixRule.read⟩

end Offside
