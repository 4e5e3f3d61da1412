import Offside.Binary64
import Offside.Operator

set_option autoImplicit false

/-!
# Syntax trees

Every node carries the span of source it was read from. A parameter list is a node of its own only until
the arrow behind it is read; in a finished function it is a list of names.
-/
namespace Offside

inductive Tree
  | identifier (span : Span) (name : String)
  | number (span : Span) (value : Binary64)
  | string (span : Span) (value : String)
  | boolean (span : Span) (value : Bool)
  | parameters (span : Span) (names : List String)
  | function (span : Span) (params : List String) (body : List Tree)
  | call (span : Span) (callee : Tree) (arguments : List Tree)
  | list (span : Span) (items : List Tree)
  | index (span : Span) (target item : Tree)
  | binary (span : Span) (operator : Operator) (left right : Tree)
  | unary (span : Span) (operator : Operator) (operand : Tree)
  | assign (span : Span) (target value : Tree)
  | conditional (span : Span) (condition : Tree) (body : List Tree)

namespace Tree

def span : Tree → Span
  | .identifier span _ => span
  | .number span _ => span
  | .string span _ => span
  | .boolean span _ => span
  | .parameters span _ => span
  | .function span _ _ => span
  | .call span _ _ => span
  | .list span _ => span
  | .index span _ _ => span
  | .binary span _ _ _ => span
  | .unary span _ _ => span
  | .assign span _ _ => span
  | .conditional span _ _ => span

/-- The same tree with another span at its root. -/
def withSpan (span : Span) : Tree → Tree
  | .identifier _ name => .identifier span name
  | .number _ value => .number span value
  | .string _ value => .string span value
  | .boolean _ value => .boolean span value
  | .parameters _ names => .parameters span names
  | .function _ params body => .function span params body
  | .call _ callee arguments => .call span callee arguments
  | .list _ items => .list span items
  | .index _ target item => .index span target item
  | .binary _ operator left right => .binary span operator left right
  | .unary _ operator operand => .unary span operator operand
  | .assign _ target value => .assign span target value
  | .conditional _ condition body => .conditional span condition body

/-- Only names and index expressions can be assigned to. -/
def isAssignable : Tree → Bool
  | .identifier _ _ => true
  | .index _ _ _ => true
  | _ => false

def children : Tree → List Tree
  | .identifier _ _ => []
  | .number _ _ => []
  | .string _ _ => []
  | .boolean _ _ => []
  | .parameters _ _ => []
  | .function _ _ body => body
  | .call _ callee arguments => callee :: arguments
  | .list _ items => items
  | .index _ target item => [target, item]
  | .binary _ _ left right => [left, right]
  | .unary _ _ operand => [operand]
  | .assign _ target value => [target, value]
  | .conditional _ condition body => condition :: body

mutual

/-- Every node of the tree with its depth, a node before its children. -/
def preorder (depth : Nat) : Tree → List (Nat × Tree)
  | .identifier span name => [(depth, .identifier span name)]
  | .number span value => [(depth, .number span value)]
  | .string span value => [(depth, .string span value)]
  | .boolean span value => [(depth, .boolean span value)]
  | .parameters span names => [(depth, .parameters span names)]
  | .function span params body =>
    (depth, .function span params body) :: preorderAll (depth + 1) body
  | .call span callee arguments =>
    (depth, .call span callee arguments) ::
      (preorder (depth + 1) callee ++ preorderAll (depth + 1) arguments)
  | .list span items => (depth, .list span items) :: preorderAll (depth + 1) items
  | .index span target item =>
    (depth, .index span target item) ::
      (preorder (depth + 1) target ++ preorder (depth + 1) item)
  | .binary span operator left right =>
    (depth, .binary span operator left right) ::
      (preorder (depth + 1) left ++ preorder (depth + 1) right)
  | .unary span operator operand =>
    (depth, .unary span operator operand) :: preorder (depth + 1) operand
  | .assign span target value =>
    (depth, .assign span target value) ::
      (preorder (depth + 1) target ++ preorder (depth + 1) value)
  | .conditional span condition body =>
    (depth, .conditional span condition body) ::
      (preorder (depth + 1) condition ++ preorderAll (depth + 1) body)

def preorderAll (depth : Nat) : List Tree → List (Nat × Tree)
  | [] => []
  | t :: ts => preorder depth t ++ preorderAll depth ts

end

theorem span_withSpan (s : Span) (t : Tree) : (t.withSpan s).span = s := by
  cases t <;> rfl

end Tree

end Offside
