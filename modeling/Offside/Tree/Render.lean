import Offside.Binary64.Shortest
import Offside.Text.Quoted
import Offside.Tree

set_option autoImplicit false

/-!
# Trees as S-expressions

A leaf is written as it is, a string quoted; every other node is a parenthesised list that opens with an
operator symbol or a word for the kind of node.
-/
namespace Offside.Tree

/-- The names with a space between neighbours. -/
def spaced : List String → String
  | [] => ""
  | [name] => name
  | name :: names => name ++ " " ++ spaced names

mutual

def render : Tree → String
  | .identifier _ name => name
  | .number _ value => value.toText
  | .string _ value => Text.quote value
  | .boolean _ value => if value then "true" else "false"
  | .parameters _ names => "(args " ++ spaced names ++ ")"
  | .function _ params body => "(fn (" ++ spaced params ++ ")" ++ renderAll body ++ ")"
  | .call _ callee arguments => "(call " ++ render callee ++ renderAll arguments ++ ")"
  | .list _ items => "(list" ++ renderAll items ++ ")"
  | .index _ target item => "(index " ++ render target ++ " " ++ render item ++ ")"
  | .binary _ operator left right =>
    "(" ++ operator.symbol ++ " " ++ render left ++ " " ++ render right ++ ")"
  | .unary _ operator operand => "(" ++ operator.symbol ++ " " ++ render operand ++ ")"
  | .assign _ target value => "(= " ++ render target ++ " " ++ render value ++ ")"
  | .conditional _ condition body => "(? " ++ render condition ++ renderAll body ++ ")"

/-- Every tree behind a space. -/
def renderAll : List Tree → String
  | [] => ""
  | t :: ts => " " ++ render t ++ renderAll ts

end

end Offside.Tree
