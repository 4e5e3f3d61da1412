import Offside.Position
import Offside.Text.Bytes
import Offside.Text.Padding

set_option autoImplicit false

/-!
# Tokens

A token is a kind and the span it covers. It carries no text of its own: the text is read off the
source the token was cut from.
-/
namespace Offside

inductive Kind
  | number
  | string
  | identifier
  | newline
  | openBracket
  | closeBracket
  | openParen
  | closeParen
  | assignment
  | equals
  | not
  | notEquals
  | less
  | lessEquals
  | greater
  | greaterEquals
  | question
  | comma
  | arrow
  | plus
  | dash
  | slash
  | star
  | percent
  | trueWord
  | falseWord
  deriving DecidableEq, Repr

namespace Kind

def name : Kind → String
  | .number => "Number"
  | .string => "String"
  | .identifier => "Identifier"
  | .newline => "Newline"
  | .openBracket => "OpenBracket"
  | .closeBracket => "CloseBracket"
  | .openParen => "OpenParen"
  | .closeParen => "CloseParen"
  | .assignment => "Assignment"
  | .equals => "Equals"
  | .not => "Not"
  | .notEquals => "NotEquals"
  | .less => "Less"
  | .lessEquals => "LessEquals"
  | .greater => "Greater"
  | .greaterEquals => "GreaterEquals"
  | .question => "Question"
  | .comma => "Comma"
  | .arrow => "Arrow"
  | .plus => "Plus"
  | .dash => "Dash"
  | .slash => "Slash"
  | .star => "Star"
  | .percent => "Percent"
  | .trueWord => "True"
  | .falseWord => "False"

def all : List Kind :=
  [.number, .string, .identifier, .newline, .openBracket, .closeBracket, .openParen, .closeParen,
    .assignment, .equals, .not, .notEquals, .less, .lessEquals, .greater, .greaterEquals,
    .question, .comma, .arrow, .plus, .dash, .slash, .star, .percent, .trueWord, .falseWord]

def ofName? (name : String) : Option Kind := all.find? (·.name = name)

/-- Words that are no identifiers. -/
def reserved? (word : String) : Option Kind :=
  if word = "true" then some .trueWord
  else if word = "false" then some .falseWord
  else none

theorem mem_all (k : Kind) : k ∈ all := by
  cases k <;> decide

end Kind

structure Token where
  kind : Kind
  span : Span
  deriving DecidableEq, Repr

namespace Token

def line (t : Token) : Nat := t.span.start.line

def column (t : Token) : Nat := t.span.start.column

def byteLength (t : Token) : Nat := t.span.stop.offset - t.span.start.offset

/-- The source text under the token; a span that cuts no text out of the source has none. -/
def text (source : String) (t : Token) : String :=
  String.ofList
    ((Text.between? t.span.start.offset t.span.stop.offset source.toList).getD [])

def toText (t : Token) : String := t.kind.name ++ " at " ++ t.span.start.toText

/-- One line of a token listing; a line break is written as an escape. -/
def describe (source : String) (t : Token) : String :=
  Text.alignRight ' ' 4 (toString t.line) ++ ":" ++ Text.alignLeft ' ' 4 (toString t.column) ++ " " ++
    Text.alignRight ' ' 15 t.kind.name ++ " " ++
    (if t.kind = .newline then "\\n" else t.text source)

end Token

end Offside
