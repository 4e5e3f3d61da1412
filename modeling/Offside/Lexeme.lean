import Offside.Token

set_option autoImplicit false

/-!
# Lexical classes

A source text is made of words, numbers, line breaks, blanks, strings, comments and operators. The extent
of a class at a place is the number of characters of the longest text of the class that starts there, zero
if none does.
-/
namespace Offside

inductive Lexeme
  | word
  | number
  | newline
  | blanks
  | string
  | comment
  | operator (spelling : List Char) (kind : Kind)
  deriving DecidableEq

namespace Lexeme

def isLetter (c : Char) : Bool := ('a' ≤ c && c ≤ 'z') || ('A' ≤ c && c ≤ 'Z') || c = '_'

def isDigit (c : Char) : Bool := '0' ≤ c && c ≤ '9'

def isBlank (c : Char) : Bool := c = ' ' || c = '\t' || c = '\r'

def wordExtent : List Char → Nat
  | [] => 0
  | c :: cs => if isLetter c then 1 + (cs.takeWhile fun d => isLetter d || isDigit d).length else 0

/-- The point of a number has a digit on either side. -/
def numberExtent (cs : List Char) : Nat :=
  let whole := (cs.takeWhile isDigit).length
  if whole = 0 then 0
  else
    match cs.drop whole with
    | '.' :: rest =>
      let fraction := (rest.takeWhile isDigit).length
      if fraction = 0 then whole else whole + 1 + fraction
    | _ => whole

/-- The extent of a string behind its opening quote. A backslash takes the next character with it, and a
string does not reach over a line break. -/
def stringBodyExtent? : List Char → Option Nat
  | '"' :: _ => some 1
  | '\\' :: c :: cs => if c = '\n' then none else (stringBodyExtent? cs).map (2 + ·)
  | c :: cs => if c = '\\' ∨ c = '\n' then none else (stringBodyExtent? cs).map (1 + ·)
  | [] => none

def stringExtent : List Char → Nat
  | '"' :: cs => ((stringBodyExtent? cs).map (1 + ·)).getD 0
  | _ => 0

/-- A comment runs up to the next line break. -/
def commentExtent : List Char → Nat
  | '/' :: '/' :: cs => 2 + (cs.takeWhile fun c => c ≠ '\n').length
  | _ => 0

def extent : Lexeme → List Char → Nat
  | .word, cs => wordExtent cs
  | .number, cs => numberExtent cs
  | .newline, cs => if cs.head? = some '\n' then 1 else 0
  | .blanks, cs => (cs.takeWhile isBlank).length
  | .string, cs => stringExtent cs
  | .comment, cs => commentExtent cs
  | .operator spelling _, cs => if spelling.isPrefixOf cs then spelling.length else 0

/-- The classes in the order they are tried: a class stands before every class whose texts are beginnings
of its own. -/
def classes : List Lexeme :=
  [.word, .number, .newline, .blanks, .string, .comment,
    .operator ['['] .openBracket, .operator [']'] .closeBracket,
    .operator ['('] .openParen, .operator [')'] .closeParen,
    .operator ['=', '='] .equals, .operator ['!', '='] .notEquals,
    .operator ['!'] .not, .operator ['='] .assignment,
    .operator ['<', '='] .lessEquals, .operator ['<'] .less,
    .operator ['>', '='] .greaterEquals, .operator ['>'] .greater,
    .operator ['?'] .question, .operator [','] .comma,
    .operator ['-', '>'] .arrow, .operator ['+'] .plus, .operator ['-'] .dash,
    .operator ['/'] .slash, .operator ['*'] .star, .operator ['%'] .percent]

/-- The class of the text at a place. -/
def next? (cs : List Char) : Option Lexeme := classes.find? fun l => l.extent cs ≠ 0

/-- The kind of token that a text of the class makes; blanks and comments make none. -/
def kind? : Lexeme → List Char → Option Kind
  | .word, text => some ((Kind.reserved? (String.ofList text)).getD .identifier)
  | .number, _ => some .number
  | .newline, _ => some .newline
  | .blanks, _ => none
  | .string, _ => some .string
  | .comment, _ => none
  | .operator _ kind, _ => some kind

theorem extent_pos_of_next? (cs : List Char) (l : Lexeme) (h : next? cs = some l) :
    0 < l.extent cs := by
  have := List.find?_some h
  simp only [ne_eq, decide_not, Bool.not_eq_eq_eq_not, Bool.not_true, decide_eq_false_iff_not] at this
  omega

end Lexeme

end Offside
