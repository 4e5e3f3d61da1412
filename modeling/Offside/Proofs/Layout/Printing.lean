import Offside.Proofs.Content

set_option autoImplicit false

/-!
# Writing trees down

Every tree that a program can have is written in one plain way: a statement starts a line, one space
stands between the tokens of a line, an operand that is not a single token stands in parentheses, and a
body is an indented block.
-/
namespace Offside

/-- The text of the token of an operator or a bracket. -/
def Kind.spelling (kind : Kind) : List Char :=
  (Lexeme.classes.findSome? fun
    | .operator spelling k => if k = kind then some spelling else none
    | _ => none).getD []

/-- A part of a text: a token, or a line break with the indentation of the next line. -/
inductive Piece
  | word (kind : Kind) (text : List Char)
  | line (column : Nat)
  deriving DecidableEq

namespace Piece

/-- The token of an operator or a bracket. -/
def sign (kind : Kind) : Piece := .word kind kind.spelling

/-- The text of the pieces; a token that does not start a line has a space before it. -/
def text (atStart : Bool) : List Piece → List Char
  | [] => []
  | .word _ cs :: ps => (if atStart then cs else ' ' :: cs) ++ text false ps
  | .line column :: ps => '\n' :: (List.replicate column ' ' ++ text true ps)

/-- Sequences of pieces with commas between them. -/
def separated : List (List Piece) → List Piece
  | [] => []
  | [ps] => ps
  | ps :: qs :: rest => ps ++ sign .comma :: separated (qs :: rest)

end Piece

/-- The text of a character of a string. -/
def Text.literalChar (c : Char) : List Char :=
  if c = '\\' then ['\\', '\\']
  else if c = '"' then ['\\', '"']
  else if c = '\n' then ['\\', 'n']
  else [c]

/-- The text of a string with its quotes. -/
def Text.literal (value : String) : List Char :=
  '"' :: (value.toList.flatMap Text.literalChar ++ ['"'])

/-- What a plain way to write programs down leaves open. -/
structure Layout where
  /-- The columns between a block and the one around it. -/
  width : Nat
  /-- How numbers are written. -/
  numeral : Binary64 → List Char
  /-- Whether lists are put in parentheses like the other operands that are no single tokens. -/
  enclosesLists : Bool
  /-- The column of the parenthesis behind a block that stands inside `k` others. -/
  closing : Nat → Nat
  closing_lt : ∀ k, closing k < (k + 1) * width

namespace Layout

/-- Whether an operand is put in parentheses. -/
def encloses (l : Layout) : Tree → Bool
  | .identifier _ _ => false
  | .number _ _ => false
  | .string _ _ => false
  | .boolean _ _ => false
  | .list _ _ => l.enclosesLists
  | _ => true

end Layout

/-- Whether the text of a tree ends with a block. -/
def Tree.endsInBlock : Tree → Bool
  | .function _ _ _ => true
  | .conditional _ _ _ => true
  | _ => false

namespace Layout

/-- The parenthesis behind a block stands on a line of its own. -/
def ending (l : Layout) (k : Nat) (t : Tree) : List Piece :=
  if t.endsInBlock then [.line (l.closing k)] else []

/-- An operand inside `k` blocks from the text of its tree. -/
def operand (l : Layout) (k : Nat) (t : Tree) (ps : List Piece) : List Piece :=
  if l.encloses t then .sign .openParen :: (ps ++ (l.ending k t ++ [.sign .closeParen])) else ps

def parameters (names : List String) : List Piece :=
  .sign .openParen ::
    (Piece.separated (names.map fun name => [.word .identifier name.toList]) ++ [.sign .closeParen])

mutual

/-- The text of a tree inside `k` blocks. -/
def print (l : Layout) (k : Nat) : Tree → List Piece
  | .identifier _ name => [.word .identifier name.toList]
  | .number _ value => [.word .number (l.numeral value)]
  | .string _ value => [.word .string (Text.literal value)]
  | .boolean _ true => [.word .trueWord "true".toList]
  | .boolean _ false => [.word .falseWord "false".toList]
  | .parameters _ names => parameters names
  | .function _ names body => parameters names ++ .sign .arrow :: lines l (k + 1) body
  | .call _ callee arguments =>
    l.operand k callee (print l k callee) ++
      .sign .openParen :: (Piece.separated (operands l k arguments) ++ [.sign .closeParen])
  | .list _ items =>
    .sign .openBracket :: (Piece.separated (operands l k items) ++ [.sign .closeBracket])
  | .index _ target item =>
    l.operand k target (print l k target) ++
      .sign .openBracket :: (l.operand k item (print l k item) ++ [.sign .closeBracket])
  | .binary _ operator left right =>
    l.operand k left (print l k left) ++
      .sign operator.kind :: l.operand k right (print l k right)
  | .unary _ operator operand => .sign operator.kind :: l.operand k operand (print l k operand)
  | .assign _ target value =>
    l.operand k target (print l k target) ++
      .sign .assignment :: l.operand k value (print l k value)
  | .conditional _ condition body =>
    l.operand k condition (print l k condition) ++ .sign .question :: lines l (k + 1) body

/-- The texts of operands. -/
def operands (l : Layout) (k : Nat) : List Tree → List (List Piece)
  | [] => []
  | t :: ts => l.operand k t (print l k t) :: operands l k ts

/-- The text of the statements of a block inside `k - 1` others, each on lines of its own. -/
def lines (l : Layout) (k : Nat) : List Tree → List Piece
  | [] => []
  | t :: ts => .line (k * l.width) :: (print l k t ++ lines l k ts)

end

/-- The text of a program, whose first statement needs no line break before it. -/
def write (l : Layout) (trees : List Tree) : String :=
  String.ofList (Piece.text true (l.lines 0 trees).tail)

/-! ### How many expressions are open at once -/

/-- Inside parentheses the tree of an operand is an expression of its own. -/
def operandRoom (l : Layout) (t : Tree) (room : Nat) : Nat := if l.encloses t then room else room - 1

mutual

/-- How many expressions are open inside one another while the text of a tree is read. -/
def room (l : Layout) : Tree → Nat
  | .identifier _ _ => 1
  | .number _ _ => 1
  | .string _ _ => 1
  | .boolean _ _ => 1
  | .parameters _ _ => 2
  | .function _ _ body => 1 + max 1 (bodyRoom l body)
  | .call _ callee arguments =>
    1 + max (l.operandRoom callee (room l callee)) (itemsRoom l arguments)
  | .list _ items => 1 + itemsRoom l items
  | .index _ target item =>
    1 + max (l.operandRoom target (room l target)) (1 + l.operandRoom item (room l item))
  | .binary _ _ left right =>
    1 + max (l.operandRoom left (room l left)) (1 + l.operandRoom right (room l right))
  | .unary _ _ operand => 1 + (1 + l.operandRoom operand (room l operand))
  | .assign _ target value =>
    1 + max (l.operandRoom target (room l target)) (1 + l.operandRoom value (room l value))
  | .conditional _ condition body =>
    1 + max (l.operandRoom condition (room l condition)) (bodyRoom l body)

def itemsRoom (l : Layout) : List Tree → Nat
  | [] => 0
  | t :: ts => max (1 + l.operandRoom t (room l t)) (itemsRoom l ts)

def bodyRoom (l : Layout) : List Tree → Nat
  | [] => 0
  | t :: ts => max (room l t) (bodyRoom l ts)

end

end Layout

/-! ### The trees that can be written down -/

/-- A text that is cut whole into one text of the class. -/
def Lexeme.IsText (l : Lexeme) (text : List Char) : Prop := text ≠ [] ∧ l.extent text = text.length

/-- A word that is no reserved one. -/
def IsName (name : String) : Prop :=
  Lexeme.IsText .word name.toList ∧ Kind.reserved? name = none

namespace Tree

/-- What has to be true of a node by itself, with the way in which numbers are written. -/
def Sound (numeral : Binary64 → List Char) : Tree → Prop
  | .identifier _ name => IsName name
  | .number _ value => Lexeme.IsText .number (numeral value) ∧
    Binary64.ofText? (String.ofList (numeral value)) = some value
  | .parameters _ _ => False
  | .function _ names body => (∀ name ∈ names, IsName name) ∧ body ≠ []
  | .binary _ operator _ _ => Operator.binary? operator.kind = some operator
  | .unary _ operator _ => Operator.unary? operator.kind = some operator
  | .assign _ target _ => target.isAssignable
  | .conditional _ _ body => body ≠ []
  | _ => True

/-- Every node of the tree is sound. -/
inductive WellFormed (numeral : Binary64 → List Char) : Tree → Prop
  | node {t : Tree} (hsound : t.Sound numeral)
    (hchildren : ∀ c ∈ t.children, WellFormed numeral c) : WellFormed numeral t

end Tree

end Offside
