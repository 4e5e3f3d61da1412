import Offside.Proofs.Bare
import Offside.Proofs.DefaultGrammar

set_option autoImplicit false

/-!
# The grammar of a program on one line

A derivation of the grammar is a phrase. It is written as the tokens it derives, and what it means is a
tree without spans, or the part of one that its symbol stands for.
-/
namespace Offside.OneLine

/-- A token of the kind. -/
abbrev Terminal (kind : Kind) := { t : Token // t.kind = kind }

/-- What a phrase is derived from: an expression; an operation of the first tiers, or the rest of one
behind its first operand; an atom with calls and indexes behind it, or those alone; an atom; what stands
between the brackets of a call or a list; a parameter, parameters with commas, what stands before an
arrow. -/
inductive Symbol
  | expression
  | operation (tiers : Nat)
  | operands (tier : Nat)
  | primary
  | suffixes
  | atom
  | arguments
  | name
  | names
  | parameters

/-- What a phrase of the symbol means. The rest of an operation or of a primary means a tree as soon as
the tree to its left is given. -/
abbrev Symbol.Meaning : Symbol → Type
  | .expression | .operation _ | .primary | .atom => Tree
  | .operands _ | .suffixes => Tree → Tree
  | .arguments => List Tree
  | .name => String
  | .names | .parameters => List String

/-- The binary operators of a tier, the tightest tier first. -/
def tier : Nat → List Kind
  | 0 => [.star, .slash, .percent]
  | 1 => [.plus, .dash]
  | 2 => [.less, .lessEquals, .greater, .greaterEquals]
  | 3 => [.equals, .notEquals]
  | _ => []

inductive Phrase : Symbol → Type
  | assignment (left : Phrase .primary) (sign : Terminal .assignment)
      (right : Phrase .expression) : Phrase .expression
  | conditional (left : Phrase (.operation 4)) (sign : Terminal .question)
      (right : Phrase .expression) : Phrase .expression
  | function (left : Phrase .parameters) (sign : Terminal .arrow) (right : Phrase .expression) :
      Phrase .expression
  | plain (inner : Phrase (.operation 4)) : Phrase .expression
  | unary (sign : Token) (operator : Operator)
      (written : Operator.unary? sign.kind = some operator) (right : Phrase (.operation 0)) :
      Phrase (.operation 0)
  | single (inner : Phrase .primary) : Phrase (.operation 0)
  | chain {n : Nat} (left : Phrase (.operation n)) (rest : Phrase (.operands n)) :
      Phrase (.operation (n + 1))
  | noOperand {n : Nat} : Phrase (.operands n)
  | operand {n : Nat} (sign : Token) (mem : sign.kind ∈ tier n) (operator : Operator)
      (written : Operator.binary? sign.kind = some operator) (next : Phrase (.operation n))
      (rest : Phrase (.operands n)) : Phrase (.operands n)
  | suffixed (left : Phrase .atom) (rest : Phrase .suffixes) : Phrase .primary
  | noSuffix : Phrase .suffixes
  | call (start : Terminal .openParen) (inner : Phrase .arguments) (stop : Terminal .closeParen)
      (rest : Phrase .suffixes) : Phrase .suffixes
  | index (start : Terminal .openBracket) (inner : Phrase .expression)
      (stop : Terminal .closeBracket) (rest : Phrase .suffixes) : Phrase .suffixes
  | identifier (t : Terminal .identifier) : Phrase .atom
  | number (t : Terminal .number) : Phrase .atom
  | string (t : Terminal .string) : Phrase .atom
  | trueWord (t : Terminal .trueWord) : Phrase .atom
  | falseWord (t : Terminal .falseWord) : Phrase .atom
  | group (start : Terminal .openParen) (inner : Phrase .expression)
      (comma : Option (Terminal .comma)) (stop : Terminal .closeParen) : Phrase .atom
  | list (start : Terminal .openBracket) (inner : Phrase .arguments)
      (stop : Terminal .closeBracket) : Phrase .atom
  | noArguments : Phrase .arguments
  | lastArgument (first : Phrase .expression) : Phrase .arguments
  | argument (first : Phrase .expression) (comma : Terminal .comma) (rest : Phrase .arguments) :
      Phrase .arguments
  | bareName (t : Terminal .identifier) : Phrase .name
  | groupedName (start : Terminal .openParen) (inner : Phrase .name)
      (comma : Option (Terminal .comma)) (stop : Terminal .closeParen) : Phrase .name
  | noNames : Phrase .names
  | lastName (first : Phrase .name) : Phrase .names
  | moreNames (first : Phrase .name) (comma : Terminal .comma) (rest : Phrase .names) :
      Phrase .names
  | oneParameter (t : Terminal .identifier) : Phrase .parameters
  | parameterList (start : Terminal .openParen) (inner : Phrase .names)
      (stop : Terminal .closeParen) : Phrase .parameters

def numberOf (source : String) (t : Token) : Binary64 :=
  (Binary64.ofText? (t.text source)).getD default

/-- What stands between the quotes, with its escapes resolved. -/
def stringOf (source : String) (t : Token) : String :=
  ((Reader.unquoted? (t.text source).toList).map fun cs =>
    Text.unescape (String.ofList cs)).getD ""

namespace Phrase

def optional : Option (Terminal .comma) → List Token
  | none => []
  | some comma => [comma.val]

/-- The tokens that a phrase derives. -/
def tokens : {x : Symbol} → Phrase x → List Token
  | _, .assignment left sign right => left.tokens ++ sign.val :: right.tokens
  | _, .conditional left sign right => left.tokens ++ sign.val :: right.tokens
  | _, .function left sign right => left.tokens ++ sign.val :: right.tokens
  | _, .plain inner => inner.tokens
  | _, .unary sign _ _ right => sign :: right.tokens
  | _, .single inner => inner.tokens
  | _, .chain left rest => left.tokens ++ rest.tokens
  | _, .noOperand => []
  | _, .operand sign _ _ _ next rest => sign :: (next.tokens ++ rest.tokens)
  | _, .suffixed left rest => left.tokens ++ rest.tokens
  | _, .noSuffix => []
  | _, .call start inner stop rest => start.val :: (inner.tokens ++ stop.val :: rest.tokens)
  | _, .index start inner stop rest => start.val :: (inner.tokens ++ stop.val :: rest.tokens)
  | _, .identifier t => [t.val]
  | _, .number t => [t.val]
  | _, .string t => [t.val]
  | _, .trueWord t => [t.val]
  | _, .falseWord t => [t.val]
  | _, .group start inner comma stop =>
    start.val :: (inner.tokens ++ (optional comma ++ [stop.val]))
  | _, .list start inner stop => start.val :: (inner.tokens ++ [stop.val])
  | _, .noArguments => []
  | _, .lastArgument first => first.tokens
  | _, .argument first comma rest => first.tokens ++ comma.val :: rest.tokens
  | _, .bareName t => [t.val]
  | _, .groupedName start inner comma stop =>
    start.val :: (inner.tokens ++ (optional comma ++ [stop.val]))
  | _, .noNames => []
  | _, .lastName first => first.tokens
  | _, .moreNames first comma rest => first.tokens ++ comma.val :: rest.tokens
  | _, .oneParameter t => [t.val]
  | _, .parameterList start inner stop => start.val :: (inner.tokens ++ [stop.val])

/-- The tree of a derivation. -/
def meaning (source : String) : {x : Symbol} → Phrase x → x.Meaning
  | _, .assignment left _ right => Tree.assign default (left.meaning source) (right.meaning source)
  | _, .conditional left _ right =>
    Tree.conditional default (left.meaning source) [right.meaning source]
  | _, .function left _ right =>
    Tree.function default (left.meaning source) [right.meaning source]
  | _, .plain inner => inner.meaning source
  | _, .unary _ operator _ right => Tree.unary default operator (right.meaning source)
  | _, .single inner => inner.meaning source
  | _, .chain left rest => rest.meaning source (left.meaning source)
  | _, .noOperand => fun left => left
  | _, .operand _ _ operator _ next rest => fun left =>
    rest.meaning source (Tree.binary default operator left (next.meaning source))
  | _, .suffixed left rest => rest.meaning source (left.meaning source)
  | _, .noSuffix => fun left => left
  | _, .call _ inner _ rest => fun left =>
    rest.meaning source (Tree.call default left (inner.meaning source))
  | _, .index _ inner _ rest => fun left =>
    rest.meaning source (Tree.index default left (inner.meaning source))
  | _, .identifier t => Tree.identifier default (t.val.text source)
  | _, .number t => Tree.number default (numberOf source t.val)
  | _, .string t => Tree.string default (stringOf source t.val)
  | _, .trueWord _ => Tree.boolean default true
  | _, .falseWord _ => Tree.boolean default false
  | _, .group _ inner _ _ => inner.meaning source
  | _, .list _ inner _ => Tree.list default (inner.meaning source)
  | _, .noArguments => ([] : List Tree)
  | _, .lastArgument first => ([first.meaning source] : List Tree)
  | _, .argument first _ rest => List.cons (first.meaning source) (rest.meaning source)
  | _, .bareName t => t.val.text source
  | _, .groupedName _ inner _ _ => inner.meaning source
  | _, .noNames => ([] : List String)
  | _, .lastName first => ([first.meaning source] : List String)
  | _, .moreNames first _ rest => List.cons (first.meaning source) (rest.meaning source)
  | _, .oneParameter t => ([t.val.text source] : List String)
  | _, .parameterList _ inner _ => inner.meaning source

/-- Only names and indexes stand on the left of an assignment, at any place of the phrase. -/
def Proper (source : String) : {x : Symbol} → Phrase x → Prop
  | _, .assignment left _ right =>
    Tree.isAssignable (left.meaning source) ∧ left.Proper source ∧ right.Proper source
  | _, .conditional left _ right => left.Proper source ∧ right.Proper source
  | _, .function _ _ right => right.Proper source
  | _, .plain inner => inner.Proper source
  | _, .unary _ _ _ right => right.Proper source
  | _, .single inner => inner.Proper source
  | _, .chain left rest => left.Proper source ∧ rest.Proper source
  | _, .operand _ _ _ _ next rest => next.Proper source ∧ rest.Proper source
  | _, .suffixed left rest => left.Proper source ∧ rest.Proper source
  | _, .call _ inner _ rest => inner.Proper source ∧ rest.Proper source
  | _, .index _ inner _ rest => inner.Proper source ∧ rest.Proper source
  | _, .group _ inner _ _ => inner.Proper source
  | _, .list _ inner _ => inner.Proper source
  | _, .lastArgument first => first.Proper source
  | _, .argument first _ rest => first.Proper source ∧ rest.Proper source
  | _, _ => True

end Phrase

/-- The tokens derive from the symbol, with the meaning. -/
def Derives (source : String) (x : Symbol) (ks : List Token) (m : x.Meaning) : Prop :=
  ∃ p : Phrase x, p.Proper source ∧ p.tokens = ks ∧ p.meaning source = m

end Offside.OneLine
