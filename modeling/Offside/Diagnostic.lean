import Offside.Text.Quoted
import Offside.Token

set_option autoImplicit false

/-!
# Diagnostics

A diagnostic is a cause and the place it points at. The wording of a cause is settled here alone: its
name, its message, and the tip that a report puts behind the name.
-/
namespace Offside

inductive Cause
  /-- No lexical class starts with this character. -/
  | unrecognised (lexeme : String)
  | endOfInput
  | unexpected (expected found : Kind) (lexeme : String)
  /-- A token of the right kind in the wrong place; the message says why. -/
  | misplaced (lexeme message : String)
  /-- No rule starts an expression with this kind of token. -/
  | noPrefixRule (kind : Kind)
  /-- The kind has a binding power but no rule continues an expression with it. -/
  | noInfixRule (kind : Kind)
  | indentation (expected found : Nat)
  | malformedNumber (lexeme : String)
  | nestedTooDeeply (limit : Nat)
  deriving DecidableEq, Repr

namespace Cause

def name : Cause → String
  | .unrecognised _ => "UnrecognisedToken"
  | .endOfInput => "UnexpectedEndOfInput"
  | .unexpected _ _ _ => "UnexpectedToken"
  | .misplaced _ _ => "UnexpectedTokenDetailed"
  | .noPrefixRule _ => "NoPrefixParser"
  | .noInfixRule _ => "NoInfixParser"
  | .indentation _ _ => "IndentationViolation"
  | .malformedNumber _ => "NumberParseError"
  | .nestedTooDeeply _ => "RecursionLimitExceeded"

def message : Cause → String
  | .unrecognised lexeme => "unrecognised token: " ++ Text.quote lexeme
  | .endOfInput => "unexpected end of input"
  | .unexpected expected found lexeme =>
    "unexpected token: expected " ++ expected.name ++ ", found " ++ found.name ++ " " ++
      Text.quote lexeme
  | .misplaced lexeme message =>
    "unexpected token (" ++ Text.quote message ++ "): " ++ Text.quote lexeme
  | .noPrefixRule kind => "no prefix parser for " ++ kind.name
  | .noInfixRule kind => "no infix parser for " ++ kind.name
  | .indentation expected found =>
    "bad indentation: expected column " ++ toString expected ++ ", found " ++ toString found
  | .malformedNumber lexeme => "error parsing number: " ++ Text.quote lexeme
  | .nestedTooDeeply limit => "expression nesting exceeds " ++ toString limit ++ " levels"

def tip? : Cause → Option String
  | .unrecognised _ => none
  | .endOfInput => some "The input ended in the middle of an expression"
  | .unexpected expected found lexeme =>
    some ("Expected `" ++ expected.name ++ "`, found `" ++ found.name ++ "` " ++
      Text.quote lexeme)
  | .misplaced lexeme message => some ("Unexpected token: `" ++ lexeme ++ "`, " ++ message)
  | .noPrefixRule kind => some ("`" ++ kind.name ++ "` cannot start an expression")
  | .noInfixRule kind =>
    some ("`" ++ kind.name ++
      "` has a precedence but no infix parser, check the parser setup")
  | .indentation expected found =>
    some ("Expected indentation of " ++ toString expected ++ " columns, found " ++ toString found)
  | .malformedNumber lexeme => some ("Invalid number: `" ++ lexeme ++ "`")
  | .nestedTooDeeply limit =>
    some ("Expressions may not be nested more than " ++ toString limit ++ " levels deep")

end Cause

structure Diagnostic where
  cause : Cause
  position : Position
  deriving DecidableEq, Repr

namespace Diagnostic

def message (d : Diagnostic) : String := d.cause.message ++ " at " ++ d.position.toText

end Diagnostic

end Offside
