import Offside.Diagnostic

set_option autoImplicit false

/-!
# Reports

A report shows a diagnostic with the line it points into and a caret under the column. Lines end at line
feeds, and the carriage returns before a line feed are not shown.
-/
namespace Offside

namespace Text

/-- Cuts a text at its line feeds. -/
def lines : List Char → List (List Char)
  | [] => [[]]
  | c :: cs =>
    if c = '\n' then [] :: lines cs
    else
      match lines cs with
      | [] => [[c]]
      | l :: ls => (c :: l) :: ls

def trimReturns (line : List Char) : List Char :=
  (line.reverse.dropWhile (· = '\r')).reverse

/-- The line of the given number, counted from one. -/
def line? (source : String) : Nat → Option String
  | 0 => none
  | n + 1 => (lines source.toList)[n]?.map fun l => String.ofList (trimReturns l)

end Text

namespace Diagnostic

def heading (d : Diagnostic) : String :=
  match d.cause.tip? with
  | none => "Error: " ++ d.cause.name
  | some tip => "Error: " ++ d.cause.name ++ " (" ++ tip ++ ")"

def report (d : Diagnostic) (source file : String) : String :=
  let number := toString d.position.line
  let gutter := Text.alignRight ' ' (number.length + 2) "|"
  d.heading ++ "\n" ++
    "-> " ++ file ++ ":" ++ d.position.toText ++ "\n" ++
    gutter ++ "\n" ++
    number ++ " | " ++ (Text.line? source d.position.line).getD "" ++ "\n" ++
    gutter ++ " " ++ Text.alignRight '-' (d.position.column + 1) "^" ++ "\n"

end Diagnostic

end Offside
