import Offside.Diagnostic.Report
import Offside.Directory
import Offside.Program

set_option autoImplicit false

/-!
# The command line

The first argument names a file; options may stand anywhere behind it, each is found by its own search,
and the first occurrence counts. What a run prints and its exit code depend on the arguments and on the
text of the file alone.
-/
namespace Offside.CommandLine

structure Options where
  path : String
  listTokens : Bool
  settings : Settings

/-- Why the usage is printed instead: the arguments name no file, or a flag has no number behind it. -/
inductive Refusal
  | noFile
  | noNumber (flag : String)
  deriving DecidableEq

structure Transcript where
  exitCode : Nat
  stdout : String
  stderr : String
  deriving DecidableEq

def usage : String :=
  "Usage: tila <file.tila> [options]\n" ++
  "\n" ++
  "Options:\n" ++
  "  --tokens          List the tokens before parsing\n" ++
  "  --indent <n>      Columns per indentation level (default: 2)\n" ++
  "  --max-depth <n>   Maximum expression nesting (default: 256)\n"

/-- A whole number below `limit`, which a plus sign may precede. -/
def number? (limit : Nat) (text : String) : Option Nat :=
  let digits :=
    match text.toList with
    | '+' :: cs => cs
    | cs => cs
  if digits ≠ [] ∧ digits.all Binary64.isDigit ∧ Binary64.natOfDigits digits < limit then
    some (Binary64.natOfDigits digits)
  else none

/-- The number behind the first occurrence of a flag. -/
def numberOf? (limit : Nat) (flag : String) : List String → Except Refusal (Option Nat)
  | [] => .ok none
  | argument :: arguments =>
    if argument = flag then
      match arguments.head?.bind (number? limit) with
      | some n => .ok (some n)
      | none => .error (.noNumber flag)
    else numberOf? limit flag arguments

def isFlag (argument : String) : Bool := ['-', '-'].isPrefixOf argument.toList

def options (arguments : List String) : Except Refusal Options :=
  match arguments with
  | [] => .error .noFile
  | path :: _ =>
    if isFlag path then .error .noFile
    else do
      let width ← numberOf? 0x100000000 "--indent" arguments
      let depth ← numberOf? 0x10000000000000000 "--max-depth" arguments
      let settings : Settings := {}
      pure
        { path
          listTokens := arguments.contains "--tokens"
          settings :=
            { settings with
              indentWidth := width.getD settings.indentWidth
              maxDepth := depth.getD settings.maxDepth } }

/-- The part of a path behind the last slash. -/
def fileName (path : String) : String :=
  String.ofList (path.toList.reverse.takeWhile (· ≠ '/')).reverse

/-- Every line with a line feed behind it. -/
def printed : List String → String
  | [] => ""
  | line :: lines => line ++ "\n" ++ printed lines

def refuse : Refusal → Transcript
  | .noFile => ⟨2, usage, ""⟩
  | .noNumber flag => ⟨2, usage, flag ++ " expects a number\n"⟩

def faultReport (source file : String) : Reading.Fault → String
  | .reported d => d.report source file
  | .misused m => m.message ++ "\n"

/-- What is printed for the text of a file. -/
def runOn (o : Options) (source : String) : Transcript :=
  let file := fileName o.path
  match Tokens.ofSource source with
  | .error d => ⟨1, "", d.report source file⟩
  | .ok tokens =>
    let listing := if o.listTokens then printed (tokens.map (·.describe source)) else ""
    match Program.parse source o.settings tokens with
    | .error fault => ⟨1, listing, faultReport source file fault⟩
    | .ok trees => ⟨0, listing ++ printed (trees.map (·.render)), ""⟩

/-- Runs with a way to read the text at a path. -/
def run (read : String → Except Unreadable String) (arguments : List String) : Transcript :=
  match options arguments with
  | .error refusal => refuse refusal
  | .ok o =>
    match read o.path with
    | .error reason => ⟨1, "", "Failed to read " ++ o.path ++ ": " ++ reason.message ++ "\n"⟩
    | .ok source => runOn o source

end Offside.CommandLine
