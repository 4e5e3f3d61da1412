import Offside.CommandLine
import Offside.Proofs.Reports

set_option autoImplicit false

/-!
# The command line agrees with the library

Options are found by searches over all arguments that know nothing of each other. With them settled, a run
lists tokens and trees on one line each, or reports what the library reports.
-/
namespace Offside

/-! ### Lines of a listing -/

namespace Program

variable {source : String} {settings : Settings} {tokens : List Token} {trees : List Tree}

theorem oneLine_render (htokens : Tokens.ofSource source = .ok tokens)
    (htrees : parse source settings tokens = .ok trees) : ∀ tree ∈ trees, Text.OneLine tree.render := by
  have hsource : ofSource source settings = .ok trees := by
    rw [ofSource, htokens]
    exact htrees
  exact fun tree htree => tree.oneLine_render (legible_of_ofSource hsource tree htree).2

end Program

namespace CommandLine

variable {limit n : Nat} {flag text path file source : String} {arguments rest : List String}
  {value : Option Nat}

/-! ### Numbers -/

/-- The text writes the number with decimal digits, perhaps behind a plus sign. -/
def Writes (text : String) (n : Nat) : Prop :=
  ∃ digits : List Char, digits ≠ [] ∧ (∀ c ∈ digits, '0' ≤ c ∧ c ≤ '9') ∧
    (text = String.ofList digits ∨ text = String.ofList ('+' :: digits)) ∧ Nat.ofDigitChars 10 digits 0 = n

/-- The number that the first occurrence of a flag gives, if the flag occurs. -/
inductive Given (limit : Nat) (flag : String) (arguments : List String) : Option Nat → Prop
  | absent (h : flag ∉ arguments) : Given limit flag arguments none
  | first {before behind : List String} {text : String} {n : Nat}
      (hsplit : arguments = before ++ flag :: text :: behind) (hfirst : flag ∉ before)
      (hwrites : Writes text n) (hlimit : n < limit) : Given limit flag arguments (some n)

/-- The text consists of the lines: none of them has a line break in it, and one stands behind each. -/
def Consists (text : String) (lines : List String) : Prop :=
  text = String.join (lines.map (· ++ "\n")) ∧ ∀ line ∈ lines, Text.OneLine line

/-- The lines that list the tokens, where that was asked for. -/
def listing (arguments : List String) (source : String) (tokens : List Token) : List String :=
  if "--tokens" ∈ arguments then tokens.map (·.describe source) else []

/-- A run says of a source what the library says: its trees, line by line, if it has any, and else what is
wrong with it; before that, where it was asked for, its tokens. -/
structure Agrees (arguments : List String) (source file : String) (settings : Settings) (t : Transcript) :
    Prop where
  exitCode_eq_zero_iff : t.exitCode = 0 ↔ ∃ tokens trees, Tokens.ofSource source = .ok tokens ∧
    Program.parse source settings tokens = .ok trees
  accepted (tokens : List Token) (trees : List Tree) (htokens : Tokens.ofSource source = .ok tokens)
    (htrees : Program.parse source settings tokens = .ok trees) : t.stderr = "" ∧
      Consists t.stdout (listing arguments source tokens ++ trees.map (·.render))
  rejected (h : t.exitCode ≠ 0) : t.exitCode = 1 ∧ ∃ d, t.stderr = d.report source file ∧
    (Tokens.ofSource source = .error d ∧ t.stdout = "" ∨ ∃ tokens, Tokens.ofSource source = .ok tokens ∧
      Program.parse source settings tokens = .error (.reported d) ∧
      Consists t.stdout (listing arguments source tokens))

/-- Each token comes with its line, column and kind in fields of a fixed width. -/
example : run (fun _ => .ok "a = 1\nb") ["in/a.tila", "--indent", "+04", "--tokens", "--indent", "none"] =
    ⟨0, "   1:0         Identifier a\n" ++ "   1:2         Assignment =\n" ++
      "   1:4             Number 1\n" ++ "   1:5            Newline \\n\n" ++
      "   2:0         Identifier b\n" ++ "(= a 1)\n" ++ "b\n", ""⟩ := by decide +kernel

end CommandLine

end Offside
