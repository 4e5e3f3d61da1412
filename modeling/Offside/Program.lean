import Offside.Rule
import Offside.Tokens

set_option autoImplicit false

/-!
# Programs

A program is the block of statements at column zero, read by the default grammar.
-/
namespace Offside

namespace Program

def prefixRule? : Kind → Option PrefixRule
  | .identifier => some .identifier
  | .number => some .number
  | .string => some .string
  | .trueWord => some .boolean
  | .falseWord => some .boolean
  | .openParen => some .parenthesis
  | .openBracket => some .list
  | .dash => some .unary
  | .not => some .unary
  | _ => none

def infixRule? : Kind → Option (Level × InfixRule)
  | .assignment => some (.assignment, .assignment)
  | .question => some (.conditional, .conditional)
  | .arrow => some (.function, .function)
  | .equals => some (.equality, .binary)
  | .notEquals => some (.equality, .binary)
  | .less => some (.relational, .binary)
  | .lessEquals => some (.relational, .binary)
  | .greater => some (.relational, .binary)
  | .greaterEquals => some (.relational, .binary)
  | .plus => some (.additive, .binary)
  | .dash => some (.additive, .binary)
  | .star => some (.multiplicative, .binary)
  | .slash => some (.multiplicative, .binary)
  | .percent => some (.multiplicative, .binary)
  | .openParen => some (.call, .call)
  | .openBracket => some (.call, .index)
  | _ => none

/-- Lays the rules of the language over a grammar. -/
def extend (g : Grammar PrefixRule InfixRule) : Grammar PrefixRule InfixRule :=
  g.extend prefixRule? fun k => (infixRule? k).map fun (level, rule) => (level.power, rule)

def grammar : Grammar PrefixRule InfixRule := extend .empty

def setup (source : String) (settings : Settings) : Setup PrefixRule InfixRule :=
  ⟨grammar, source, settings⟩

end Program

/-- The reader whose operands are whole expressions of the language. -/
def Setup.program (setup : Setup PrefixRule InfixRule) : Reader Tree :=
  setup.reader (Tree.language.expression setup)

namespace Program

open Reading in
/-- The statements of a program, from the tokens of its source. -/
def parse (source : String) (settings : Settings) (tokens : List Token) :
    Except Fault (List Tree) :=
  match (setup source settings).program.block 0 (.start settings.indentWidth tokens) with
  | .ok trees _ => .ok trees
  | .error fault _ => .error fault

/-- The statements of a source text. -/
def ofSource (source : String) (settings : Settings) : Except Reading.Fault (List Tree) :=
  match Tokens.ofSource source with
  | .ok tokens => parse source settings tokens
  | .error d => .error (.reported d)

end Program

end Offside
