import Offside.Program
import Offside.Session

set_option autoImplicit false

/-!
# Sessions with the language

Beside the commands of every session, those that lay the default grammar over the session's own and that
read statements, bodies and blocks.
-/
namespace Offside.Program

inductive Command
  | engine (command : Offside.Command PrefixRule InfixRule)
  | useGrammar
  | statement
  | body
  | block (level : Nat)

namespace Command

def play : Command → Play PrefixRule InfixRule Tree
  | .engine command => command.play Tree.language
  | .useGrammar => .regrammar extend
  | .statement => .read (fun setup => setup.program.statement) .value
  | .body => .read (fun setup => setup.program.body) .values
  | .block level => .read (fun setup => setup.program.block level) .values

end Command

end Offside.Program
