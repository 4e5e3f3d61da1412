import Offside.Token

set_option autoImplicit false

/-!
# Operators

The operators of binary and unary expressions. Subtraction and negation share a symbol.
-/
namespace Offside

inductive Operator
  | add
  | subtract
  | multiply
  | divide
  | modulo
  | equal
  | notEqual
  | less
  | lessEqual
  | greater
  | greaterEqual
  | negate
  | not
  deriving DecidableEq, Repr

namespace Operator

def binary? : Kind → Option Operator
  | .plus => some .add
  | .dash => some .subtract
  | .star => some .multiply
  | .slash => some .divide
  | .percent => some .modulo
  | .equals => some .equal
  | .notEquals => some .notEqual
  | .less => some .less
  | .lessEquals => some .lessEqual
  | .greater => some .greater
  | .greaterEquals => some .greaterEqual
  | _ => none

def unary? : Kind → Option Operator
  | .dash => some .negate
  | .not => some .not
  | _ => none

def symbol : Operator → String
  | .add => "+"
  | .subtract => "-"
  | .multiply => "*"
  | .divide => "/"
  | .modulo => "%"
  | .equal => "=="
  | .notEqual => "!="
  | .less => "<"
  | .lessEqual => "<="
  | .greater => ">"
  | .greaterEqual => ">="
  | .negate => "-"
  | .not => "!"

end Operator

end Offside
