import Offside.Climbing

set_option autoImplicit false

/-!
# Sessions

A session is a reading under way together with the grammar it reads by. Commands change the grammar, make
single steps of the reading, or read whole expressions; each gives a reply, and a command that reports a
fault leaves the session where the reading had come.
-/
namespace Offside

structure Session (P I : Type) where
  setup : Setup P I
  state : Reading.State

inductive Command (P I : Type)
  | setPower (kind : Kind) (power : Int)
  | setPrefix (kind : Kind) (rule : P)
  | setInfix (kind : Kind) (rule : I)
  | setOperator (kind : Kind) (power : Int) (rule : I)
  | openGroup
  | closeGroup
  | openBlock
  | closeBlock
  | current
  | consume
  | require (kind : Kind)
  | isNext (kind : Kind)
  | accept (kind : Kind)
  | hasIndentation (column : Nat)
  | powerOf (kind : Kind)
  | textOf (index : Nat)
  | settings
  | expression (least : Int)

inductive Reply (N : Type)
  | nothing
  | token (token : Token)
  | flag (flag : Bool)
  | number (number : Int)
  | text (text : String)
  | settings (settings : Settings)
  | value (value : N)
  | values (values : List N)

/-- What a command does: it replies, or stops with a fault, and leaves a session either way. -/
abbrev Play (P I N : Type) := EStateM Reading.Fault (Session P I) (Reply N)

namespace Session

variable {P I N : Type}

def start (setup : Setup P I) (tokens : List Token) : Session P I :=
  ⟨setup, .start setup.settings.indentWidth tokens⟩

/-- How tightly the next token binds to what was read. -/
def power (session : Session P I) : Int := session.setup.power session.state

/-- The token of the given number, counted from zero, passed or not. -/
def token? (session : Session P I) (index : Nat) : Option Token :=
  (session.state.passed.reverse ++ session.state.ahead)[index]?

end Session

namespace Play

variable {P I N α : Type}

/-- Changes the grammar. -/
def regrammar (change : Grammar P I → Grammar P I) : Play P I N := fun session =>
  .ok .nothing { session with setup := { session.setup with grammar := change session.setup.grammar } }

/-- Makes the reading that the session's setup asks for. -/
def read (reading : Setup P I → Reading α) (reply : α → Reply N) : Play P I N := fun session =>
  match reading session.setup session.state with
  | .ok a state => .ok (reply a) { session with state }
  | .error fault state => .error fault { session with state }

def ask (answer : Session P I → Reply N) : Play P I N := fun session => .ok (answer session) session

end Play

namespace Command

variable {P I N : Type}

def play (language : Language P I N) : Command P I → Play P I N
  | .setPower kind power => .regrammar fun g => g.setPower kind power
  | .setPrefix kind rule => .regrammar fun g => g.setPrefix kind rule
  | .setInfix kind rule => .regrammar fun g => g.setInfix kind rule
  | .setOperator kind power rule => .regrammar fun g => (g.setPower kind power).setInfix kind rule
  | .openGroup => .read (fun _ => Reading.openGroup) fun _ => .nothing
  | .closeGroup => .read (fun _ => Reading.closeGroup) fun _ => .nothing
  | .openBlock => .read (fun _ => Reading.openBlock) fun level => .number level
  | .closeBlock => .read (fun _ => Reading.closeBlock) fun level => .number level
  | .current => .read (fun _ => Reading.current) .token
  | .consume => .read (fun _ => Reading.consume) .token
  | .require kind => .read (fun setup => Reading.require setup.source kind) .token
  | .isNext kind => .ask fun session => .flag (session.state.isNext kind)
  | .accept kind => .read (fun _ => Reading.accept kind) .flag
  | .hasIndentation column => .ask fun session => .flag (session.state.hasIndentation column)
  | .powerOf kind => .ask fun session => .number (session.setup.grammar.power kind)
  | .textOf index => .ask fun session =>
    .text (((session.token? index).map (·.text session.setup.source)).getD "")
  | .settings => .ask fun session => .settings session.setup.settings
  | .expression least => .read (fun setup => language.expression setup least) .value

end Command

end Offside
