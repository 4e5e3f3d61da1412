import Offside.Token

set_option autoImplicit false

/-!
# Grammars

A grammar says, for each kind of token, how tightly it binds to what stands before it, and by which rules
it starts or continues an expression. It is generic in the rules, which it only keeps.
-/
namespace Offside

structure Grammar (P I : Type) where
  /-- The binding power of each kind; a kind that binds at zero or less continues nothing by itself. -/
  power : Kind → Int
  prefixRule? : Kind → Option P
  infixRule? : Kind → Option I

namespace Grammar

variable {P I : Type}

def empty : Grammar P I := ⟨fun _ => 0, fun _ => none, fun _ => none⟩

def setPower (g : Grammar P I) (kind : Kind) (power : Int) : Grammar P I :=
  { g with power := fun k => if k = kind then power else g.power k }

def setPrefix (g : Grammar P I) (kind : Kind) (rule : P) : Grammar P I :=
  { g with prefixRule? := fun k => if k = kind then some rule else g.prefixRule? k }

def setInfix (g : Grammar P I) (kind : Kind) (rule : I) : Grammar P I :=
  { g with infixRule? := fun k => if k = kind then some rule else g.infixRule? k }

/-- Lays entries over a grammar; kinds without an entry keep what they had. -/
def extend (g : Grammar P I) (prefixes : Kind → Option P) (infixes : Kind → Option (Int × I)) :
    Grammar P I where
  power k := ((infixes k).map Prod.fst).getD (g.power k)
  prefixRule? k := (prefixes k).or (g.prefixRule? k)
  infixRule? k := ((infixes k).map Prod.snd).or (g.infixRule? k)

end Grammar

end Offside
