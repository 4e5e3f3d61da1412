set_option autoImplicit false

/-!
# Binary64 numbers

The finite magnitudes of the format, in increasing order, are numbered from zero: the number of a
magnitude is its rank. A rank is also the bit pattern of the magnitude, fifty-two fraction bits below
eleven exponent bits.
-/
namespace Offside

/-- How many finite magnitudes there are; as a bit pattern, infinity. -/
abbrev Binary64.finiteCount : Nat := 0x7ff0000000000000

/-- The weight of the sign above the bits of a magnitude. -/
abbrev Binary64.signWeight : Nat := 0x8000000000000000

/-- How many fractions an exponent has. -/
abbrev Binary64.fractionCount : Nat := 0x10000000000000

inductive Binary64
  | finite (negative : Bool) (rank : Fin Binary64.finiteCount)
  | infinite (negative : Bool)
  | nan
  deriving DecidableEq

namespace Binary64

instance : Inhabited Binary64 := ⟨.finite false ⟨0, by decide⟩⟩

/-- The magnitude of a rank, counted in the least magnitude above zero, `2 ^ (-1074)`. -/
def units (rank : Nat) : Nat :=
  if rank < fractionCount then rank
  else (fractionCount + rank % fractionCount) * Nat.pow 2 (rank / fractionCount - 1)

/-- The number whose magnitude has the given rank; ranks past the last finite one are infinite. -/
def ofRank (negative : Bool) (rank : Nat) : Binary64 :=
  if h : rank < finiteCount then .finite negative ⟨rank, h⟩ else .infinite negative

def signBit (negative : Bool) : Nat := if negative then signWeight else 0

/-- The bit pattern; the patterns of the quantities that are no number are not told apart. -/
def toBits : Binary64 → Nat
  | .finite negative rank => signBit negative + rank.val
  | .infinite negative => signBit negative + finiteCount
  | .nan => 0x7ff8000000000000

def ofBits (bits : Nat) : Binary64 :=
  let magnitude := bits % signWeight
  if magnitude ≤ finiteCount then ofRank (bits / signWeight % 2 = 1) magnitude else .nan

theorem ofBits_signBit_add (negative : Bool) (magnitude : Nat) (h : magnitude ≤ finiteCount) :
    ofBits (signBit negative + magnitude) = ofRank negative magnitude := by
  have hb : magnitude ≤ 0x7ff0000000000000 := h
  cases negative with
  | false =>
    have hm : (signBit false + magnitude) % signWeight = magnitude := by
      simp only [signBit, signWeight, Bool.false_eq_true, if_false]; omega
    have hd : (signBit false + magnitude) / signWeight % 2 = 0 := by
      simp only [signBit, signWeight, Bool.false_eq_true, if_false]; omega
    simp only [ofBits, hm, hd, h, if_true]
    rfl
  | true =>
    have hm : (signBit true + magnitude) % signWeight = magnitude := by
      simp only [signBit, signWeight, if_true]; omega
    have hd : (signBit true + magnitude) / signWeight % 2 = 1 := by
      simp only [signBit, signWeight, if_true]; omega
    simp only [ofBits, hm, hd, h, if_true]
    rfl

theorem ofBits_toBits (x : Binary64) : ofBits x.toBits = x := by
  cases x with
  | finite negative rank =>
    change ofBits (signBit negative + rank.val) = _
    rw [ofBits_signBit_add negative rank.val (Nat.le_of_lt rank.isLt), ofRank, dif_pos rank.isLt]
  | infinite negative =>
    change ofBits (signBit negative + finiteCount) = _
    rw [ofBits_signBit_add negative finiteCount (Nat.le_refl _), ofRank,
      dif_neg (Nat.lt_irrefl _)]
  | nan => decide

end Binary64

end Offside
