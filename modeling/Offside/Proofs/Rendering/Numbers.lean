import Mathlib.Order.Monotone.Basic
import Mathlib.Tactic.Linarith
import Mathlib.Tactic.Ring
import Offside.Binary64.Shortest
import Offside.Proofs.Scanning

set_option autoImplicit false

/-!
# The texts of numbers

The shortest decimal of a number lies in the interval of decimals that read back as it, and these intervals do
not overlap. So the text of a number, which spells its decimal digit by digit, belongs to no other number.
-/
namespace Offside.Binary64

/-! ### Magnitudes and their neighbours -/

theorem units_of_lt {rank : Nat} (h : rank < fractionCount) : units rank = rank := if_pos h

theorem div_of_exponent (exponent : Nat) {fraction : Nat} (h : fraction < fractionCount) :
    (fractionCount * (exponent + 1) + fraction) / fractionCount = exponent + 1 := by
  rw [Nat.mul_add_div (by decide), Nat.div_eq_of_lt h, Nat.add_zero]

theorem units_of_exponent (exponent : Nat) {fraction : Nat} (h : fraction < fractionCount) :
    units (fractionCount * (exponent + 1) + fraction) =
      (fractionCount + fraction) * Nat.pow 2 exponent := by
  have hlarge : ¬fractionCount * (exponent + 1) + fraction < fractionCount := by
    rw [Nat.mul_succ]
    omega
  rw [units, if_neg hlarge, div_of_exponent exponent h, Nat.mul_add_mod, Nat.mod_eq_of_lt h,
    Nat.add_sub_cancel]

/-- A rank is a fraction, or an exponent with a fraction. -/
theorem exists_exponent {rank : Nat} (h : fractionCount ≤ rank) : ∃ exponent fraction,
    fraction < fractionCount ∧ rank = fractionCount * (exponent + 1) + fraction := by
  refine ⟨rank / fractionCount - 1, rank % fractionCount, Nat.mod_lt _ (by decide), ?_⟩
  rw [Nat.sub_add_cancel (Nat.div_pos h (by decide)), Nat.div_add_mod]

/-- How far the next magnitude is away. -/
def gap (rank : Nat) : Nat := Nat.pow 2 (rank / fractionCount - 1)

theorem gap_of_lt {rank : Nat} (h : rank < fractionCount) : gap rank = 1 := by
  rw [gap, Nat.div_eq_of_lt h, Nat.zero_sub]

theorem gap_of_exponent (exponent : Nat) {fraction : Nat} (h : fraction < fractionCount) :
    gap (fractionCount * (exponent + 1) + fraction) = Nat.pow 2 exponent := by
  rw [gap, div_of_exponent exponent h, Nat.add_sub_cancel]

theorem units_succ (rank : Nat) : units (rank + 1) = units rank + gap rank := by
  rcases Nat.lt_or_ge rank fractionCount with hrank | hrank
  · rw [units_of_lt hrank, gap_of_lt hrank]
    rcases Nat.lt_or_ge (rank + 1) fractionCount with hlast | hlast
    · exact units_of_lt hlast
    · have hcount : rank + 1 = fractionCount := Nat.le_antisymm hrank hlast
      rw [hcount]
      exact units_of_exponent 0 (by decide : 0 < fractionCount)
  · obtain ⟨exponent, fraction, hfraction, rfl⟩ := exists_exponent hrank
    rw [gap_of_exponent exponent hfraction, units_of_exponent exponent hfraction, Nat.add_assoc]
    rcases Nat.lt_or_ge (fraction + 1) fractionCount with hlast | hlast
    · rw [units_of_exponent exponent hlast]
      ring
    · have hcount : fraction + 1 = fractionCount := Nat.le_antisymm hfraction hlast
      have hnext := units_of_exponent (exponent + 1) (by decide : 0 < fractionCount)
      have hpow : Nat.pow 2 (exponent + 1) = Nat.pow 2 exponent * 2 := rfl
      rw [hcount, ← Nat.mul_succ, ← Nat.add_zero (_ * _), hnext, hpow, ← Nat.succ_mul,
        Nat.succ_eq_add_one, Nat.add_assoc, hcount]
      ring

theorem units_strictMono : StrictMono units :=
  strictMono_nat_of_lt_succ fun rank => by
    rw [units_succ]
    exact Nat.lt_add_of_pos_right (Nat.pow_pos (by decide))

theorem log2_units_of_lt {rank : Nat} (h : rank < fractionCount) : Nat.log2 (units rank) < 52 := by
  rw [units_of_lt h]
  rcases Nat.eq_zero_or_pos rank with rfl | hpos
  · decide
  · exact (Nat.log2_lt (Nat.ne_of_gt hpos)).2 h

theorem log2_units_of_exponent (exponent : Nat) {fraction : Nat} (h : fraction < fractionCount) :
    Nat.log2 (units (fractionCount * (exponent + 1) + fraction)) = 52 + exponent := by
  rw [units_of_exponent exponent h]
  have hpos : 0 < Nat.pow 2 exponent := Nat.pow_pos (by decide)
  have hne : (fractionCount + fraction) * Nat.pow 2 exponent ≠ 0 :=
    Nat.ne_of_gt (Nat.mul_pos (Nat.add_pos_left (by decide) _) hpos)
  refine (Nat.log2_eq_iff hne).2 ⟨?_, ?_⟩
  · rw [Nat.pow_add]
    exact Nat.mul_le_mul_right _ (Nat.le_add_right _ _)
  · rw [Nat.add_right_comm, Nat.pow_add]
    exact Nat.mul_lt_mul_of_pos_right (Nat.add_lt_add_left h _) hpos

/-- The gap is told by the length of the magnitude. -/
theorem gap_eq (rank : Nat) : gap rank = Nat.pow 2 (Nat.log2 (units rank) - 52) := by
  rcases Nat.lt_or_ge rank fractionCount with hrank | hrank
  · rw [gap_of_lt hrank, Nat.sub_eq_zero_of_le (Nat.le_of_lt (log2_units_of_lt hrank))]
  · obtain ⟨exponent, fraction, hfraction, rfl⟩ := exists_exponent hrank
    rw [gap_of_exponent exponent hfraction, log2_units_of_exponent exponent hfraction,
      Nat.add_sub_cancel_left]

theorem log2_units_lt {rank : Nat} (h : rank < finiteCount) : Nat.log2 (units rank) < 2098 := by
  rcases Nat.lt_or_ge rank fractionCount with hrank | hrank
  · exact Nat.lt_trans (log2_units_of_lt hrank) (by decide)
  · obtain ⟨exponent, fraction, hfraction, rfl⟩ := exists_exponent hrank
    rw [log2_units_of_exponent exponent hfraction]
    simp only [fractionCount, finiteCount] at h
    omega

/-! ### Decimals that read back -/

namespace Decimal

variable {rank rank' : Nat} {d d' : Decimal} {k : Int}

def numerator (d : Decimal) : Nat := d.digits * Nat.pow 10 d.exponent.toNat

def denominator (d : Decimal) : Nat := Nat.pow 10 (-d.exponent).toNat

theorem denominator_pos (d : Decimal) : 0 < d.denominator := Nat.pow_pos (by decide)

theorem readsBack_iff : readsBack rank d ↔
    (units (rank - 1) + units rank) * d.denominator + rank % 2 ≤ d.numerator * Nat.pow 2 1075 ∧
      d.numerator * Nat.pow 2 1075 + rank % 2 ≤ (units rank + units (rank + 1)) * d.denominator := by
  have hmod := Nat.mod_two_eq_zero_or_one rank
  unfold readsBack powerOfTen numerator denominator
  generalize Nat.pow 2 1075 = weight
  dsimp only
  split <;> simp only [Bool.and_eq_true, decide_eq_true_eq] <;> omega

/-- Of two ranks whose decimals have one value, neither is the lower one. -/
theorem rank_le_of_readsBack (h : readsBack rank d) (h' : readsBack rank' d')
    (hvalue : d.numerator * d'.denominator = d'.numerator * d.denominator) : rank' ≤ rank := by
  by_contra hlt
  rw [Nat.not_le] at hlt
  have hhigh := Nat.mul_le_mul_right d'.denominator (readsBack_iff.1 h).2
  have hlow := Nat.mul_le_mul_right d.denominator (readsBack_iff.1 h').1
  have hweighted : d.numerator * Nat.pow 2 1075 * d'.denominator =
      d'.numerator * Nat.pow 2 1075 * d.denominator := by
    rw [Nat.mul_right_comm, hvalue, Nat.mul_right_comm]
  have hlower : units rank ≤ units (rank' - 1) := units_strictMono.monotone (Nat.le_pred_of_lt hlt)
  have hupper : units (rank + 1) ≤ units rank' := units_strictMono.monotone hlt
  -- both decimals lie on the one midpoint between the ranks, which belongs to only one of these
  have hboth : (units (rank' - 1) + units rank') * (d.denominator * d'.denominator) +
      (rank' % 2 * d.denominator + rank % 2 * d'.denominator) ≤
      (units rank + units (rank + 1)) * (d.denominator * d'.denominator) := by
    rw [Nat.add_mul] at hhigh hlow
    rw [hweighted] at hhigh
    generalize d'.numerator * Nat.pow 2 1075 * d.denominator = value at hhigh hlow
    linarith
  have hpos := Nat.mul_pos d.denominator_pos d'.denominator_pos
  have hle := Nat.le_of_mul_le_mul_right (Nat.le_trans (Nat.le_add_right _ _) hboth) hpos
  have heven : rank' % 2 * d.denominator + rank % 2 * d'.denominator = 0 := by
    have hscaled := Nat.mul_le_mul_right (d.denominator * d'.denominator) (Nat.add_le_add hlower hupper)
    omega
  have hnext : rank' = rank + 1 := units_strictMono.injective (by omega)
  obtain ⟨h₁, h₂⟩ := Nat.add_eq_zero_iff.1 heven
  have := (Nat.mul_eq_zero.1 h₁).resolve_right (Nat.ne_of_gt d.denominator_pos)
  have := (Nat.mul_eq_zero.1 h₂).resolve_right (Nat.ne_of_gt d'.denominator_pos)
  omega

theorem rank_eq_of_readsBack (h : readsBack rank d) (h' : readsBack rank' d')
    (hvalue : d.numerator * d'.denominator = d'.numerator * d.denominator) : rank = rank' :=
  Nat.le_antisymm (rank_le_of_readsBack h' h hvalue.symm) (rank_le_of_readsBack h h' hvalue)

/-! ### The shortest decimal -/

theorem readsBack_of_onGrid? (h : onGrid? rank k = some d) : readsBack rank d := by
  unfold onGrid? at h
  generalize neighbours rank k = both at h
  obtain ⟨lower, upper, nearer⟩ := both
  dsimp only at h
  split at h
  next hlower hupper =>
    obtain rfl := Option.some.inj h
    cases nearer
    · exact hlower
    · exact hupper
  next hlower _ =>
    obtain rfl := Option.some.inj h
    exact hlower
  next _ hupper =>
    obtain rfl := Option.some.inj h
    exact hupper
  next => cases h

/-- The upper neighbour on a grid that is finer than half the gap above a magnitude reads back. -/
theorem readsBack_neighbour (hrank : 0 < rank)
    (hfine : 2 * (Nat.pow 10 k.toNat * Nat.pow 2 1074) < gap rank * Nat.pow 10 (-k).toNat) :
    readsBack rank (neighbours rank k).2.1 := by
  have hweight : Nat.pow 2 1075 = 2 * Nat.pow 2 1074 := by decide +kernel
  rw [readsBack_iff, units_succ, hweight]
  unfold numerator denominator neighbours powerOfTen
  have hstep : 0 < Nat.pow 10 k.toNat * Nat.pow 2 1074 :=
    Nat.mul_pos (Nat.pow_pos (by decide)) (by decide +kernel)
  have hq : 0 < Nat.pow 10 (-k).toNat := Nat.pow_pos (by decide)
  have hbelow : units (rank - 1) < units rank := units_strictMono (Nat.sub_lt hrank Nat.one_pos)
  generalize Nat.pow 2 1074 = weight at hfine hstep ⊢
  dsimp only
  generalize Nat.pow 10 k.toNat = p at hfine hstep ⊢
  generalize Nat.pow 10 (-k).toNat = q at hfine hq ⊢
  have hmod := Nat.mod_lt (units rank * q) hstep
  have hdivmod := Nat.div_add_mod (units rank * q) (p * weight)
  generalize units rank * q / (p * weight) = digits at hdivmod ⊢
  -- the neighbour is at most one step above the magnitude, which is less than half the gap
  have hvalue : (digits + 1) * p * (2 * weight) = 2 * (p * weight * digits) + 2 * (p * weight) := by ring
  have hscaled : units (rank - 1) * q + q ≤ units rank * q := by
    rw [← Nat.succ_mul]
    exact Nat.mul_le_mul_right q hbelow
  have hlow : (units (rank - 1) + units rank) * q = units (rank - 1) * q + units rank * q := Nat.add_mul _ _ _
  have hhigh : (units rank + (units rank + gap rank)) * q = 2 * (units rank * q) + gap rank * q := by ring
  rw [hvalue, hlow, hhigh]
  omega

theorem isSome_onGrid? (h : readsBack rank (neighbours rank k).2.1) : (onGrid? rank k).isSome := by
  unfold onGrid?
  generalize neighbours rank k = both at h
  obtain ⟨lower, upper, nearer⟩ := both
  dsimp only at h ⊢
  split
  next => rfl
  next _ hupper => rw [h] at hupper; cases hupper
  next => rfl
  next _ hupper => rw [h] at hupper; cases hupper

/-- A reading back is found if one of the grids that are tried has one. -/
theorem readsBack_firstOnGrid {tries i : Nat} (hi : i < tries) (h : (onGrid? rank (k - i)).isSome) :
    readsBack rank (firstOnGrid rank tries k) := by
  induction tries generalizing k i with
  | zero => exact absurd hi (Nat.not_lt_zero i)
  | succ tries ih =>
    rw [firstOnGrid]
    split
    next d hd => exact readsBack_of_onGrid? hd
    next hnone =>
      cases i with
      | zero => simp [hnone] at h
      | succ i =>
        refine ih (Nat.lt_of_succ_lt_succ hi) ?_
        rwa [Int.sub_sub, Int.add_comm 1, ← Int.natCast_succ]

/-- The twentieth grid is fine enough for every length of a magnitude. -/
theorem last_grid_fine : ∀ length : Nat, length < 2098 →
    2 * (Nat.pow 10 (((length : Int) - 1073) * 30103 / 100000 + 1 - 19).toNat * Nat.pow 2 1074) <
      Nat.pow 2 (length - 52) * Nat.pow 10 (-(((length : Int) - 1073) * 30103 / 100000 + 1 - 19)).toNat := by
  decide +kernel

/-- The shortest decimal of a number reads back as it. -/
theorem readsBack_shortest (hrank : 0 < rank) (hfinite : rank < finiteCount) :
    readsBack rank (shortest rank) := by
  have hfine := last_grid_fine _ (log2_units_lt hfinite)
  rw [← gap_eq] at hfine
  exact readsBack_firstOnGrid (by decide : 19 < 20) (isSome_onGrid? (readsBack_neighbour hrank hfine))

end Decimal

/-! ### Texts -/

theorem natOfDigits_eq (cs : List Char) : natOfDigits cs = Nat.ofDigitChars 10 cs 0 := by
  rw [Nat.ofDigitChars_eq_foldl]
  rfl

theorem natOfDigits_toDigits (n : Nat) : natOfDigits (Nat.toDigits 10 n) = n := by
  rw [natOfDigits_eq, Nat.ofDigitChars_ten_toDigits]

theorem natOfDigits_append_zeros (cs : List Char) (n : Nat) :
    natOfDigits (cs ++ List.replicate n '0') = natOfDigits cs * Nat.pow 10 n := by
  rw [natOfDigits_eq, natOfDigits_eq, Nat.ofDigitChars_append, Nat.ofDigitChars_replicate_zero, Nat.mul_comm]
  rfl

theorem natOfDigits_zeros_append (n : Nat) (cs : List Char) :
    natOfDigits (List.replicate n '0' ++ cs) = natOfDigits cs := by
  rw [natOfDigits_eq, natOfDigits_eq, Nat.ofDigitChars_append, Nat.ofDigitChars_replicate_zero, Nat.mul_zero]

theorem isDigit_of_mem_toDigits {n : Nat} {c : Char} (h : c ∈ Nat.toDigits 10 n) : isDigit c := by
  have hdigit := Nat.isDigit_of_mem_toDigits (by decide) (by decide) h
  simpa [isDigit, Char.isDigit, Char.le_def] using hdigit

/-- The text of a decimal spells its value. -/
theorem Decimal.positional_toText (d : Decimal) : ∃ whole fraction,
    Positional d.toText.toList whole fraction ∧
    natOfDigits (whole ++ fraction) = d.numerator ∧ Nat.pow 10 fraction.length = d.denominator := by
  obtain ⟨digits, exponent⟩ := d
  unfold toText numerator denominator
  split
  next hexponent =>
    refine ⟨Nat.toDigits 10 digits ++ List.replicate exponent.toNat '0', [], ⟨?_, ?_, ?_⟩, ?_, ?_⟩
    · simp [Text.fill]
    · simp
    · intro c hc
      rw [List.append_nil] at hc
      rcases List.mem_append.1 hc with hc | hc
      · exact isDigit_of_mem_toDigits hc
      · rw [List.eq_of_mem_replicate hc]
        decide
    · rw [List.append_nil, natOfDigits_append_zeros, natOfDigits_toDigits]
    · rw [Int.toNat_eq_zero.2 (by omega)]
      rfl
  next hexponent =>
    dsimp only at hexponent ⊢
    generalize hplaces : (-exponent).toNat = places
    have hzero : exponent.toNat = 0 := Int.toNat_eq_zero.2 (by omega)
    have hpos : 0 < places := by omega
    have hpadded : (Text.alignRight '0' (places + 1) (toString digits)).toList =
        List.replicate (places + 1 - (Nat.toDigits 10 digits).length) '0' ++ Nat.toDigits 10 digits := by
      simp [Text.alignRight, Text.fill, String.length]
    have hlength : places < (Text.alignRight '0' (places + 1) (toString digits)).toList.length := by
      rw [hpadded, List.length_append, List.length_replicate]
      omega
    have hvalue : natOfDigits (Text.alignRight '0' (places + 1) (toString digits)).toList = digits := by
      rw [hpadded, natOfDigits_zeros_append, natOfDigits_toDigits]
    have hdigits : ∀ c ∈ (Text.alignRight '0' (places + 1) (toString digits)).toList, isDigit c := by
      rw [hpadded]
      intro c hc
      rcases List.mem_append.1 hc with hc | hc
      · rw [List.eq_of_mem_replicate hc]
        decide
      · exact isDigit_of_mem_toDigits hc
    generalize (Text.alignRight '0' (places + 1) (toString digits)).toList = padded at hlength hvalue hdigits
    have hfraction : (padded.drop (padded.length - places)).length = places := by
      rw [List.length_drop]
      omega
    have hne : padded.drop (padded.length - places) ≠ [] := by
      rw [← List.length_pos_iff, hfraction]
      exact hpos
    refine ⟨padded.take (padded.length - places), padded.drop (padded.length - places), ⟨?_, ?_, ?_⟩, ?_, ?_⟩
    · simp [hne]
    · rw [← List.length_pos_iff, List.length_take]
      omega
    · rwa [List.take_append_drop]
    · rw [List.take_append_drop, hvalue, hzero]
      exact (Nat.mul_one digits).symm
    · rw [hfraction]

/-- The text of a finite number that is not negative is that of a decimal that reads back as it. -/
theorem exists_decimal (rank : Fin finiteCount) :
    ∃ d : Decimal, d.readsBack rank ∧ toText (.finite false rank) = d.toText := by
  rcases Nat.eq_zero_or_pos rank.val with hzero | hpos
  · refine ⟨⟨0, 0⟩, ?_, ?_⟩
    · rw [hzero]
      decide +kernel
    · simp only [toText, hzero]
      decide
  · refine ⟨_, Decimal.readsBack_shortest hpos rank.isLt, ?_⟩
    simp [toText, sign, Nat.ne_of_gt hpos]

theorem isNumber_toText (rank : Fin finiteCount) :
    Lexeme.IsNumber (toText (.finite false rank)).toList := by
  obtain ⟨d, _, htext⟩ := exists_decimal rank
  obtain ⟨whole, fraction, hpositional, _⟩ := d.positional_toText
  rw [htext]
  exact hpositional.isNumber

/-- Finite numbers that are not negative have texts of their own. -/
theorem rank_eq_of_toText {rank rank' : Fin finiteCount}
    (h : toText (.finite false rank) = toText (.finite false rank')) : rank = rank' := by
  obtain ⟨d, hd, htext⟩ := exists_decimal rank
  obtain ⟨d', hd', htext'⟩ := exists_decimal rank'
  obtain ⟨whole, fraction, hpositional, hnumerator, hdenominator⟩ := d.positional_toText
  obtain ⟨whole', fraction', hpositional', hnumerator', hdenominator'⟩ := d'.positional_toText
  rw [← htext, h, htext'] at hpositional
  have hsplit := hpositional.splitPoint_eq.symm.trans hpositional'.splitPoint_eq
  simp only [Prod.mk.injEq, and_true] at hsplit
  obtain ⟨rfl, rfl⟩ := hsplit
  refine Fin.ext (Decimal.rank_eq_of_readsBack hd hd' ?_)
  rw [← hnumerator, ← hnumerator', ← hdenominator, ← hdenominator']

theorem cases_ofRank (rank : Nat) :
    ofRank false rank = .infinite false ∨ ∃ r, ofRank false rank = .finite false r := by
  unfold ofRank
  split
  · exact .inr ⟨_, rfl⟩
  · exact .inl rfl

/-- A written number is no less than zero, and it may be too large to be finite. -/
theorem cases_of_isNumber {text : List Char} {value : Binary64} (h : Lexeme.IsNumber text)
    (hvalue : ofText? (String.ofList text) = some value) :
    value = .infinite false ∨ ∃ rank, value = .finite false rank := by
  obtain ⟨whole, fraction, htext⟩ := exists_positional h
  obtain rfl := Option.some.inj (htext.ofText?_eq.symm.trans hvalue)
  unfold ofDecimal
  split
  · exact cases_ofRank 0
  · split
    · exact .inl rfl
    · split
      · exact cases_ofRank 0
      · split <;> exact cases_ofRank _

end Offside.Binary64
