import Mathlib.Data.List.TakeWhile
import Offside.Text.Escape
import Offside.Text.Quoted

set_option autoImplicit false

/-!
# Where a quoted text ends

A quoted character can be read back, whatever stands behind it. So a quoted text determines its characters
and ends at a quote of its own.
-/
namespace Offside.Text

variable {c d : Char} {cs ds x y : List Char}

/-! ### Code points -/

def natOfHexDigits (cs : List Char) : Nat :=
  cs.foldl (fun n c => 16 * n + (hexValue? c).getD 0) 0

theorem hexValue?_digitChar {n : Nat} (h : n < 16) : hexValue? n.digitChar = some n := by
  have hall : ∀ n : Fin 16, hexValue? (Nat.digitChar n) = some n.val := by decide
  exact hall ⟨n, h⟩

theorem natOfHexDigits_hexDigits (n : Nat) : natOfHexDigits (hexDigits n) = n := by
  induction n using Nat.strongRecOn with
  | ind n ih =>
    rw [hexDigits, Nat.toDigits_eq_if (by decide)]
    split
    next hlt => simp [natOfHexDigits, hexValue?_digitChar hlt]
    next hge =>
      have hhigh := ih (n / 16) (Nat.div_lt_self (by omega) (by decide))
      have hlow := hexValue?_digitChar (Nat.mod_lt n (by decide : 0 < 16))
      rw [natOfHexDigits, List.foldl_append, ← natOfHexDigits, ← hexDigits, hhigh, List.foldl_cons, hlow]
      exact Nat.div_add_mod n 16

theorem isSome_hexValue?_of_mem {n : Nat} (h : c ∈ hexDigits n) : (hexValue? c).isSome := by
  induction n using Nat.strongRecOn with
  | ind n ih =>
    rw [hexDigits, Nat.toDigits_eq_if (by decide)] at h
    split at h
    next hlt =>
      rw [List.mem_singleton.1 h, hexValue?_digitChar hlt]
      rfl
    next hge =>
      rcases List.mem_append.1 h with h | h
      · exact ih (n / 16) (Nat.div_lt_self (by omega) (by decide)) h
      · rw [List.mem_singleton.1 h, hexValue?_digitChar (Nat.mod_lt n (by decide))]
        rfl

/-! ### Characters -/

/-- The character that is quoted at a place, and what stands behind it. -/
def unquoteChar? : List Char → Option (Char × List Char)
  | '\\' :: 'u' :: '\x7b' :: cs =>
    some (Char.ofNat (natOfHexDigits (cs.takeWhile fun c => (hexValue? c).isSome)),
      (cs.dropWhile fun c => (hexValue? c).isSome).tail)
  | '\\' :: sign :: cs => (shortEscape? sign).map fun c => (c, cs)
  | c :: cs => some (c, cs)
  | [] => none

theorem unquoteChar?_quoteChar (c : Char) (x : List Char) : unquoteChar? (quoteChar c ++ x) = some (c, x) := by
  unfold quoteChar
  split
  next h => rw [h]; rfl
  split
  next h => rw [h]; rfl
  split
  next h => rw [h]; rfl
  split
  next h => rw [h]; rfl
  split
  next h => rw [h]; rfl
  split
  next h => rw [h]; rfl
  next hslash =>
    split
    next =>
      -- the closing brace is no digit, so it ends the code point
      have hdigits : ∀ d ∈ hexDigits c.toNat, (hexValue? d).isSome := fun d => isSome_hexValue?_of_mem
      have hbrace : (hexValue? '\x7d').isSome = false := by decide
      simp only [List.append_assoc, List.cons_append, List.nil_append, unquoteChar?,
        List.takeWhile_append_of_pos hdigits, List.dropWhile_append_of_pos hdigits,
        List.takeWhile_cons, List.dropWhile_cons, hbrace, Bool.false_eq_true, if_false, List.append_nil,
        natOfHexDigits_hexDigits, Char.ofNat_toNat, List.tail_cons]
    next => simp [unquoteChar?, hslash]

/-- A quoted character determines the character and where it ends. -/
theorem quoteChar_append_inj (h : quoteChar c ++ x = quoteChar d ++ y) : c = d ∧ x = y := by
  have hread := congrArg unquoteChar? h
  rw [unquoteChar?_quoteChar, unquoteChar?_quoteChar] at hread
  exact Prod.mk.inj (Option.some.inj hread)

/-- No quoted character begins with the quote that ends a text. -/
theorem quoteChar_append_ne (c : Char) (x y : List Char) : quoteChar c ++ x ≠ '"' :: y := by
  intro h
  have hread := congrArg unquoteChar? h
  rw [unquoteChar?_quoteChar] at hread
  obtain ⟨rfl, -⟩ := Prod.mk.inj (Option.some.inj (hread : some (c, x) = some ('"', y)))
  cases h

/-! ### Texts -/

theorem flatMap_quoteChar_inj
    (h : cs.flatMap quoteChar ++ '"' :: x = ds.flatMap quoteChar ++ '"' :: y) : cs = ds ∧ x = y := by
  induction cs generalizing ds with
  | nil =>
    cases ds with
    | nil => exact ⟨rfl, (List.cons.inj h).2⟩
    | cons d ds =>
      rw [List.flatMap_cons, List.append_assoc] at h
      exact absurd h.symm (quoteChar_append_ne d _ _)
  | cons c cs ih =>
    rw [List.flatMap_cons, List.append_assoc] at h
    cases ds with
    | nil => exact absurd h (quoteChar_append_ne c _ _)
    | cons d ds =>
      rw [List.flatMap_cons, List.append_assoc] at h
      obtain ⟨rfl, hrest⟩ := quoteChar_append_inj h
      obtain ⟨rfl, hbehind⟩ := ih hrest
      exact ⟨rfl, hbehind⟩

/-- A quoted text determines the text and where it ends. -/
theorem quote_append_inj {text text' : String}
    (h : (quote text).toList ++ x = (quote text').toList ++ y) : text = text' ∧ x = y := by
  simp only [quote, String.toList_ofList, List.cons_append, List.append_assoc, List.nil_append,
    List.cons.injEq, true_and] at h
  exact (flatMap_quoteChar_inj h).imp String.toList_inj.1 id

end Offside.Text
