set_option autoImplicit false

/-!
# Byte offsets into a text

A text is a list of characters; offsets count the bytes of its UTF-8 form. An offset that falls
inside a character, or beyond the end, names no place in the text.
-/
namespace Offside.Text

def byteLength : List Char → Nat
  | [] => 0
  | c :: cs => c.utf8Size + byteLength cs

/-- What is left after the first `n` bytes. -/
def dropBytes? : Nat → List Char → Option (List Char)
  | 0, cs => some cs
  | _ + 1, [] => none
  | n + 1, c :: cs => if c.utf8Size ≤ n + 1 then dropBytes? (n + 1 - c.utf8Size) cs else none

/-- The characters that make up the first `n` bytes. -/
def takeBytes? : Nat → List Char → Option (List Char)
  | 0, _ => some []
  | _ + 1, [] => none
  | n + 1, c :: cs =>
    if c.utf8Size ≤ n + 1 then (takeBytes? (n + 1 - c.utf8Size) cs).map (c :: ·) else none

/-- The characters from byte `start` up to byte `stop`. -/
def between? (start stop : Nat) (cs : List Char) : Option (List Char) :=
  if start ≤ stop then (dropBytes? start cs).bind (takeBytes? (stop - start)) else none

theorem byteLength_append (as bs : List Char) :
    byteLength (as ++ bs) = byteLength as + byteLength bs := by
  induction as with
  | nil => simp [byteLength]
  | cons c as ih => simp [byteLength, ih, Nat.add_assoc]

theorem dropBytes?_append (as bs : List Char) :
    dropBytes? (byteLength as) (as ++ bs) = some bs := by
  induction as with
  | nil => simp [byteLength, dropBytes?]
  | cons c as ih =>
    obtain ⟨k, hk⟩ : ∃ k, byteLength (c :: as) = k + 1 :=
      ⟨byteLength (c :: as) - 1, by have := c.utf8Size_pos; simp only [byteLength]; omega⟩
    rw [List.cons_append, hk, dropBytes?, if_pos (by simp only [byteLength] at hk; omega), ← hk]
    simpa [byteLength] using ih

theorem takeBytes?_append (as bs : List Char) :
    takeBytes? (byteLength as) (as ++ bs) = some as := by
  induction as with
  | nil => simp [byteLength, takeBytes?]
  | cons c as ih =>
    obtain ⟨k, hk⟩ : ∃ k, byteLength (c :: as) = k + 1 :=
      ⟨byteLength (c :: as) - 1, by have := c.utf8Size_pos; simp only [byteLength]; omega⟩
    rw [List.cons_append, hk, takeBytes?, if_pos (by simp only [byteLength] at hk; omega), ← hk]
    simp [byteLength, ih]

end Offside.Text
