set_option autoImplicit false

/-!
# Escapes in a string literal

A backslash and one of `n`, `t`, `r`, `\`, `"`, `0` stand for one character, and `\x` with one or two
hexadecimal digits for the code point they spell. Before anything else a backslash stands for itself.
-/
namespace Offside.Text

def hexValue? (c : Char) : Option Nat :=
  if '0' ≤ c ∧ c ≤ '9' then some (c.toNat - '0'.toNat)
  else if 'a' ≤ c ∧ c ≤ 'f' then some (c.toNat - 'a'.toNat + 10)
  else if 'A' ≤ c ∧ c ≤ 'F' then some (c.toNat - 'A'.toNat + 10)
  else none

/-- The character that a backslash and `c` stand for. -/
def shortEscape? (c : Char) : Option Char :=
  if c = 'n' then some '\n'
  else if c = 't' then some '\t'
  else if c = 'r' then some '\r'
  else if c = '\\' then some '\\'
  else if c = '"' then some '"'
  else if c = '0' then some '\x00'
  else none

def unescapeChars : List Char → List Char
  | '\\' :: 'x' :: c :: d :: cs =>
    match hexValue? c, hexValue? d with
    | some m, some n => Char.ofNat (16 * m + n) :: unescapeChars cs
    | some m, none => Char.ofNat m :: unescapeChars (d :: cs)
    | none, _ => '\\' :: 'x' :: unescapeChars (c :: d :: cs)
  | ['\\', 'x', c] =>
    match hexValue? c with
    | some m => [Char.ofNat m]
    | none => '\\' :: 'x' :: unescapeChars [c]
  | '\\' :: c :: cs =>
    match shortEscape? c with
    | some e => e :: unescapeChars cs
    | none => '\\' :: unescapeChars (c :: cs)
  | c :: cs => c :: unescapeChars cs
  | [] => []

def unescape (literal : String) : String := String.ofList (unescapeChars literal.toList)

end Offside.Text
