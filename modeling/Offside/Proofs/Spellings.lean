import Offside.Proofs.DefaultGrammar
import Offside.Proofs.Lexing.Seams
import Offside.Proofs.Scanning

set_option autoImplicit false

/-!
# Literals in every spelling

Between the quotes of a literal a character has several spellings: itself, a backslash with one sign, or its
code point in two hexadecimal digits. However the characters of a text are spelled, the literal is cut into
one token and read as that text.
-/
namespace Offside

namespace Text

/-- The signs behind a backslash with what the two stand for. -/
def shortEscapes : List (Char × Char) :=
  [('n', '\n'), ('t', '\t'), ('r', '\r'), ('\\', '\\'), ('"', '"'), ('0', '\x00')]

/-- The hexadecimal digits with their values. -/
def hexDigitValues : List (Char × Nat) :=
  [('0', 0), ('1', 1), ('2', 2), ('3', 3), ('4', 4), ('5', 5), ('6', 6), ('7', 7), ('8', 8), ('9', 9),
    ('a', 10), ('b', 11), ('c', 12), ('d', 13), ('e', 14), ('f', 15),
    ('A', 10), ('B', 11), ('C', 12), ('D', 13), ('E', 14), ('F', 15)]

/-- A spelling of one character. -/
inductive Spells : Char → List Char → Prop
  | itself {c : Char} (hquote : c ≠ '"') (hslash : c ≠ '\\') (hline : c ≠ '\n') : Spells c [c]
  | short {c sign : Char} (hsign : (sign, c) ∈ shortEscapes) : Spells c ['\\', sign]
  | hex {c high low : Char} {m n : Nat} (hhigh : (high, m) ∈ hexDigitValues)
      (hlow : (low, n) ∈ hexDigitValues) (hcode : c.toNat = 16 * m + n) :
      Spells c ['\\', 'x', high, low]

/-- The characters in spellings of theirs, one behind the other. -/
inductive Spelled : List Char → List Char → Prop
  | nil : Spelled [] []
  | cons {c : Char} {cs spelling rest : List Char} (hspelling : Spells c spelling)
      (hrest : Spelled cs rest) : Spelled (c :: cs) (spelling ++ rest)

def inQuotes (inner : List Char) : List Char := '"' :: (inner ++ ['"'])

theorem hexValue?_of_mem {digit : Char} {n : Nat} (h : (digit, n) ∈ hexDigitValues) :
    hexValue? digit = some n := by
  have hall : ∀ p ∈ hexDigitValues, hexValue? p.1 = some p.2 := by decide
  exact hall _ h

theorem shortEscape?_of_mem {sign c : Char} (h : (sign, c) ∈ shortEscapes) :
    shortEscape? sign = some c := by
  have hall : ∀ p ∈ shortEscapes, shortEscape? p.1 = some p.2 := by decide
  exact hall _ h

theorem sign_of_mem {sign c : Char} (h : (sign, c) ∈ shortEscapes) : sign ≠ 'x' ∧ sign ≠ '\n' := by
  have hall : ∀ p ∈ shortEscapes, p.1 ≠ 'x' ∧ p.1 ≠ '\n' := by decide
  exact hall _ h

theorem plain_of_mem {digit : Char} {n : Nat} (h : (digit, n) ∈ hexDigitValues) :
    digit ≠ '"' ∧ digit ≠ '\\' ∧ digit ≠ '\n' := by
  have hall : ∀ p ∈ hexDigitValues, p.1 ≠ '"' ∧ p.1 ≠ '\\' ∧ p.1 ≠ '\n' := by decide
  exact hall _ h

variable {c : Char} {cs spelling inner rest : List Char}

/-- Where a spelling ends the characters behind it are read on their own. -/
theorem unescapeChars_append (h : Spells c spelling) :
    unescapeChars (spelling ++ rest) = c :: unescapeChars rest := by
  cases h with
  | itself _ hslash _ => simp [unescapeChars, hslash]
  | @short sign hsign =>
    simp [unescapeChars, shortEscape?_of_mem hsign, (sign_of_mem hsign).1]
  | hex hhigh hlow hcode =>
    simp [unescapeChars, hexValue?_of_mem hhigh, hexValue?_of_mem hlow, ← hcode, Char.ofNat_toNat]

theorem unescapeChars_of_spelled (h : Spelled cs inner) : unescapeChars inner = cs := by
  induction h with
  | nil => rfl
  | cons hspelling _ ih => rw [unescapeChars_append hspelling, ih]

end Text

namespace Lexeme

variable {text inner cs spelling rest : List Char} {c : Char}

theorem IsStringBody.append_spelling (h : Text.Spells c spelling) (hrest : IsStringBody rest) :
    IsStringBody (spelling ++ rest) := by
  cases h with
  | itself hquote hslash hline => exact .plain hquote hslash hline hrest
  | @short sign hsign =>
    exact .escaped (Text.sign_of_mem hsign).2 hrest
  | hex hhigh hlow _ =>
    -- the backslash takes the `x` with it, and the digits are characters of their own
    obtain ⟨hquote, hslash, hline⟩ := Text.plain_of_mem hhigh
    obtain ⟨hquote', hslash', hline'⟩ := Text.plain_of_mem hlow
    exact .escaped (by decide) (.plain hquote hslash hline (.plain hquote' hslash' hline' hrest))

theorem isStringBody_of_spelled (h : Text.Spelled cs inner) : IsStringBody inner := by
  induction h with
  | nil => exact .nil
  | cons hspelling _ ih => exact .append_spelling hspelling ih

/-- A string is cut whole, whatever stands behind it. -/
theorem next?_of_isString (h : IsString text) (rest : List Char) :
    next? (text ++ rest) = some .string ∧ extent .string (text ++ rest) = text.length := by
  refine ⟨next?_of_holds (l := .string) (by decide) rfl h rest, ?_⟩
  obtain ⟨inner, rfl, hinner⟩ := h
  simp only [extent, List.cons_append, List.append_assoc, List.nil_append, stringExtent,
    stringBodyExtent?_append hinner, Option.map_some, Option.getD_some, List.length_cons,
    List.length_append, List.length_nil]
  omega

end Lexeme

namespace Program

open Reading

variable {settings : Settings}

/-- A literal is one token that covers all of it and one tree with the text that it spells, whatever the
spellings of the characters are. -/
theorem ofSource_spelled {value : String} {inner : List Char} (h : Text.Spelled value.toList inner)
    (hdepth : 0 < settings.maxDepth) :
    let source := String.ofList (Text.inQuotes inner)
    let span : Span := ⟨.origin, Position.origin.after source.toList⟩
    Tokens.ofSource source = .ok [⟨.string, span⟩] ∧
    Text.unescape (String.ofList inner) = value ∧
    ofSource source settings = .ok [.string span value] := by
  intro source span
  have htext : source.toList = Text.inQuotes inner := String.toList_ofList
  have hstring : Lexeme.IsString (Text.inQuotes inner) := ⟨inner, rfl, Lexeme.isStringBody_of_spelled h⟩
  obtain ⟨hclass, hextent⟩ := Lexeme.next?_of_isString hstring []
  rw [List.append_nil, ← htext] at hclass hextent
  obtain ⟨htokens, hcovers⟩ := Tokens.ofSource_whole hclass hextent (rfl : _ = some Kind.string)
  have hvalue : Text.unescape (String.ofList inner) = value := by
    rw [Text.unescape, String.toList_ofList, Text.unescapeChars_of_spelled h, String.ofList_toList]
  have hinside : Reader.unquoted? ((⟨.string, span⟩ : Token).text source).toList = some inner := by
    rw [hcovers, htext]
    exact Reader.unquoted?_quotes inner
  refine ⟨htokens, hvalue, ?_⟩
  rw [ofSource_eq_parse htokens, ← hvalue]
  exact parse_singleton rfl rfl hdepth fun _ => .string hinside

/-- A digit behind a code point, a backslash before a quote, and characters of their own. -/
theorem ofSource_spelled_of_mixed :
    Text.Spelled "J4\\\"é\n".toList "\\x4A4\\\\\\\"é\\n".toList ∧
    Tokens.ofSource "\"\\x4A4\\\\\\\"é\\n\"" = .ok [⟨.string, ⟨.origin, ⟨15, 1, 14⟩⟩⟩] ∧
    Text.unescape "\\x4A4\\\\\\\"é\\n" = "J4\\\"é\n" ∧
    ofSource "\"\\x4A4\\\\\\\"é\\n\"" {} =
      .ok [.string ⟨.origin, ⟨15, 1, 14⟩⟩ "J4\\\"é\n"] := by
  have hspelled : Text.Spelled "J4\\\"é\n".toList "\\x4A4\\\\\\\"é\\n".toList :=
    .cons (@Text.Spells.hex 'J' '4' 'A' 4 10 (by decide) (by decide) rfl)
      (.cons (.itself (by decide) (by decide) (by decide))
        (.cons (@Text.Spells.short '\\' '\\' (by decide))
          (.cons (@Text.Spells.short '"' '"' (by decide))
            (.cons (.itself (by decide) (by decide) (by decide))
              (.cons (@Text.Spells.short '\n' 'n' (by decide)) .nil)))))
  have hdepth : 0 < ({} : Settings).maxDepth := by decide
  exact ⟨hspelled, ofSource_spelled hspelled hdepth⟩

end Program

end Offside
