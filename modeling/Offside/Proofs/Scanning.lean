import Offside.Proofs.Lexing.Classes
import Offside.Proofs.Mapping
import Offside.Rule
import Offside.Tokens

set_option autoImplicit false

/-!
# How a source text is cut into tokens

The scanning of a text, told text by text: each text of a class, with what stands behind it, and the token
it makes. Every token gives back the text it was cut from, and a literal always has a value.
-/
namespace Offside

namespace Lexeme

variable {l : Lexeme} {text : List Char}

/-- A word is a name or one of the two reserved words. -/
theorem kind_of_word {kind : Kind} (h : kind? .word text = some kind) :
    kind = .identifier ∨ kind = .trueWord ∨ kind = .falseWord := by
  simp only [kind?, Kind.reserved?, Option.some.injEq] at h
  split at h
  · exact .inr (.inl h.symm)
  · split at h
    · exact .inr (.inr h.symm)
    · exact .inl h.symm

/-- Only the class of a token of these kinds makes one. -/
theorem eq_of_kind? {kind : Kind} (hl : l ∈ classes) (h : l.kind? text = some kind) :
    match kind with
    | .newline => l = .newline
    | .number => l = .number
    | .string => l = .string
    | _ => True := by
  cases l with
  | word => rcases kind_of_word h with rfl | rfl | rfl <;> trivial
  | operator spelling kind' =>
    obtain rfl : kind' = kind := Option.some.inj h
    revert hl
    cases kind' <;> simp [classes]
  | blanks | comment => cases h
  | newline | number | string =>
    cases h
    rfl

/-- The text of the class that starts at a place, cut off from what stands behind it. -/
theorem exists_text (l : Lexeme) (cs : List Char) :
    ∃ text rest, cs = text ++ rest ∧ l.extent (text ++ rest) = text.length := by
  refine ⟨cs.take (l.extent cs), cs.drop (l.extent cs), (List.take_append_drop _ _).symm, ?_⟩
  rw [List.take_append_drop, List.length_take, Nat.min_eq_left (l.measures.le cs)]

/-- Texts of the classes are cut off one after another, up to the end or to a place where no class starts. -/
theorem texts_induction {motive : List Char → Prop} (nil : motive [])
    (stuck : ∀ c cs, next? (c :: cs) = none → motive (c :: cs))
    (text : ∀ l text rest, next? (text ++ rest) = some l → l.extent (text ++ rest) = text.length →
      motive rest → motive (text ++ rest)) (cs : List Char) : motive cs := by
  induction hn : cs.length using Nat.strongRecOn generalizing cs with
  | ind n ih =>
    cases cs with
    | nil => exact nil
    | cons c cs =>
      cases hclass : next? (c :: cs) with
      | none => exact stuck c cs hclass
      | some l =>
        obtain ⟨front, rest, he, hextent⟩ := l.exists_text (c :: cs)
        rw [he] at hclass hn ⊢
        have hpos := extent_pos_of_next? _ _ hclass
        have hlt : rest.length < n := by rw [← hn, List.length_append]; omega
        exact text l front rest hclass hextent (ih _ hlt rest rfl)

end Lexeme

/-- From the place on, the text is cut into the tokens. -/
inductive Scan : Position → List Char → List Token → Prop
  | done {p : Position} : Scan p [] []
  | skip {p : Position} {text rest : List Char} {ts : List Token} {l : Lexeme}
      (hclass : Lexeme.next? (text ++ rest) = some l)
      (hextent : l.extent (text ++ rest) = text.length) (hkind : l.kind? text = none)
      (hrest : Scan (p.after text) rest ts) : Scan p (text ++ rest) ts
  | cut {p : Position} {text rest : List Char} {ts : List Token} {l : Lexeme} {kind : Kind}
      (hclass : Lexeme.next? (text ++ rest) = some l)
      (hextent : l.extent (text ++ rest) = text.length) (hkind : l.kind? text = some kind)
      (hrest : Scan (p.after text) rest ts) :
      Scan p (text ++ rest) (⟨kind, ⟨p, p.after text⟩⟩ :: ts)

namespace Tokens

variable {p : Position} {cs : List Char} {ts : List Token}

theorem scan_append {text rest : List Char} {l : Lexeme}
    (hclass : Lexeme.next? (text ++ rest) = some l)
    (hextent : l.extent (text ++ rest) = text.length) :
    scan p (text ++ rest) = match l.kind? text with
      | none => scan (p.after text) rest
      | some kind => (scan (p.after text) rest).map (⟨kind, ⟨p, p.after text⟩⟩ :: ·) := by
  have hpos := Lexeme.extent_pos_of_next? _ _ hclass
  cases text with
  | nil => simp only [List.nil_append, List.length_nil] at hextent hpos; omega
  | cons c text =>
    rw [List.cons_append] at hclass hextent ⊢
    rw [scan, hclass]
    cases hkind : l.kind? (c :: text) <;>
      simp only [hextent, hkind, List.length_cons, Nat.add_sub_cancel, List.drop_left,
        List.take_succ_cons, List.take_left]

theorem scan_of_run (h : Scan p cs ts) : scan p cs = .ok ts := by
  induction h with
  | done => rw [scan]
  | skip hclass hextent hkind _ ih => rw [scan_append hclass hextent, hkind, ih]
  | cut hclass hextent hkind _ ih =>
    rw [scan_append hclass hextent, hkind, ih]
    rfl

theorem run_of_scan (h : scan p cs = .ok ts) : Scan p cs ts := by
  induction cs using Lexeme.texts_induction generalizing p ts with
  | nil =>
    rw [scan] at h
    cases h
    exact .done
  | stuck c cs hclass => simp [scan, hclass] at h
  | text l text rest hclass hextent ih =>
    rw [scan_append hclass hextent] at h
    cases hkind : l.kind? text with
    | none =>
      rw [hkind] at h
      exact .skip hclass hextent hkind (ih h)
    | some kind =>
      rw [hkind] at h
      cases hrest : scan (p.after text) rest with
      | error d => simp [hrest, Except.map] at h
      | ok us =>
        simp only [hrest, Except.map, Except.ok.injEq] at h
        subst h
        exact .cut hclass hextent hkind (ih hrest)

/-- A text is scanned into the tokens exactly if it is cut into them. -/
theorem scan_eq_ok_iff : scan p cs = .ok ts ↔ Scan p cs ts := ⟨run_of_scan, scan_of_run⟩

end Tokens

/-- From another place on a text is scanned alike, if the places in it are counted alike from there. -/
theorem Tokens.scan_map {f : Position → Position} {p : Position} {cs : List Char}
    (hf : ∀ as bs, cs = as ++ bs → f (p.after as) = (f p).after as) :
    scan (f p) cs = ((scan p cs).map (List.map (Token.map f))).mapError (Diagnostic.map f) := by
  induction cs using Lexeme.texts_induction generalizing p with
  | nil => rw [scan, scan]; rfl
  | stuck c cs hclass => rw [scan, scan, hclass]; rfl
  | text l text rest hclass hextent ih =>
    have hstop := hf text rest rfl
    have hrest : scan (f (p.after text)) rest = _ := ih fun as bs hrest => by
      rw [← Position.after_append, hstop, ← Position.after_append]
      exact hf (text ++ as) bs (by rw [hrest, List.append_assoc])
    rw [scan_append hclass hextent, scan_append hclass hextent, ← hstop, hrest]
    cases l.kind? text with
    | none => rfl
    | some kind => cases scan (p.after text) rest <;> rfl

namespace Position

theorem offset_after (p : Position) (cs : List Char) :
    (p.after cs).offset = p.offset + Text.byteLength cs := by
  induction cs generalizing p with
  | nil => rfl
  | cons c cs ih =>
    have hstep : (p.step c).offset = p.offset + c.utf8Size := by
      unfold step
      split <;> rfl
    change ((p.step c).after cs).offset = _
    rw [ih, hstep, Text.byteLength]
    omega

end Position

namespace Scan

variable {p : Position} {cs : List Char} {ts : List Token} {t : Token}

/-- Every token was cut from a text of its class, which is found again through its span. -/
theorem mem (h : Scan p cs ts) (ht : t ∈ ts) :
    ∃ before text behind l, cs = before ++ (text ++ behind) ∧
      t.span = ⟨p.after before, p.after (before ++ text)⟩ ∧
      Lexeme.next? (text ++ behind) = some l ∧ l.extent (text ++ behind) = text.length ∧
      l.kind? text = some t.kind := by
  induction h with
  | done => cases ht
  | skip hclass hextent hkind _ ih =>
    obtain ⟨before, text, behind, l, rfl, hspan, hrest⟩ := ih ht
    refine ⟨_, text, behind, l, (List.append_assoc _ _ _).symm, ?_, hrest⟩
    simp only [hspan, List.append_assoc, Position.after_append]
  | cut hclass hextent hkind _ ih =>
    cases ht with
    | head => exact ⟨[], _, _, _, rfl, rfl, hclass, hextent, hkind⟩
    | tail _ ht =>
      obtain ⟨before, text, behind, l, rfl, hspan, hrest⟩ := ih ht
      refine ⟨_, text, behind, l, (List.append_assoc _ _ _).symm, ?_, hrest⟩
      simp only [hspan, List.append_assoc, Position.after_append]

end Scan

namespace Token

/-- What a token is, wherever it stands: its kind and its text. -/
def word (source : String) (t : Token) : Kind × String := (t.kind, t.text source)

theorem text_of_span {source : String} {t : Token} {before text behind : List Char}
    (hsource : source.toList = before ++ (text ++ behind))
    (hspan : t.span = ⟨Position.origin.after before, Position.origin.after (before ++ text)⟩) :
    t.text source = String.ofList text := by
  have hstart : t.span.start.offset = Text.byteLength before := by
    rw [hspan, Position.offset_after]
    exact Nat.zero_add _
  have hstop : t.span.stop.offset = Text.byteLength before + Text.byteLength text := by
    rw [hspan, Position.offset_after, Text.byteLength_append]
    exact Nat.zero_add _
  rw [Token.text, hstart, hstop, hsource, Text.between?, if_pos (Nat.le_add_right _ _),
    Text.dropBytes?_append, Option.bind_some, Nat.add_sub_cancel_left, Text.takeBytes?_append,
    Option.getD_some]

/-- The text of a literal has the value that the literal stands for. -/
structure Readable (source : String) (t : Token) : Prop where
  number : t.kind = .number → (Binary64.ofText? (t.text source)).isSome
  string : t.kind = .string → (Reader.unquoted? (t.text source).toList).isSome

end Token

/-- A source that is one text of a class is one token, which covers all of it. -/
theorem Tokens.ofSource_whole {source : String} {l : Lexeme} {kind : Kind}
    (hclass : Lexeme.next? source.toList = some l) (hextent : l.extent source.toList = source.toList.length)
    (hkind : l.kind? source.toList = some kind) :
    ofSource source = .ok [⟨kind, ⟨.origin, Position.origin.after source.toList⟩⟩] ∧
      (⟨kind, ⟨.origin, Position.origin.after source.toList⟩⟩ : Token).text source = source := by
  have hsource : source.toList = [] ++ (source.toList ++ []) := by simp
  have hscan : Scan .origin (source.toList ++ []) [⟨kind, ⟨.origin, Position.origin.after source.toList⟩⟩] := by
    refine .cut ?_ ?_ hkind .done <;> rwa [List.append_nil]
  rw [List.append_nil] at hscan
  refine ⟨scan_eq_ok_iff.2 hscan, ?_⟩
  rw [Token.text_of_span hsource rfl, String.ofList_toList]

theorem Reader.unquoted?_quotes (inner : List Char) :
    unquoted? ('"' :: (inner ++ ['"'])) = some inner := by
  simp [unquoted?]

namespace Binary64

/-- A number as it is written: digits, and maybe a point with more digits. -/
structure Positional (text whole fraction : List Char) : Prop where
  text_eq : text = whole ++ (if fraction = [] then [] else '.' :: fraction)
  whole_ne : whole ≠ []
  digits : ∀ c ∈ whole ++ fraction, isDigit c

theorem exists_positional {text : List Char} (h : Lexeme.IsNumber text) :
    ∃ whole fraction, Positional text whole fraction := by
  rcases h with ⟨hne, hdigits⟩ | ⟨whole, fraction, rfl, ⟨hne, hwhole⟩, hne', hfraction⟩
  · refine ⟨text, [], (List.append_nil text).symm, hne, ?_⟩
    rw [List.append_nil]
    exact hdigits
  · refine ⟨whole, fraction, by rw [if_neg hne'], hne, fun c hc => ?_⟩
    exact (List.mem_append.1 hc).elim (hwhole c) (hfraction c)

namespace Positional

variable {text whole fraction : List Char}

theorem isNumber (h : Positional text whole fraction) : Lexeme.IsNumber text := by
  have hwhole : Lexeme.IsDigits whole := ⟨h.whole_ne, fun c hc => h.digits c (List.mem_append_left _ hc)⟩
  rw [h.text_eq]
  split
  next => exact .inl (by rwa [List.append_nil])
  next hne =>
    exact .inr ⟨whole, fraction, rfl, hwhole, hne, fun c hc => h.digits c (List.mem_append_right _ hc)⟩

theorem exists_front (h : Positional text whole fraction) : ∃ c cs, text = c :: cs ∧ isDigit c := by
  obtain ⟨c, cs, hwhole⟩ := List.exists_cons_of_ne_nil h.whole_ne
  refine ⟨c, _, h.text_eq.trans (by rw [hwhole, List.cons_append]), h.digits c ?_⟩
  simp [hwhole]

theorem splitPoint_eq (h : Positional text whole fraction) :
    splitPoint text = (whole, fraction, []) := by
  have hwhole : ∀ c ∈ whole, isDigit c := fun c hc => h.digits c (List.mem_append_left _ hc)
  have hfraction : ∀ c ∈ fraction, isDigit c := fun c hc => h.digits c (List.mem_append_right _ hc)
  have hpoint : isDigit '.' = false := by decide
  rw [h.text_eq]
  split
  next hnil =>
    simp only [splitPoint, List.append_nil, List.takeWhile_eq_self_iff.2 hwhole,
      List.dropWhile_eq_nil_iff.2 hwhole, hnil]
  next =>
    simp only [splitPoint, List.takeWhile_append_of_pos hwhole, List.dropWhile_append_of_pos hwhole,
      List.takeWhile_cons, List.dropWhile_cons, hpoint, Bool.false_eq_true, if_false, List.append_nil,
      List.takeWhile_eq_self_iff.2 hfraction, List.dropWhile_eq_nil_iff.2 hfraction]

theorem splitSign_eq (h : Positional text whole fraction) : splitSign text = (false, text) := by
  obtain ⟨c, cs, rfl, hc⟩ := h.exists_front
  have hminus : c ≠ '-' := ne_of_apply_ne isDigit (by rw [hc]; decide)
  have hplus : c ≠ '+' := ne_of_apply_ne isDigit (by rw [hc]; decide)
  simp [splitSign, hminus, hplus]

/-- A text that starts with a digit is not the name of an infinite number. -/
theorem ofName?_eq_none (h : Positional text whole fraction) : ofName? false text = none := by
  obtain ⟨c, cs, rfl, hc⟩ := h.exists_front
  have hlower : lowerCase c = c := by
    simp only [isDigit, Bool.and_eq_true, decide_eq_true_eq] at hc
    exact if_neg fun hletter => absurd (Char.le_trans hletter.1 hc.2) (by decide)
  have hname : ∀ name : String, name.toList.head? ≠ some c →
      String.ofList ((c :: cs).map lowerCase) ≠ name := by
    rintro _ hhead rfl
    simp [hlower] at hhead
  have hi : c ≠ 'i' := ne_of_apply_ne isDigit (by rw [hc]; decide)
  have hn : c ≠ 'n' := ne_of_apply_ne isDigit (by rw [hc]; decide)
  have hinf := hname "inf" (by simpa using hi.symm)
  have hinfinity := hname "infinity" (by simpa using hi.symm)
  have hnan := hname "nan" (by simpa using hn.symm)
  simp only [ofName?, hinf, hinfinity, hnan, or_self, if_false]

theorem ofText?_eq (h : Positional text whole fraction) : ofText? (String.ofList text) =
    some (ofDecimal false (natOfDigits ((whole ++ fraction).dropWhile (· = '0')))
      ((whole ++ fraction).dropWhile (· = '0')).length (0 - fraction.length)) := by
  simp only [ofText?, String.toList_ofList, h.splitSign_eq, h.ofName?_eq_none, Option.orElse_eq_or,
    Option.none_or, ofDigits?, h.splitPoint_eq, h.whole_ne, false_and, if_false, exponent?,
    Option.map_some]

end Positional

theorem isSome_ofText? {text : List Char} (h : Lexeme.IsNumber text) :
    (ofText? (String.ofList text)).isSome := by
  obtain ⟨whole, fraction, htext⟩ := exists_positional h
  rw [htext.ofText?_eq]
  rfl

end Binary64

namespace Scan

variable {source : String} {ts : List Token} {t : Token}

/-- What is cut from a source without line breaks are readable tokens, and no line break. -/
theorem readable (h : Scan .origin source.toList ts) (ht : t ∈ ts) : t.Readable source := by
  obtain ⟨before, text, behind, l, hsource, hspan, hclass, hextent, hkind⟩ := h.mem ht
  have hl := Lexeme.mem_classes_of_next? hclass
  have hholds := Lexeme.holds_of_next? hclass hextent
  have htext := Token.text_of_span hsource hspan
  constructor
  · intro hk
    obtain rfl : l = .number := Lexeme.eq_of_kind? hl (hk ▸ hkind)
    rw [htext]
    exact Binary64.isSome_ofText? hholds
  · intro hk
    obtain rfl : l = .string := Lexeme.eq_of_kind? hl (hk ▸ hkind)
    obtain ⟨inner, rfl, _⟩ := hholds
    rw [htext, String.toList_ofList, Reader.unquoted?_quotes]
    rfl

/-- A line break is cut from one in the source. -/
theorem mem_of_newline (h : Scan .origin source.toList ts) (ht : t ∈ ts) (hk : t.kind = .newline) :
    '\n' ∈ source.toList := by
  obtain ⟨before, text, behind, l, hsource, hspan, hclass, hextent, hkind⟩ := h.mem ht
  have hpos := Lexeme.extent_pos_of_next? _ _ hclass
  rw [hk] at hkind
  have hnewline : l = .newline := Lexeme.eq_of_kind? (Lexeme.mem_classes_of_next? hclass) hkind
  subst hnewline
  simp only [Lexeme.extent] at hpos
  split at hpos
  next hhead =>
    rw [hsource]
    exact List.mem_append_right _ (List.mem_of_mem_head? hhead)
  next => omega

end Scan

end Offside
