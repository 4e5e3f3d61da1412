import Offside.Proofs.Scanning

set_option autoImplicit false

/-!
# Cutting by the longest text

A source is cut into tokens and gaps, piece by piece, and every piece is the longest text of a class at its
place. Where the cutting stops before the end, no class has a text.
-/
namespace Offside

/-- Whether a text belongs to the class of the tokens of a kind. -/
def Kind.IsSpelled (text : List Char) : Kind → Prop
  | .number => Lexeme.IsNumber text
  | .string => Lexeme.IsString text
  | .identifier => Lexeme.IsWord text ∧ text ≠ "true".toList ∧ text ≠ "false".toList
  | .newline => text = ['\n']
  | .openBracket => text = ['[']
  | .closeBracket => text = [']']
  | .openParen => text = ['(']
  | .closeParen => text = [')']
  | .assignment => text = ['=']
  | .equals => text = ['=', '=']
  | .not => text = ['!']
  | .notEquals => text = ['!', '=']
  | .less => text = ['<']
  | .lessEquals => text = ['<', '=']
  | .greater => text = ['>']
  | .greaterEquals => text = ['>', '=']
  | .question => text = ['?']
  | .comma => text = [',']
  | .arrow => text = ['-', '>']
  | .plus => text = ['+']
  | .dash => text = ['-']
  | .slash => text = ['/']
  | .star => text = ['*']
  | .percent => text = ['%']
  | .trueWord => text = "true".toList
  | .falseWord => text = "false".toList

/-- A piece of a source: the text of a token of a kind, or a part of a gap. -/
structure Segment where
  kind? : Option Kind
  text : List Char

namespace Segment

/-- The text is one of the class it is cut as; a gap is made of blanks and comments. -/
def Valid (s : Segment) : Prop :=
  match s.kind? with
  | some kind => kind.IsSpelled s.text
  | none => Lexeme.IsBlanks s.text ∨ Lexeme.IsComment s.text

def join (ss : List Segment) : List Char := ss.flatMap text

/-- At its place, before what stands behind it, the piece is the longest text of any class. A comment runs
up to the next line break. -/
structure Longest (s : Segment) (behind : List Char) : Prop where
  valid : s.Valid
  longest : ∀ t : Segment, t.Valid → t.text <+: s.text ++ behind → t.text.length ≤ s.text.length
  comment : Lexeme.IsComment s.text → ∀ c ∈ behind.head?, c = '\n'

/-- Each piece is the longest at its place. -/
def Munched (behind : List Char) : List Segment → Prop
  | [] => True
  | s :: ss => s.Longest (join ss ++ behind) ∧ Munched behind ss

/-- The tokens of the pieces, the first of which starts at the given place. -/
def tokens (p : Position) : List Segment → List Token
  | [] => []
  | s :: ss =>
    let stop := p.after s.text
    match s.kind? with
    | some kind => ⟨kind, ⟨p, stop⟩⟩ :: tokens stop ss
    | none => tokens stop ss

theorem join_cons (s : Segment) (ss : List Segment) : join (s :: ss) = s.text ++ join ss := rfl

theorem join_append (as bs : List Segment) : join (as ++ bs) = join as ++ join bs := List.flatMap_append

variable {l : Lexeme} {text rest : List Char} {s : Segment}

theorem valid_of_holds (hl : l ∈ Lexeme.classes) (h : l.Holds text) :
    Valid ⟨l.kind? text, text⟩ := by
  cases l with
  | word =>
    have htext : ∀ word : String, text ≠ word.toList ↔ String.ofList text ≠ word := fun word => by
      rw [ne_eq, ne_eq, ← String.toList_inj, String.toList_ofList]
    simp only [Lexeme.kind?, Kind.reserved?]
    split
    next htrue => exact (by rw [← htrue, String.toList_ofList] : text = "true".toList)
    next htrue =>
      split
      next hfalse => exact (by rw [← hfalse, String.toList_ofList] : text = "false".toList)
      next hfalse => exact ⟨h, (htext _).2 htrue, (htext _).2 hfalse⟩
  | number => exact h
  | newline => exact h
  | blanks => exact .inl h
  | string => exact h
  | comment => exact .inr h
  | operator spelling kind =>
    obtain rfl : text = spelling := h
    change kind.IsSpelled text
    revert hl
    cases kind <;> simp [Lexeme.classes, Kind.IsSpelled]

theorem exists_class (h : s.Valid) : ∃ l ∈ Lexeme.classes, l.Holds s.text := by
  obtain ⟨kind?, text⟩ := s
  cases kind? with
  | none =>
    rcases h with h | h
    · exact ⟨.blanks, by decide, h⟩
    · exact ⟨.comment, by decide, h⟩
  | some kind =>
    revert h
    cases hkind : kind with
    | number => exact fun h => ⟨.number, by decide, h⟩
    | string => exact fun h => ⟨.string, by decide, h⟩
    | identifier => exact fun h => ⟨.word, by decide, h.1⟩
    | newline => exact fun h => ⟨.newline, by decide, h⟩
    | trueWord =>
      exact fun h => ⟨.word, by decide, 't', ['r', 'u', 'e'], h, rfl, by simp [Lexeme.isLetter]⟩
    | falseWord =>
      exact fun h => ⟨.word, by decide, 'f', ['a', 'l', 's', 'e'], h, rfl, by simp [Lexeme.isLetter]⟩
    | _ => exact fun h => ⟨.operator _ kind, by rw [hkind]; decide, h⟩

/-- What is found at a place is the longest text there. -/
theorem longest_of_next? (h : Lexeme.next? (text ++ rest) = some l)
    (hextent : l.extent (text ++ rest) = text.length) : Longest ⟨l.kind? text, text⟩ rest := by
  have hholds := Lexeme.holds_of_next? h hextent
  have hlongest : ∀ t : Segment,
      t.Valid → t.text <+: text ++ rest → t.text.length ≤ text.length := by
    rintro t ht ⟨behind, he⟩
    obtain ⟨m, hm, hother⟩ := exists_class ht
    exact Lexeme.length_le_of_next? h hextent hm hother he.symm
  refine ⟨valid_of_holds (Lexeme.mem_classes_of_next? h) hholds, hlongest, ?_⟩
  rintro ⟨cs, rfl, hcs⟩ c hc
  by_contra hne
  -- one more character would be part of the comment
  obtain ⟨rest, rfl⟩ := List.head?_eq_some_iff.1 hc
  have hle := hlongest ⟨none, '/' :: '/' :: (cs ++ [c])⟩
    (.inr ⟨_, rfl, by simpa [hcs] using Ne.symm hne⟩) ⟨rest, by simp⟩
  simp only [List.length_cons, List.length_append, List.length_nil] at hle
  omega

theorem not_prefix_of_next? (h : Lexeme.next? rest = none) (hs : s.Valid) : ¬ s.text <+: rest := by
  rintro ⟨behind, rfl⟩
  obtain ⟨m, hm, hholds⟩ := exists_class hs
  exact Lexeme.not_holds_of_next? h hm hholds

theorem Valid.ne_nil (h : s.Valid) : s.text ≠ [] := by
  obtain ⟨l, hl, hholds⟩ := exists_class h
  exact fun hnil => Lexeme.ne_nil_of_holds hl (hnil ▸ hholds)

variable {ss : List Segment} {behind : List Char} {p : Position} {t : Token}

theorem Munched.valid (h : Munched behind ss) (hs : s ∈ ss) : s.Valid := by
  induction ss with
  | nil => cases hs
  | cons r ss ih =>
    rcases List.mem_cons.1 hs with rfl | hs
    · exact h.1.valid
    · exact ih h.2 hs

/-- A token covers one of the pieces. -/
theorem mem_tokens (h : t ∈ tokens p ss) :
    ∃ as s bs, ss = as ++ s :: bs ∧ s.kind? = some t.kind ∧
      t.span = ⟨p.after (join as), p.after (join as ++ s.text)⟩ := by
  induction ss generalizing p with
  | nil => cases h
  | cons r ss ih =>
    have hlater : t ∈ tokens (p.after r.text) ss →
        ∃ as s bs, r :: ss = as ++ s :: bs ∧ s.kind? = some t.kind ∧
          t.span = ⟨p.after (join as), p.after (join as ++ s.text)⟩ := by
      intro ht
      obtain ⟨as, s, bs, rfl, hkind, hspan⟩ := ih ht
      refine ⟨r :: as, s, bs, rfl, hkind, ?_⟩
      simp only [hspan, join_cons, List.append_assoc, Position.after_append]
    cases hkind : r.kind? with
    | none =>
      simp only [tokens, hkind] at h
      exact hlater h
    | some kind =>
      simp only [tokens, hkind] at h
      rcases List.mem_cons.1 h with rfl | ht
      · exact ⟨[], r, ss, rfl, hkind, rfl⟩
      · exact hlater ht

/-- The tokens are, in order, the pieces that are no gaps. -/
theorem map_tokens {source : String} {before : List Char}
    (hsource : source.toList = before ++ (join ss ++ behind)) :
    ((tokens (Position.origin.after before) ss).map fun t => ⟨some t.kind, (t.text source).toList⟩) =
      ss.filter (·.kind?.isSome) := by
  induction ss generalizing before with
  | nil => rfl
  | cons s ss ih =>
    obtain ⟨kind?, text⟩ := s
    have hsource' : source.toList = before ++ (text ++ (join ss ++ behind)) := by
      rw [hsource, join_cons, List.append_assoc]
    have hrest := ih (hsource'.trans (List.append_assoc before text _).symm)
    rw [Position.after_append] at hrest
    cases kind? with
    | none => exact hrest
    | some kind =>
      have htext := Token.text_of_span (t := ⟨kind, ⟨_, _⟩⟩) hsource' rfl
      rw [Position.after_append] at htext
      simp only [tokens, List.map_cons, htext, String.toList_ofList, hrest]
      rfl

end Segment

namespace Tokens

/-- Each token covers a part of the source, between two characters, and one comes behind the other. -/
structure Placed (source : String) (ts : List Token) : Prop where
  covers : ∀ t ∈ ts, ∃ before text behind,
    source.toList = before ++ (text ++ behind) ∧ text ≠ [] ∧
    t.span.start.offset = Text.byteLength before ∧
    t.span.stop.offset = Text.byteLength before + Text.byteLength text
  ordered : ts.Pairwise fun t u => t.span.stop.offset ≤ u.span.start.offset

open Segment

/-- Scanning cuts off one longest text after another, up to the end or to a place where no class has one. -/
theorem exists_segments (p : Position) (cs : List Char) :
    ∃ ss rest, cs = join ss ++ rest ∧ Munched rest ss ∧
      (rest = [] ∧ scan p cs = .ok (tokens p ss) ∨
        ∃ c cs', rest = c :: cs' ∧ Lexeme.next? rest = none ∧
          scan p cs = .error ⟨.unrecognised (String.singleton c), p.after (join ss)⟩) := by
  induction cs using Lexeme.texts_induction generalizing p with
  | nil => exact ⟨[], [], rfl, trivial, .inl ⟨rfl, by rw [scan]; rfl⟩⟩
  | stuck c cs hclass =>
    exact ⟨[], c :: cs, rfl, trivial, .inr ⟨c, cs, rfl, hclass, by rw [scan, hclass]; rfl⟩⟩
  | text l text rest hclass hextent ih =>
    obtain ⟨ss, behind, rfl, hmunched, hscan⟩ := ih (p.after text)
    refine ⟨⟨l.kind? text, text⟩ :: ss, behind, (List.append_assoc _ _ _).symm,
      ⟨longest_of_next? hclass hextent, hmunched⟩, ?_⟩
    rw [scan_append hclass hextent]
    rcases hscan with ⟨rfl, hok⟩ | ⟨d, behind, rfl, hnone, herror⟩
    · refine .inl ⟨rfl, ?_⟩
      rw [hok]
      cases l.kind? text <;> rfl
    · refine .inr ⟨d, behind, rfl, hnone, ?_⟩
      have hafter :
          p.after (join (⟨l.kind? text, text⟩ :: ss)) = (p.after text).after (join ss) :=
        Position.after_append p text (join ss)
      rw [herror, hafter]
      cases l.kind? text <;> rfl

theorem ordered_tokens (p : Position) (ss : List Segment) :
    (tokens p ss).Pairwise fun t u => t.span.stop.offset ≤ u.span.start.offset := by
  induction ss generalizing p with
  | nil => exact .nil
  | cons s ss ih =>
    cases hkind : s.kind? with
    | none =>
      simp only [tokens, hkind]
      exact ih _
    | some kind =>
      simp only [tokens, hkind]
      refine .cons (fun u hu => ?_) (ih _)
      obtain ⟨as, _, _, _, _, hspan⟩ := mem_tokens hu
      rw [hspan]
      exact (Position.offset_after (p.after s.text) (join as)).symm ▸ Nat.le_add_right _ _

theorem placed_tokens {source : String} {ss : List Segment} (hsource : source.toList = join ss)
    (h : Munched [] ss) : Placed source (tokens .origin ss) where
  covers t ht := by
    obtain ⟨as, s, bs, rfl, _, hspan⟩ := mem_tokens ht
    refine ⟨join as, s.text, join bs, ?_, (h.valid (by simp)).ne_nil, ?_, ?_⟩
    · rw [hsource, join_append, join_cons]
    · rw [hspan, Position.offset_after]
      exact Nat.zero_add _
    · rw [hspan, Position.offset_after, Text.byteLength_append]
      exact Nat.zero_add _
  ordered := ordered_tokens _ _

/-- A source is cut into tokens with gaps between them, each piece the longest text of any class at its
place. If that stops before the end, the pieces make up what stands before the place of the diagnostic, no
text of any class starts there, and the diagnostic names the character that does. -/
theorem ofSource_munches (source : String) :
    match ofSource source with
    | .ok ts => ∃ ss, source.toList = join ss ∧ Munched [] ss ∧ ts = tokens .origin ss ∧
        (ts.map fun t => ⟨some t.kind, (t.text source).toList⟩) = ss.filter (·.kind?.isSome) ∧
        Placed source ts
    | .error d => ∃ ss c rest, source.toList = join ss ++ c :: rest ∧ Munched (c :: rest) ss ∧
        (∀ s : Segment, s.Valid → ¬ s.text <+: c :: rest) ∧
        d.cause = .unrecognised (String.singleton c) ∧
        d.position.offset = Text.byteLength (join ss) := by
  obtain ⟨ss, rest, hsource, hmunched, hscan⟩ := exists_segments .origin source.toList
  rcases hscan with ⟨rfl, hok⟩ | ⟨c, rest, rfl, hnone, herror⟩
  · rw [ofSource, hok]
    have hall : source.toList = join ss := by rw [hsource, List.append_nil]
    have hcut : source.toList = [] ++ (join ss ++ []) := hsource
    exact ⟨ss, hall, hmunched, rfl, map_tokens hcut, placed_tokens hall hmunched⟩
  · rw [ofSource, herror]
    refine ⟨ss, c, rest, hsource, hmunched, fun s hs => not_prefix_of_next? hnone hs, rfl, ?_⟩
    rw [Position.offset_after]
    exact Nat.zero_add _

end Tokens

end Offside
