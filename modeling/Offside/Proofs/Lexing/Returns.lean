import Mathlib.Data.List.Forall2
import Offside.Proofs.Lexing.Lines

set_option autoImplicit false

/-!
# Carriage returns before line breaks

A carriage return at the end of a line is a blank or the last character of a comment, and a string does not
reach that far. So lines that end with one are cut into the same tokens, and only the line breaks themselves
stand a column further on.
-/
namespace Offside

namespace Lexeme

variable {cs : List Char} {m : Lexeme}

theorem eq_of_continues_return : ∀ l ∈ classes, l.continues '\r' →
    l = .blanks ∨ l = .comment ∨ l = .string := by decide

/-- What ends with a carriage return is blanks or a comment, and so it is without it. -/
theorem holds_of_append_return (hm : m ∈ classes) (hcs : cs ≠ []) (h : m.Holds (cs ++ ['\r'])) :
    (m = .blanks ∨ m = .comment) ∧ m.Holds cs := by
  rcases eq_of_continues_return m hm (continues_of_append hcs h) with rfl | rfl | rfl
  · exact ⟨.inl rfl, hcs, fun c hc => h.2 c (List.mem_append_left _ hc)⟩
  · refine ⟨.inr rfl, IsComment.of_append h ?_⟩
    obtain ⟨c, cs, rfl⟩ := List.exists_cons_of_ne_nil hcs
    obtain ⟨_, he, _⟩ := h
    cases cs with
    | nil => simp at he
    | cons d cs => simp
  · obtain ⟨inner, he, _⟩ := h
    rw [← List.cons_append] at he
    simpa using (List.append_inj' he rfl).2

/-- A carriage return at the end changes the extent of no class there, unless all of it is blanks or a
comment, which then are longer by one. -/
theorem extent_append_return (hm : m ∈ classes) (hcs : cs ≠ []) :
    m.extent (cs ++ ['\r']) = m.extent cs ∨
      (m = .blanks ∨ m = .comment) ∧ m.extent cs = cs.length ∧
        m.extent (cs ++ ['\r']) = (cs ++ ['\r']).length := by
  by_cases hle : m.extent (cs ++ ['\r']) ≤ cs.length
  · refine .inl (m.measures.extent_append fun text rest htext he => ?_)
    have hlonger := m.measures.longest text rest htext
    rw [← he] at hlonger
    exact hlonger.trans hle
  · -- a text that takes the return in is one without it too, so either way it is all of the text
    have hwhole : m.extent (cs ++ ['\r']) = (cs ++ ['\r']).length := by
      have hmost := m.measures.le (cs ++ ['\r'])
      rw [List.length_append, List.length_singleton] at hmost ⊢
      omega
    have hall : m.Holds (cs ++ ['\r']) := by
      rw [← List.append_nil (cs ++ ['\r'])] at hwhole
      exact m.measures.holds (by simpa using hwhole) (by simp)
    obtain ⟨hclass, hholds⟩ := holds_of_append_return hm hcs hall
    have hlonger := m.measures.longest cs [] hholds
    rw [List.append_nil] at hlonger
    exact .inr ⟨hclass, Nat.le_antisymm (m.measures.le cs) hlonger, hwhole⟩

theorem next?_append_return (hcs : cs ≠ []) : next? (cs ++ ['\r']) = next? cs := by
  have hpos := List.length_pos_iff.2 hcs
  unfold next?
  refine List.find?_congr fun m hm => ?_
  rcases extent_append_return hm hcs with hsame | ⟨_, hextent, hextent'⟩
  · rw [hsame]
  · rw [hextent, hextent', List.length_append]
    simp [hcs]

end Lexeme

namespace Tokens

/-- A carriage return at the end of a text makes no token and changes none. -/
theorem scan_append_return (p : Position) (cs : List Char) : scan p (cs ++ ['\r']) = scan p cs := by
  have hnil (q : Position) : scan q [] = .ok [] := by rw [scan]
  induction cs using Lexeme.texts_induction generalizing p with
  | nil =>
    have hclass : Lexeme.next? (['\r'] ++ []) = some .blanks := rfl
    exact (scan_append hclass rfl).trans ((hnil _).trans (hnil p).symm)
  | stuck c cs hclass =>
    have hsame := (Lexeme.next?_append_return (List.cons_ne_nil c cs)).trans hclass
    rw [List.cons_append] at hsame
    rw [List.cons_append, scan, scan, hsame, hclass]
  | text l text rest hclass hextent ih =>
    have hne := Lexeme.ne_nil_of_next? hclass
    have hsame := (Lexeme.next?_append_return hne).trans hclass
    rcases Lexeme.extent_append_return (Lexeme.mem_classes_of_next? hclass) hne with
      hextent' | ⟨hkind, hwhole, hwhole'⟩
    · rw [List.append_assoc] at hsame hextent'
      rw [List.append_assoc, scan_append hsame (hextent'.trans hextent), scan_append hclass hextent, ih]
    · -- the return prolongs blanks or a comment up to the end, which make no token
      have hnone (text : List Char) : l.kind? text = none := by rcases hkind with rfl | rfl <;> rfl
      obtain rfl : rest = [] := by
        rw [hextent, List.length_append] at hwhole
        exact List.eq_nil_of_length_eq_zero (by omega)
      rw [List.append_nil, ← List.append_nil (text ++ ['\r'])] at hsame hwhole'
      rw [scan_append hclass hextent, hnone, List.append_nil, ← List.append_nil (text ++ ['\r']),
        scan_append hsame (by simpa using hwhole'), hnone]
      exact (hnil _).trans (hnil _).symm

theorem ofSource_append_return (a : String) : ofSource (a ++ "\r") = ofSource a := by
  rw [ofSource, String.toList_append]
  exact scan_append_return .origin a.toList

end Tokens

/-! ### A carriage return before every line break -/

namespace Text

/-- The text with a carriage return before every line feed. -/
def withReturns (source : String) : String :=
  String.ofList (source.toList.flatMap fun c => if c = '\n' then ['\r', '\n'] else [c])

theorem flatMap_of_not_mem {cs : List Char} (h : '\n' ∉ cs) :
    (cs.flatMap fun c => if c = '\n' then ['\r', '\n'] else [c]) = cs := by
  induction cs with
  | nil => rfl
  | cons c cs ih =>
    rw [List.mem_cons, not_or] at h
    rw [List.flatMap_cons, ih h.2, if_neg (Ne.symm h.1)]
    rfl

theorem withReturns_line {a : String} (h : '\n' ∉ a.toList) : withReturns a = a := by
  rw [withReturns, flatMap_of_not_mem h, String.ofList_toList]

theorem withReturns_lines {a : String} (h : '\n' ∉ a.toList) (b : String) :
    withReturns (a ++ "\n" ++ b) = a ++ "\r" ++ "\n" ++ withReturns b := by
  rw [← String.toList_inj]
  simp [withReturns, String.toList_append, flatMap_of_not_mem h]

end Text

namespace Position

/-- The line and the column, without the offset. -/
def seen (p : Position) : Position := ⟨0, p.line, p.column⟩

theorem seen_eq_iff {p p' : Position} : p'.seen = p.seen ↔ p'.line = p.line ∧ p'.column = p.column := by
  simp [seen]

theorem seen_below_return {p p' : Position} (h : p'.seen = p.seen) (a : String) :
    (p'.below (a ++ "\r").toList).seen = (p.below a.toList).seen := by
  rw [seen_eq_iff] at h ⊢
  simp [below, h, List.count_append]

end Position

/-- The tokens of a text and of the same text with carriage returns correspond. The line break stands behind
the carriage return. -/
structure Token.Returned (source source' : String) (t t' : Token) : Prop where
  kind : t'.kind = t.kind
  text : t'.text source' = t.text source
  line : t'.line = t.line
  column : t.kind ≠ .newline → t'.column = t.column
  stop : t'.span.stop.seen = t.span.stop.seen

namespace Tokens

variable {a b b' : String} {us us' : List Token}

theorem returned_same {ts : List Token} (h : ofSource a = .ok ts) (b b' : String) :
    List.Forall₂ (Token.Returned (a ++ b) (a ++ b')) ts ts :=
  List.forall₂_same.2 fun _ ht =>
    ⟨rfl, (Token.text_append h ht b').trans (Token.text_append h ht b).symm, rfl, fun _ => rfl, rfl⟩

theorem returned_lineBreak (a b b' : String) :
    Token.Returned (a ++ "\n" ++ b) (a ++ "\r" ++ "\n" ++ b') (.lineBreak a.toList)
      (.lineBreak (a ++ "\r").toList) where
  kind := rfl
  text := (Token.text_lineBreak _ _).trans (Token.text_lineBreak _ _).symm
  line := by simp [Token.line, Token.lineBreak, Position.behind, List.count_append]
  column h := absurd rfl h
  stop := by simp [Token.lineBreak, Position.below, Position.seen, List.count_append]

theorem returned_below (hus : ofSource b = .ok us) (hus' : ofSource b' = .ok us')
    (h : List.Forall₂ (Token.Returned b b') us us') :
    List.Forall₂ (Token.Returned (a ++ "\n" ++ b) (a ++ "\r" ++ "\n" ++ b'))
      (us.map (Token.below a.toList)) (us'.map (Token.below (a ++ "\r").toList)) := by
  rw [List.forall₂_map_left_iff, List.forall₂_map_right_iff]
  obtain ⟨hlength, hzip⟩ := List.forall₂_iff_zip.1 h
  refine List.forall₂_iff_zip.2 ⟨hlength, fun {t t'} hmem => ?_⟩
  obtain ⟨ht, ht'⟩ := List.of_mem_zip hmem
  obtain ⟨hkind, htext, hline, hcolumn, hstop⟩ := hzip hmem
  refine ⟨hkind, ?_, ?_, hcolumn, Position.seen_below_return hstop a⟩
  · rw [Token.text_below hus ht, Token.text_below hus' ht', htext]
  · rw [Token.line] at hline
    simp [Token.line, Token.below, Token.map, Span.map, Position.below, hline, List.count_append]

/-- The lines below a line are scanned as if they stood alone, if the line can be scanned. -/
theorem ofSource_below (a b : String) : ofSource (a ++ "\n" ++ b) = (ofSource a).bind fun ts =>
    (((ofSource b).map (List.map (Token.below a.toList))).mapError (Diagnostic.below a.toList)).map
      (ts ++ .lineBreak a.toList :: ·) := by
  have hsource : (a ++ "\n" ++ b).toList = a.toList ++ '\n' :: b.toList := by
    simp [String.toList_append]
  rw [ofSource, hsource, scan_append_newline, Position.origin_after, Position.step_behind, scan_below]
  rfl

/-- With carriage returns before its line breaks a source has the same tokens, at the same lines and, but for
the line breaks themselves, at the same columns; or the same is wrong with it at the same line and column. -/
theorem ofSource_withReturns (source : String) :
    (∃ ts ts', ofSource source = .ok ts ∧ ofSource (Text.withReturns source) = .ok ts' ∧
      List.Forall₂ (Token.Returned source (Text.withReturns source)) ts ts') ∨
    ∃ d d', ofSource source = .error d ∧ ofSource (Text.withReturns source) = .error d' ∧
      d'.cause = d.cause ∧ d'.position.seen = d.position.seen := by
  induction source using Text.source_induction with
  | line a ha =>
    rw [Text.withReturns_line ha]
    cases hts : ofSource a with
    | error d => exact .inr ⟨d, d, rfl, rfl, rfl, rfl⟩
    | ok ts =>
      have hsame := returned_same hts "" ""
      rw [String.append_empty] at hsame
      exact .inl ⟨ts, ts, rfl, rfl, hsame⟩
  | below a b ha ih =>
    rw [Text.withReturns_lines ha, ofSource_below, ofSource_below, ofSource_append_return]
    cases hts : ofSource a with
    | error d => exact .inr ⟨d, d, rfl, rfl, rfl, rfl⟩
    | ok ts =>
      have hline := returned_same hts ("\n" ++ b) ("\r" ++ "\n" ++ Text.withReturns b)
      simp only [← String.append_assoc] at hline
      rcases ih with ⟨us, us', hus, hus', hreturned⟩ | ⟨d, d', hd, hd', hcause, hseen⟩
      · rw [hus, hus']
        exact .inl ⟨_, _, rfl, rfl, List.rel_append hline
          (.cons (returned_lineBreak a b _) (returned_below hus hus' hreturned))⟩
      · rw [hd, hd']
        exact .inr ⟨_, _, rfl, rfl, hcause, Position.seen_below_return hseen a⟩

end Tokens

end Offside
