import Offside.Proofs.Layout.Written

set_option autoImplicit false

/-!
# Writing the tokens of a source down again

The tokens of a source are written down with one space where two stand beside each other on a line. What is
written is cut into tokens of the same kinds with the same texts, whatever blanks and comments stood
between them, so writing it down once more changes nothing.
-/
namespace Offside

namespace Tokens

/-- The texts one behind the other, with a space between two of which neither is a line break. -/
def spaced : List (Kind × String) → List Char
  | [] => []
  | [w] => w.2.toList
  | w :: v :: ws =>
    w.2.toList ++ (if w.1 = .newline ∨ v.1 = .newline then [] else [' ']) ++ spaced (v :: ws)

/-- The texts of the tokens of a source with nothing but such spaces between them. -/
def respaced (source : String) (ts : List Token) : String :=
  String.ofList (spaced (ts.map (Token.word source)))

end Tokens

namespace Piece

/-- A word as a piece of a text. A line break leaves the next line without indentation. -/
def ofWord (w : Kind × String) : Piece := if w.1 = .newline then .line 0 else .word w.1 w.2.toList

/-- The word is cut as it is written. -/
def Spellable (w : Kind × String) : Prop :=
  if w.1 = .newline then w.2 = "\n" else Lexical w.1 w.2.toList

variable {w : Kind × String} {ws : List (Kind × String)}

theorem isLexical_ofWord (h : Spellable w) : (ofWord w).IsLexical := by
  unfold Spellable at h
  unfold ofWord
  split at h
  next hline => rw [if_pos hline]; trivial
  next hline => rwa [if_neg hline]

theorem text_cons_ofWord (h : Spellable w) (ps : List Piece) :
    text true (ofWord w :: ps) = w.2.toList ++ text (w.1 = .newline) ps := by
  unfold Spellable at h
  unfold ofWord
  split at h
  next hline => simp [hline, h, text]
  next hline => simp [hline, text]

theorem text_false_ofWord (w : Kind × String) (ps : List Piece) :
    text false (ofWord w :: ps) =
      (if w.1 = .newline then [] else [' ']) ++ text true (ofWord w :: ps) := by
  unfold ofWord
  split <;> rfl

theorem text_map_ofWord (h : ∀ w ∈ ws, Spellable w) :
    text true (ws.map ofWord) = Tokens.spaced ws := by
  fun_induction Tokens.spaced ws with
  | case1 => rfl
  | case2 w =>
    rw [List.map_singleton, text_cons_ofWord (h w List.mem_cons_self)]
    exact List.append_nil _
  | case3 w v ws ih =>
    rw [List.forall_mem_cons] at h
    rw [List.map_cons, text_cons_ofWord h.1, ← ih h.2, List.append_assoc, List.append_cancel_left_eq]
    by_cases hline : w.1 = .newline
    · simp [hline]
    · simp only [hline, decide_false, false_or]
      exact text_false_ofWord v _

end Piece

/-- The tokens that words are written as are these words. -/
theorem Written.map_word {source : String} {ws : List (Kind × String)} {ts : List Token}
    (h : Written source (ws.map Piece.ofWord) ts) (hws : ∀ w ∈ ws, Piece.Spellable w)
    (hts : ∀ t ∈ ts, Piece.Spellable (t.word source)) : ts.map (Token.word source) = ws := by
  induction ws generalizing ts with
  | nil =>
    cases h
    rfl
  | cons w ws ih =>
    rw [List.forall_mem_cons] at hws
    obtain ⟨kind, text⟩ := w
    rw [List.map_cons] at h
    by_cases hline : kind = .newline
    · subst hline
      cases h with
      | line hkind _ hrest =>
        rw [List.forall_mem_cons] at hts
        have htext := hts.1
        have htext' := hws.1
        simp only [Piece.Spellable, Token.word, hkind, if_true] at htext htext'
        rw [List.map_cons, ih hrest hws.2 hts.2, Token.word, hkind, htext, htext']
    · simp only [Piece.ofWord, hline, if_false] at h
      cases h with
      | word _ hkind htext hrest =>
        rw [List.forall_mem_cons] at hts
        rw [List.map_cons, ih hrest hws.2 hts.2, Token.word, hkind, htext, String.ofList_toList]

namespace Scan

variable {source : String} {ts : List Token} {t : Token}

/-- A token that was cut once is cut as it is written. -/
theorem spellable (h : Scan .origin source.toList ts) (ht : t ∈ ts) :
    Piece.Spellable (t.word source) := by
  obtain ⟨before, text, behind, l, hsource, hspan, hclass, hextent, hkind⟩ := h.mem ht
  have htext := Token.text_of_span hsource hspan
  unfold Piece.Spellable Token.word
  split
  next hline =>
    have hkind : l.kind? text = some .newline := hline ▸ hkind
    obtain rfl : l = .newline := Lexeme.eq_of_kind? (Lexeme.mem_classes_of_next? hclass) hkind
    obtain rfl : text = ['\n'] := Lexeme.holds_of_next? hclass hextent
    exact htext
  next hline =>
    obtain ⟨halone, hextent⟩ : Lexeme.next? (text ++ []) = some l ∧ _ :=
      Lexeme.next?_of_append hclass hextent
    rw [List.append_nil] at halone hextent
    rw [htext, String.toList_ofList]
    exact .of_next? halone hextent hkind hline

end Scan

namespace Tokens

/-- The tokens of a source, written down again, are cut into tokens of the same kinds with the same texts,
and written down as before. -/
theorem ofSource_respaced {source : String} {ts : List Token} (h : ofSource source = .ok ts) :
    ∃ us, ofSource (respaced source ts) = .ok us ∧
      us.map (Token.word (respaced source ts)) = ts.map (Token.word source) ∧
      respaced (respaced source ts) us = respaced source ts := by
  have hscan : Scan .origin source.toList ts := scan_eq_ok_iff.1 h
  have hwords : ∀ w ∈ ts.map (Token.word source), Piece.Spellable w :=
    List.forall_mem_map.2 fun t ht => hscan.spellable ht
  have hpieces : ∀ p ∈ (ts.map (Token.word source)).map Piece.ofWord, p.IsLexical :=
    List.forall_mem_map.2 fun w hw => Piece.isLexical_ofWord (hwords w hw)
  have htext : (respaced source ts).toList =
      Piece.text true ((ts.map (Token.word source)).map Piece.ofWord) := by
    rw [respaced, String.toList_ofList, Piece.text_map_ofWord hwords]
  obtain ⟨us, hus, hwritten, _⟩ := scan_text hpieces true [] htext
  have hus' : Scan .origin (respaced source ts).toList us := htext ▸ hus
  have hsame := hwritten.map_word hwords fun u hu => hus'.spellable hu
  exact ⟨us, scan_eq_ok_iff.2 hus', hsame, by rw [respaced, hsame, ← respaced]⟩

/-- Blanks at both ends of a line, a comment before a line break, a string that looks like one, and
operators that would merge. -/
theorem ofSource_respaced_of_gaps : ∃ ts us,
    ofSource "  x=\t\"é // \"= =1.5// c\n\n a - >b " = .ok ts ∧
    respaced "  x=\t\"é // \"= =1.5// c\n\n a - >b " ts = "x = \"é // \" = = 1.5\n\na - > b" ∧
    ofSource "x = \"é // \" = = 1.5\n\na - > b" = .ok us ∧
    us.map (Token.word "x = \"é // \" = = 1.5\n\na - > b") =
      ts.map (Token.word "  x=\t\"é // \"= =1.5// c\n\n a - >b ") ∧
    respaced "x = \"é // \" = = 1.5\n\na - > b" us = "x = \"é // \" = = 1.5\n\na - > b" := by
  obtain ⟨ts, hts, htext⟩ : ∃ ts, ofSource "  x=\t\"é // \"= =1.5// c\n\n a - >b " = .ok ts ∧
      respaced "  x=\t\"é // \"= =1.5// c\n\n a - >b " ts = "x = \"é // \" = = 1.5\n\na - > b" :=
    exists_of_ofSource (by decide +kernel)
  obtain ⟨us, hus, hwords, hagain⟩ := ofSource_respaced hts
  rw [htext] at hus hwords hagain
  exact ⟨ts, us, hts, htext, hus, hwords, hagain⟩

end Tokens

end Offside
