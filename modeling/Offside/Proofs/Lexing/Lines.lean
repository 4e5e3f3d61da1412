import Offside.Proofs.Lexing.Seams
import Offside.Proofs.Positions

set_option autoImplicit false

/-!
# Scanning line by line

No text of a class but a line break reaches over a line break. So the lines of a source are scanned on
their own, and what is found in a later line differs only in how its places are counted.
-/
namespace Offside

namespace Position

/-- The place that is `p` in a text that stands on the lines below another one. -/
def below (above : List Char) (p : Position) : Position where
  offset := Text.byteLength above + 1 + p.offset
  line := above.count '\n' + 1 + p.line
  column := p.column

theorem below_step (above : List Char) (p : Position) (c : Char) :
    (p.step c).below above = (p.below above).step c := by
  unfold step
  split <;> simp [below, Nat.add_assoc]

theorem below_after (above : List Char) (p : Position) (cs : List Char) :
    (p.after cs).below above = (p.below above).after cs := by
  induction cs generalizing p with
  | nil => rfl
  | cons c cs ih => exact (ih (p.step c)).trans (by rw [below_step]; rfl)

/-- The place behind a line break is the origin of what stands below. -/
theorem step_behind (above : List Char) : (behind above).step '\n' = origin.below above := by
  simp only [step, if_true, behind, below, origin, mk.injEq, and_true]
  exact ⟨rfl, by omega⟩

end Position

def Token.below (above : List Char) (t : Token) : Token := t.map (.below above)

def Diagnostic.below (above : List Char) (d : Diagnostic) : Diagnostic := d.map (.below above)

/-- The line break that stands behind a text. -/
def Token.lineBreak (above : List Char) : Token := ⟨.newline, ⟨.behind above, Position.origin.below above⟩⟩

namespace Text

/-- A text is one line, or it is a line with a text below it. -/
theorem lines_induction {motive : List Char → Prop} (line : ∀ cs, '\n' ∉ cs → motive cs)
    (below : ∀ above cs, '\n' ∉ above → motive cs → motive (above ++ '\n' :: cs)) (cs : List Char) :
    motive cs := by
  induction hn : cs.length using Nat.strongRecOn generalizing cs with
  | ind n ih =>
    by_cases hmem : '\n' ∈ cs
    · obtain ⟨above, behind, rfl, habove⟩ := List.eq_append_cons_of_mem hmem
      refine below above behind habove (ih behind.length ?_ behind rfl)
      rw [← hn, List.length_append, List.length_cons]
      omega
    · exact line cs hmem

theorem source_induction {motive : String → Prop} (line : ∀ a, '\n' ∉ a.toList → motive a)
    (below : ∀ a b, '\n' ∉ a.toList → motive b → motive (a ++ "\n" ++ b)) (source : String) :
    motive source := by
  rw [← String.ofList_toList (s := source)]
  induction source.toList using lines_induction with
  | line cs h => exact line _ (by rwa [String.toList_ofList])
  | below above cs h ih =>
    have hsplit : String.ofList (above ++ '\n' :: cs) = String.ofList above ++ "\n" ++ String.ofList cs := by
      rw [← String.toList_inj]
      simp
    rw [hsplit]
    exact below _ _ (by rwa [String.toList_ofList]) ih

end Text

namespace Tokens

/-- The tokens of a text below another one are those that it has on its own, and so is what cannot be
scanned. -/
theorem scan_below (above : List Char) (p : Position) (cs : List Char) :
    scan (p.below above) cs =
      ((scan p cs).map (List.map (Token.below above))).mapError (Diagnostic.below above) :=
  scan_map fun as _ _ => Position.below_after above p as

/-- What stands up to a line break is scanned as if the text ended there. -/
theorem scan_append_newline (p : Position) (cs behind : List Char) :
    scan p (cs ++ '\n' :: behind) = (scan p cs).bind fun ts =>
      (scan ((p.after cs).step '\n') behind).map
        (ts ++ ⟨.newline, ⟨p.after cs, (p.after cs).step '\n'⟩⟩ :: ·) := by
  induction cs using Lexeme.texts_induction generalizing p with
  | nil =>
    have hclass : Lexeme.next? (['\n'] ++ behind) = some .newline := rfl
    have hstart : scan p [] = .ok [] := by rw [scan]
    rw [hstart]
    exact scan_append hclass rfl
  | stuck c cs hclass =>
    have hsame := (Lexeme.next?_append_newline (List.cons_ne_nil c cs) behind).trans hclass
    rw [List.cons_append] at hsame
    rw [List.cons_append, scan, scan, hsame, hclass]
    rfl
  | text l text rest hclass hextent ih =>
    have hne := Lexeme.ne_nil_of_next? hclass
    have hsame := (Lexeme.next?_append_newline hne behind).trans hclass
    have hextent' :=
      (Lexeme.extent_append_newline (Lexeme.mem_classes_of_next? hclass) hne behind).trans hextent
    rw [List.append_assoc] at hsame hextent'
    rw [List.append_assoc, scan_append hsame hextent', scan_append hclass hextent, Position.after_append,
      ih (p.after text)]
    cases l.kind? text with
    | none => rfl
    | some kind =>
      cases scan (p.after text) rest with
      | error d => rfl
      | ok ts => cases scan (((p.after text).after rest).step '\n') behind <;> rfl

/-- Tokens are cut line by line. What comes up to a line break is scanned on its own, and if that fails all
of it fails alike. Else the line break is a token, behind which come the tokens of what stands below,
with their places moved by the bytes and lines above, or the diagnostic, moved in the same way. -/
theorem ofSource_lines (a b : String) :
    ofSource (a ++ "\n" ++ b) =
      match ofSource a, ofSource b with
      | .error d, _ => .error d
      | .ok ts, .ok us => .ok (ts ++ .lineBreak a.toList :: us.map (Token.below a.toList))
      | .ok _, .error d => .error (d.below a.toList) := by
  have hsource : (a ++ "\n" ++ b).toList = a.toList ++ '\n' :: b.toList := by
    simp [String.toList_append]
  rw [ofSource, hsource, scan_append_newline, Position.origin_after, Position.step_behind, scan_below,
    ← ofSource, ← ofSource]
  cases ofSource a with
  | error d => rfl
  | ok ts => cases ofSource b <;> rfl

end Tokens

namespace Token

variable {a b : String} {ts : List Token} {t : Token}

/-- A token has its text whatever stands behind the source. -/
theorem text_append (h : Tokens.ofSource a = .ok ts) (ht : t ∈ ts) (b : String) :
    t.text (a ++ b) = t.text a := by
  obtain ⟨before, text, behind, _, hsource, hspan, _⟩ := (Tokens.scan_eq_ok_iff.1 h).mem ht
  have hlonger : (a ++ b).toList = before ++ (text ++ (behind ++ b.toList)) := by
    rw [String.toList_append, hsource]
    simp
  rw [text_of_span hsource hspan, text_of_span hlonger hspan]

theorem text_lineBreak (a b : String) : (lineBreak a.toList).text (a ++ "\n" ++ b) = "\n" := by
  have hsource : (a ++ "\n" ++ b).toList = a.toList ++ (['\n'] ++ b.toList) := by
    simp [String.toList_append]
  refine text_of_span hsource ?_
  rw [Position.origin_after, Position.origin_after, Position.behind_concat, Position.step_behind]
  rfl

/-- A token has its text where its source stands below another one. -/
theorem text_below (h : Tokens.ofSource b = .ok ts) (ht : t ∈ ts) (a : String) :
    (t.below a.toList).text (a ++ "\n" ++ b) = t.text b := by
  obtain ⟨before, text, behind, _, hsource, hspan, _⟩ := (Tokens.scan_eq_ok_iff.1 h).mem ht
  have hthere : (a ++ "\n" ++ b).toList = (a.toList ++ '\n' :: before) ++ (text ++ behind) := by
    simp [String.toList_append, hsource]
  have hafter (cs : List Char) : (Position.origin.after cs).below a.toList =
      Position.origin.after (a.toList ++ '\n' :: cs) := by
    rw [Position.below_after, ← Position.step_behind, ← Position.origin_after, Position.after_append]
    rfl
  rw [text_of_span hsource hspan, text_of_span hthere]
  rw [below, map, hspan, Span.map, hafter, hafter, List.append_assoc, List.cons_append]

end Token

end Offside
