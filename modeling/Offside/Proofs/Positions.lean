import Mathlib.Data.List.Induction
import Offside.Proofs.Lexing
import Offside.Scanner

set_option autoImplicit false

/-!
# Exact positions

A scanner keeps its place as three counts. However it is moved, they are those of the text it has passed:
its bytes, its line breaks, and the characters behind the last one.
-/
namespace Offside

namespace Position

/-- The place behind a text, counted from the text as a whole. -/
def behind (text : List Char) : Position where
  offset := Text.byteLength text
  line := 1 + text.count '\n'
  column := (text.reverse.takeWhile fun c => c ≠ '\n').length

theorem behind_concat (text : List Char) (c : Char) : behind (text ++ [c]) = (behind text).step c := by
  have hoffset : Text.byteLength (text ++ [c]) = Text.byteLength text + c.utf8Size := by
    rw [Text.byteLength_append]
    rfl
  unfold step
  split
  next hc =>
    subst hc
    simp [behind, hoffset, List.count_append, Nat.add_assoc]
  next hc => simp [behind, hoffset, hc, List.count_append]

/-- What is counted step by step is what is counted as a whole. -/
theorem origin_after (text : List Char) : origin.after text = behind text := by
  induction text using List.reverseRecOn with
  | nil => rfl
  | append_singleton text c ih =>
    rw [after_append, ih, behind_concat]
    rfl

/-- The position is the place that its offset names in the source. -/
def Exact (source : String) (p : Position) : Prop :=
  p.offset ≤ Text.byteLength source.toList ∧
    ∃ text, Text.takeBytes? p.offset source.toList = some text ∧ p = behind text

theorem exact_behind {source : String} {before rest : List Char} (h : source.toList = before ++ rest) :
    (behind before).Exact source := by
  refine ⟨?_, before, ?_, rfl⟩
  · rw [h, Text.byteLength_append]
    exact Nat.le_add_right _ _
  · rw [h]
    exact Text.takeBytes?_append before rest

end Position

namespace Text

theorem eq_append_of_takeBytes? {n : Nat} {cs passed rest : List Char}
    (htake : takeBytes? n cs = some passed) (hdrop : dropBytes? n cs = some rest) :
    cs = passed ++ rest ∧ byteLength passed = n := by
  fun_induction takeBytes? n cs generalizing passed rest with
  | case1 cs =>
    rw [dropBytes?] at hdrop
    cases htake
    cases hdrop
    exact ⟨rfl, rfl⟩
  | case2 => cases htake
  | case3 n c cs hle ih =>
    rw [dropBytes?, if_pos hle] at hdrop
    obtain ⟨passed, hpassed, rfl⟩ := Option.map_eq_some_iff.1 htake
    obtain ⟨rfl, hlength⟩ := ih hpassed hdrop
    refine ⟨rfl, ?_⟩
    rw [byteLength]
    omega
  | case4 => cases htake

end Text

namespace Scanner

/-- A step of a scanner. -/
inductive Move
  | advance (n : Nat)
  | emit (kind : Kind) (n : Nat)
  | push (t : Token)

/-- The scanner behind a step; none if the step would stop inside a character. -/
def move? (s : Scanner) : Move → Option Scanner
  | .advance n => s.advance? n
  | .emit kind n => s.emit? kind n
  | .push t => some (s.push t)

/-- The scanner behind a run of steps. -/
def run? (s : Scanner) (moves : List Move) : Option Scanner := moves.foldlM move? s

/-- The scanner has passed a part of the source, and its position is the place behind it. -/
def Tracks (source : String) (s : Scanner) : Prop :=
  ∃ before, source.toList = before ++ s.ahead ∧ s.position = .behind before

variable {source : String} {s u : Scanner}

theorem tracks_start (source : String) : (start source).Tracks source := ⟨[], rfl, rfl⟩

/-- A scanner moves on by the given number of bytes, or by all that are left, if they are those of a number
of characters. -/
theorem advance?_eq_some_iff {n : Nat} :
    s.advance? n = some u ↔ ∃ passed, s.ahead = passed ++ u.ahead ∧
      Text.byteLength passed = min n (Text.byteLength s.ahead) ∧
      u.position = s.position.after passed ∧ u.cut = s.cut := by
  simp only [advance?, Option.bind_eq_bind, Option.bind_eq_some_iff, Option.pure_def,
    Option.some.injEq]
  constructor
  · rintro ⟨passed, htake, rest, hdrop, rfl⟩
    obtain ⟨hahead, hlength⟩ := Text.eq_append_of_takeBytes? htake hdrop
    exact ⟨passed, hahead, hlength, rfl, rfl⟩
  · obtain ⟨position, ahead, cut⟩ := u
    rintro ⟨passed, hahead, hlength, rfl, rfl⟩
    rw [← hlength, hahead]
    exact ⟨passed, Text.takeBytes?_append _ _, ahead, Text.dropBytes?_append _ _, rfl⟩

theorem Tracks.advance? {n : Nat} (hs : s.Tracks source) (h : s.advance? n = some u) :
    u.Tracks source := by
  obtain ⟨before, hsource, hposition⟩ := hs
  obtain ⟨passed, hahead, _, hmoved, _⟩ := advance?_eq_some_iff.1 h
  refine ⟨before ++ passed, ?_, ?_⟩
  · rw [hsource, hahead, List.append_assoc]
  · rw [hmoved, hposition, ← Position.origin_after, ← Position.origin_after, Position.after_append]

theorem Tracks.move? {m : Move} (hs : s.Tracks source) (h : s.move? m = some u) : u.Tracks source := by
  cases m with
  | advance n => exact hs.advance? h
  | emit kind n =>
    obtain ⟨v, hv, rfl⟩ := Option.map_eq_some_iff.1 h
    exact (hs.advance? hv : v.Tracks source)
  | push t =>
    cases h
    exact hs

theorem Tracks.run? {moves : List Move} (hs : s.Tracks source) (h : s.run? moves = some u) :
    u.Tracks source := by
  induction moves generalizing s with
  | nil =>
    cases h
    exact hs
  | cons m moves ih =>
    obtain ⟨v, hv, hrest⟩ := Option.bind_eq_some_iff.1 h
    exact ih (hs.move? hv) hrest

theorem Tracks.exact (hs : s.Tracks source) : s.position.Exact source := by
  obtain ⟨before, hsource, hposition⟩ := hs
  rw [hposition]
  exact Position.exact_behind hsource

theorem advance?_append {text rest : List Char} (h : s.ahead = text ++ rest) :
    s.advance? (Text.byteLength text) =
      some { s with position := s.position.after text, ahead := rest } := by
  refine advance?_eq_some_iff.2 ⟨text, h, ?_, rfl, rfl⟩
  rw [h, Text.byteLength_append, Nat.min_eq_left (Nat.le_add_right _ _)]

end Scanner

namespace Segment

/-- The step of a scanner that cuts off a piece. -/
def move (s : Segment) : Scanner.Move :=
  match s.kind? with
  | some kind => .emit kind (Text.byteLength s.text)
  | none => .advance (Text.byteLength s.text)

theorem run?_map_move {ss : List Segment} {rest : List Char} {s : Scanner}
    (h : s.ahead = join ss ++ rest) :
    s.run? (ss.map move) =
      some ⟨s.position.after (join ss), rest, (tokens s.position ss).reverse ++ s.cut⟩ := by
  induction ss generalizing s with
  | nil =>
    obtain ⟨position, ahead, cut⟩ := s
    cases h
    rfl
  | cons r ss ih =>
    rw [join_cons, List.append_assoc] at h
    have hadvance := Scanner.advance?_append h
    cases hkind : r.kind? with
    | none =>
      have hmove : s.move? r.move = some ⟨s.position.after r.text, join ss ++ rest, s.cut⟩ := by
        rw [move, hkind]
        exact hadvance
      rw [List.map_cons, Scanner.run?, List.foldlM_cons, hmove, join_cons, Position.after_append]
      simp only [tokens, hkind]
      exact ih rfl
    | some kind =>
      have hmove : s.move? r.move = some ⟨s.position.after r.text, join ss ++ rest,
          ⟨kind, ⟨s.position, s.position.after r.text⟩⟩ :: s.cut⟩ := by
        rw [move, hkind]
        change (s.advance? _).map _ = _
        rw [hadvance]
        rfl
      rw [List.map_cons, Scanner.run?, List.foldlM_cons, hmove, join_cons, Position.after_append]
      simp only [tokens, hkind, List.reverse_cons, List.append_assoc, List.singleton_append]
      exact ih rfl

end Segment

/-- The tokens of a source are those that a scanner has cut at the end of a run, and a diagnostic is at its
place. -/
theorem Tokens.ofSource_run (source : String) :
    ∃ moves s, (Scanner.start source).run? moves = some s ∧
      match ofSource source with
      | .ok ts => s.ahead = [] ∧ ts = s.cut.reverse
      | .error d => d.position = s.position ∧ d.cause = .unrecognised (String.singleton s.peek) := by
  obtain ⟨ss, rest, hsource, hmunched, hscan⟩ := exists_segments .origin source.toList
  refine ⟨_, _, Segment.run?_map_move (s := Scanner.start source) hsource, ?_⟩
  rcases hscan with ⟨rfl, hok⟩ | ⟨c, rest, rfl, hnone, herror⟩
  · rw [ofSource, hok]
    exact ⟨rfl, by simp [Scanner.start]⟩
  · rw [ofSource, herror]
    exact ⟨rfl, rfl⟩

/-- Positions are exact: those of a scanner after every run of steps, those between which a token of a source
stands, and the one of a diagnostic, which is before the character it names. -/
theorem positions_exact (source : String) :
    (∀ moves s, (Scanner.start source).run? moves = some s → s.position.Exact source) ∧
    match Tokens.ofSource source with
    | .ok ts => ∀ t ∈ ts, ∃ before text rest, source.toList = before ++ (text ++ rest) ∧
        t.text source = String.ofList text ∧ t.span = ⟨.behind before, .behind (before ++ text)⟩
    | .error d => ∃ before c rest, source.toList = before ++ c :: rest ∧
        d = ⟨.unrecognised (String.singleton c), .behind before⟩ := by
  refine ⟨fun moves s h => ((Scanner.tracks_start source).run? h).exact, ?_⟩
  obtain ⟨ss, rest, hsource, hmunched, hscan⟩ := Tokens.exists_segments .origin source.toList
  rcases hscan with ⟨rfl, hok⟩ | ⟨c, rest, rfl, hnone, herror⟩
  · rw [Tokens.ofSource, hok]
    intro t ht
    obtain ⟨as, s, bs, rfl, _, hspan⟩ := Segment.mem_tokens ht
    have hcut : source.toList = Segment.join as ++ (s.text ++ Segment.join bs) := by
      rw [hsource, List.append_nil, Segment.join_append, Segment.join_cons]
    refine ⟨_, _, _, hcut, Token.text_of_span hcut hspan, ?_⟩
    rw [hspan, Position.origin_after, Position.origin_after]
  · rw [Tokens.ofSource, herror, Position.origin_after]
    exact ⟨_, c, rest, hsource, rfl⟩

/-- The hypothesis holds of a run past a character of two bytes and a line break. -/
theorem positions_exact_of_wide_character :
    ∃ s, (Scanner.start "é\nx").run? [.advance 3, .emit .identifier 1] = some s ∧
      s.position = ⟨4, 2, 1⟩ ∧ s.position.Exact "é\nx" := by
  have hrun : (Scanner.start "é\nx").run? [.advance 3, .emit .identifier 1] =
      some ⟨⟨4, 2, 1⟩, [], [⟨.identifier, ⟨⟨3, 2, 0⟩, ⟨4, 2, 1⟩⟩⟩]⟩ := by rfl
  exact ⟨_, hrun, rfl, (positions_exact "é\nx").1 _ _ hrun⟩

end Offside
