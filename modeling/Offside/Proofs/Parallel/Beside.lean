import Mathlib.Data.List.Forall2
import Offside.Proofs.Mapping
import Offside.Proofs.Reading.Advancing

set_option autoImplicit false

/-!
# Lists of tokens that read alike

Two lists of tokens correspond one by one. Kinds and texts are the same, and so are the spans of the tokens
that trees take theirs from, in all that is kept of a position; line breaks may lie otherwise. A reading goes
through both lists side by side.
-/
namespace Offside

open Reading

/-- Two sources are read by one grammar, from tokens that correspond. -/
structure Parallel where
  grammar : Grammar PrefixRule InfixRule
  settings : Settings
  source : String
  source' : String
  /-- What is kept of the positions in a tree. -/
  place : Position → Position
  /-- What is kept of the position of a diagnostic. -/
  mark : Position → Position
  Alike : Token → Token → Prop
  /-- The kinds of the tokens that trees take their spans from. -/
  Whole : Kind → Prop
  /-- The states from which the readings are compared. -/
  Past : State → Prop
  kind_eq {k k' : Token} (h : Alike k k') : k'.kind = k.kind
  text_eq {k k' : Token} (h : Alike k k') : k'.text source' = k.text source
  start_eq {k k' : Token} (h : Alike k k') : mark k'.span.start = mark k.span.start
  stop_eq {k k' : Token} (h : Alike k k') : mark k'.span.stop = mark k.span.stop
  span_eq {k k' : Token} (h : Alike k k') (hwhole : Whole k.kind) :
    k'.span.map place = k.span.map place
  whole_of_ne_newline {kind : Kind} (h : kind ≠ .newline) : Whole kind
  whole_of_prefixRule {kind : Kind} {rule : PrefixRule} (h : grammar.prefixRule? kind = some rule) :
    Whole kind
  whole_of_infixRule {kind : Kind} {rule : InfixRule} (h : grammar.infixRule? kind = some rule) :
    Whole kind
  column_eq {p p' : Position} (h : place p' = place p) : p'.column = p.column
  mark_eq {p p' : Position} (h : place p' = place p) : mark p' = mark p
  onward {s t : State} (h : Past s) (ht : s.Onward t) : Past t

namespace Parallel

variable {c : Parallel}

def setup (c : Parallel) : Setup PrefixRule InfixRule := ⟨c.grammar, c.source, c.settings⟩

def setup' (c : Parallel) : Setup PrefixRule InfixRule := ⟨c.grammar, c.source', c.settings⟩

/-- The states stand at corresponding tokens, in the same blocks and brackets. -/
structure Beside (c : Parallel) (s s' : State) : Prop where
  passed : List.Forall₂ c.Alike s.passed s'.passed
  ahead : List.Forall₂ c.Alike s.ahead s'.ahead
  indentation : s'.indentation = s.indentation
  groups : s'.groups = s.groups
  depth : s'.depth = s.depth

theorem forall₂_dropWhile {ts ts' : List Token} (h : List.Forall₂ c.Alike ts ts') :
    List.Forall₂ c.Alike (ts.dropWhile (·.kind = .newline)) (ts'.dropWhile (·.kind = .newline)) := by
  induction h with
  | nil => exact .nil
  | @cons k k' ts ts' hk hts ih =>
    simp only [List.dropWhile_cons, c.kind_eq hk]
    split
    · exact ih
    · exact .cons hk hts

theorem forall₂_takeWhile {ts ts' : List Token} (h : List.Forall₂ c.Alike ts ts') :
    List.Forall₂ c.Alike (ts.takeWhile (·.kind = .newline)) (ts'.takeWhile (·.kind = .newline)) := by
  induction h with
  | nil => exact .nil
  | @cons k k' ts ts' hk hts ih =>
    simp only [List.takeWhile_cons, c.kind_eq hk]
    split
    · exact .cons hk ih
    · exact .nil

/-- There are corresponding tokens on both sides, or none on either. -/
def Met (c : Parallel) (k? k'? : Option Token) : Prop :=
  (k? = none ∧ k'? = none) ∨ ∃ k k', k? = some k ∧ k'? = some k' ∧ c.Alike k k'

theorem Met.map_kind {k? k'? : Option Token} (h : c.Met k? k'?) :
    k'?.map (·.kind) = k?.map (·.kind) := by
  obtain ⟨rfl, rfl⟩ | ⟨k, k', rfl, rfl, halike⟩ := h
  · rfl
  · exact congrArg some (c.kind_eq halike)

theorem met_find? {ts ts' : List Token} (h : List.Forall₂ c.Alike ts ts') :
    c.Met (ts.find? (·.kind ≠ .newline)) (ts'.find? (·.kind ≠ .newline)) := by
  induction h with
  | nil => exact .inl ⟨rfl, rfl⟩
  | @cons k k' ts ts' hk hts ih =>
    simp only [List.find?_cons, c.kind_eq hk]
    split
    · exact .inr ⟨k, k', rfl, rfl, hk⟩
    · exact ih

theorem met_head? {ts ts' : List Token} (h : List.Forall₂ c.Alike ts ts') : c.Met ts.head? ts'.head? := by
  cases h with
  | nil => exact .inl ⟨rfl, rfl⟩
  | cons hk _ => exact .inr ⟨_, _, rfl, rfl, hk⟩

namespace Beside

variable {s s' : State} {kind : Kind}

theorem current? (h : c.Beside s s') : c.Met s.current? s'.current? := met_head? h.ahead

theorem isNext (h : c.Beside s s') (kind : Kind) : s'.isNext kind = s.isNext kind := by
  have hkind := congrArg (Option.any (· = kind)) h.current?.map_kind
  rwa [Option.any_map, Option.any_map] at hkind

theorem length_ahead (h : c.Beside s s') : s'.ahead.length = s.ahead.length := h.ahead.length_eq.symm

theorem done (h : c.Beside s s') : s'.done = s.done := by
  rw [Bool.eq_iff_iff, State.done, State.done, List.isEmpty_iff_length_eq_zero,
    List.isEmpty_iff_length_eq_zero, h.length_ahead]

theorem inGroup (h : c.Beside s s') : s'.inGroup = s.inGroup := by
  simp only [State.inGroup, h.groups]

theorem afterLineBreak (h : c.Beside s s') : s'.afterLineBreak = s.afterLineBreak := by
  have hkind := congrArg (Option.any (· = .newline)) (met_head? h.passed).map_kind
  rwa [Option.any_map, Option.any_map] at hkind

theorem power (h : c.Beside s s') : c.setup'.power s' = c.setup.power s := by
  change s'.power c.grammar.power c.settings.lineBreaksEndExpressions =
    s.power c.grammar.power c.settings.lineBreaksEndExpressions
  simp only [State.power, h.inGroup, h.afterLineBreak]
  split
  · obtain ⟨hk, hk'⟩ | ⟨k, k', hk, hk', halike⟩ := met_find? h.ahead
    · rw [hk, hk']
    · simp only [hk, hk', c.kind_eq halike]
  split
  · rfl
  · obtain ⟨hk, hk'⟩ | ⟨k, k', hk, hk', halike⟩ := h.current?
    · rw [hk, hk']
    · simp only [hk, hk', c.kind_eq halike]

theorem mark_endPosition (h : c.Beside s s') : c.mark s'.endPosition = c.mark s.endPosition := by
  unfold State.endPosition
  rw [← List.head?_reverse, ← List.head?_reverse]
  obtain ⟨hlast, hlast'⟩ | ⟨k, k', hk, hk', halike⟩ := met_head? (List.rel_reverse h.ahead)
  · rw [hlast, hlast']
    obtain ⟨hk, hk'⟩ | ⟨k, k', hk, hk', halike⟩ := met_head? h.passed
    · rw [hk, hk']
    · rw [hk, hk']
      exact c.stop_eq halike
  · rw [hk, hk']
    exact c.stop_eq halike

theorem mark_currentPosition (h : c.Beside s s') :
    c.mark s'.currentPosition = c.mark s.currentPosition := by
  unfold State.currentPosition
  obtain ⟨hk, hk'⟩ | ⟨k, k', hk, hk', halike⟩ := h.current?
  · rw [hk, hk']
    exact h.mark_endPosition
  · rw [hk, hk']
    exact c.start_eq halike

theorem withDepth (h : c.Beside s s') (f : Nat → Nat) :
    c.Beside { s with depth := f s.depth } { s' with depth := f s'.depth } :=
  ⟨h.passed, h.ahead, h.indentation, h.groups, congrArg f h.depth⟩

theorem advance (h : c.Beside s s') : c.Beside s.advance s'.advance := by
  have hahead := h.ahead
  cases hs : s.ahead with
  | nil =>
    rw [hs, List.forall₂_nil_left_iff] at hahead
    simpa only [State.advance, hs, hahead] using h
  | cons k ks =>
    rw [hs, List.forall₂_cons_left_iff] at hahead
    obtain ⟨k', ks', halike, hks, hs'⟩ := hahead
    simp only [State.advance, hs, hs']
    exact ⟨.cons halike h.passed, hks, h.indentation, h.groups, h.depth⟩

theorem skipLineBreaks (h : c.Beside s s') : c.Beside s.skipLineBreaks s'.skipLineBreaks :=
  ⟨List.rel_append (List.rel_reverse (forall₂_takeWhile h.ahead)) h.passed, forall₂_dropWhile h.ahead,
    h.indentation, h.groups, h.depth⟩

theorem skipGroupedLineBreaks (h : c.Beside s s') :
    c.Beside s.skipGroupedLineBreaks s'.skipGroupedLineBreaks := by
  simp only [State.skipGroupedLineBreaks, h.inGroup]
  split
  · exact h.skipLineBreaks
  · exact h

theorem openGroup (h : c.Beside s s') : c.Beside s.openGroup s'.openGroup := by
  simp only [State.openGroup, h.groups]
  split
  · exact h
  · exact ⟨h.passed, h.ahead, h.indentation, rfl, h.depth⟩

theorem closeGroup? (h : c.Beside s s') : (s.closeGroup? = none ∧ s'.closeGroup? = none) ∨
    ∃ t t', s.closeGroup? = some t ∧ s'.closeGroup? = some t' ∧ c.Beside t t' := by
  simp only [State.closeGroup?, h.groups]
  split
  · exact .inr ⟨_, _, rfl, rfl, h.passed, h.ahead, h.indentation, rfl, h.depth⟩
  · exact .inl ⟨rfl, rfl⟩

theorem openBlock (h : c.Beside s s') : c.Beside s.openBlock s'.openBlock :=
  ⟨h.passed, h.ahead, congrArg Indentation.increase h.indentation, congrArg (0 :: ·) h.groups, h.depth⟩

theorem closeBlock? (h : c.Beside s s') : (s.closeBlock? = none ∧ s'.closeBlock? = none) ∨
    ∃ t t', s.closeBlock? = some t ∧ s'.closeBlock? = some t' ∧ c.Beside t t' := by
  simp only [State.closeBlock?, h.indentation]
  cases s.indentation.decrease? with
  | none => exact .inl ⟨rfl, rfl⟩
  | some i => exact .inr ⟨_, _, rfl, rfl, h.passed, h.ahead, rfl, congrArg List.tail h.groups, h.depth⟩

end Beside

end Parallel

end Offside
