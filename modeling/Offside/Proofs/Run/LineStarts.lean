import Offside.Proofs.Lexing.Order
import Offside.Proofs.Reading.Standing
import Offside.Proofs.Run.Exact

set_option autoImplicit false

/-!
# Where lines start

A state stands at the start of a line if the last token it has passed is a line break, or if it has passed
none. Behind the line breaks that a body, a statement or a block looks past it always does.
-/
namespace Offside

open Reading

namespace Reading.State

/-- The kind of the last token that was passed. -/
def behind? (s : State) : Option Kind := s.passed.head?.map (·.kind)

/-- No token was passed, or the last one was a line break. -/
def atLineStart (s : State) : Bool := s.behind?.all (· = .newline)

variable {s t : State} {token : Token}

theorem afterLineBreak_eq (s : State) : s.afterLineBreak = s.behind?.any (· = .newline) := by
  rw [afterLineBreak, behind?, Option.any_map]

theorem behind?_of_takes (h : s.Takes token t) : t.behind? = some token.kind := by
  rw [behind?, h.passes.passed]
  rfl

theorem not_afterLineBreak_of_behind? {kind : Kind} (hbehind : s.behind? = some kind)
    (hkind : kind ≠ .newline) : ¬s.afterLineBreak := by
  rw [afterLineBreak_eq, hbehind]
  simpa using hkind

theorem not_atLineStart_of_takes (h : s.Takes token t) (hkind : token.kind ≠ .newline) :
    ¬t.atLineStart := by
  rw [atLineStart, behind?_of_takes h]
  simpa using hkind

theorem skipLineBreaks_of_not_isNext (h : ¬s.isNext .newline) : s.skipLineBreaks = s := by
  cases hahead : s.ahead with
  | nil => exact skipLineBreaks_of_ahead_eq_nil hahead
  | cons k ks =>
    have hcurrent : s.current? = some k := by rw [current?, hahead]; rfl
    have hkind : k.kind ≠ .newline := fun hkind => h (isNext_iff.2 ⟨k, hcurrent, hkind⟩)
    exact skipLineBreaks_of_isNext (isNext_iff.2 ⟨k, hcurrent, rfl⟩) hkind

theorem behind?_skipLineBreaks (h : s.isNext .newline) : s.skipLineBreaks.behind? = some .newline := by
  obtain ⟨k, hk, hkind⟩ := isNext_iff.1 h
  obtain ⟨rest, hahead⟩ := current?_eq_some_iff.1 hk
  have hmem : ∀ l ∈ (s.ahead.takeWhile (·.kind = .newline)).reverse, l.kind = .newline := fun l hl =>
    kind_of_mem_takeWhile (List.mem_reverse.1 hl)
  have hne : (s.ahead.takeWhile (·.kind = .newline)).reverse ≠ [] := by
    simp [hahead, hkind]
  obtain ⟨l, ls, hls⟩ := List.exists_cons_of_ne_nil hne
  rw [behind?, (passes_skipLineBreaks s).passed, hls]
  exact congrArg some (hmem l (hls ▸ List.mem_cons_self))

theorem atLineStart_skipLineBreaks (h : s.afterLineBreak ∨ s.isNext .newline) :
    s.skipLineBreaks.atLineStart := by
  by_cases hnext : s.isNext .newline
  · rw [atLineStart, behind?_skipLineBreaks hnext]
    rfl
  · have hafter := h.resolve_right hnext
    rw [skipLineBreaks_of_not_isNext hnext, atLineStart]
    rw [afterLineBreak_eq] at hafter
    cases hbehind : s.behind? <;> simp_all

/-- The block of a body that stands on lines of its own starts with a line. -/
theorem atLineStart_openBlock (h : s.isNext .newline) :
    s.skipLineBreaks.openBlock.skipLineBreaks.atLineStart := by
  rw [skipLineBreaks_openBlock]
  exact atLineStart_skipLineBreaks (.inr h)

theorem atLineStart_skipLineBreaks_of_atLineStart (h : s.atLineStart) : s.skipLineBreaks.atLineStart := by
  by_cases hnext : s.isNext .newline
  · exact atLineStart_skipLineBreaks (.inr hnext)
  · rwa [skipLineBreaks_of_not_isNext hnext]

/-- The next token that is no line break stands behind those that are skipped. -/
theorem find?_eq_current? (s : State) :
    s.ahead.find? (·.kind ≠ .newline) = s.skipLineBreaks.current? := by
  rw [List.find?_eq_head?_dropWhile_not]
  simp [current?, skipLineBreaks]

/-- However a statement ends its line, the line breaks behind it are skipped up to the same place. -/
theorem EndsLine.skipLineBreaks (h : s.EndsLine t) : t.skipLineBreaks = s.skipLineBreaks := by
  unfold EndsLine at h
  split at h
  next => rw [h]
  next =>
    obtain ⟨stop, htakes, hkind⟩ := h
    rw [← htakes.2, advance_skipLineBreaks (hkind ▸ htakes.isNext)]

/-- Behind a statement a line starts, if a token is left. -/
theorem EndsLine.atLineStart (h : s.EndsLine t) (ht : t.skipLineBreaks.current? = some token) :
    t.skipLineBreaks.atLineStart := by
  have hskip := h.skipLineBreaks
  unfold EndsLine at h
  split at h
  next hend =>
    obtain hdone | hbreak := hend
    · have hs := done_iff.1 hdone
      rw [hskip, skipLineBreaks_of_ahead_eq_nil hs, current?, hs] at ht
      cases ht
    · exact hskip ▸ atLineStart_skipLineBreaks (.inl hbreak)
  next =>
    obtain ⟨stop, htakes, hkind⟩ := h
    exact hskip ▸ atLineStart_skipLineBreaks (.inr (hkind ▸ htakes.isNext))

/-- The next token is the first one of its line, if a line starts there. -/
theorem firstOfLine (htoken : s.current? = some token)
    (hline : s.atLineStart) (horder : Tokens.InOrder s.tokens) :
    Tokens.At s.tokens token.span.start token ∧ Tokens.FirstOfLine s.tokens token := by
  obtain ⟨rest, htokens⟩ := tokens_of_current? htoken
  rw [htokens] at horder ⊢
  refine ⟨horder.at_start (List.mem_append_right _ List.mem_cons_self), horder.firstOfLine ?_⟩
  simpa [atLineStart, behind?, Option.all_map] using hline

end Reading.State

end Offside
