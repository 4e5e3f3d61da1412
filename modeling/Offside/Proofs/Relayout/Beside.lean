import Offside.Proofs.DefaultGrammar
import Offside.Proofs.Relayout.Lines
import Offside.Proofs.Run.LineStarts

set_option autoImplicit false

/-!
# Readings of two layouts side by side

The states of two readings whose tokens have the same lines: every step of the one has its counterpart in
the other. Columns are compared with the levels of open blocks only where a line starts, and these levels are
multiples of the steps of indentation, so that the comparisons come out the same.
-/
namespace Offside

open Reading

namespace Relayout

variable {c : Relayout} {start : Bool} {ts ts' : List Token}

namespace Lines

theorem eq_nil_iff (h : c.Lines start ts ts') : ts' = [] ↔ ts = [] := by
  cases h <;> simp

theorem head? (h : c.Lines start ts ts') {k : Token} (hk : ts.head? = some k) :
    ∃ k', ts'.head? = some k' ∧ c.Alike k k' ∧ (start → k'.column = c.column k.column) := by
  cases h with
  | nil => cases hk
  | token hkind halike hcolumn _ =>
    cases hk
    exact ⟨_, rfl, halike, hcolumn⟩
  | lineBreak hkind halike _ _ _ =>
    cases hk
    exact ⟨_, rfl, halike, nofun⟩

theorem tail_of_ne_newline {k k' : Token} {ks ks' : List Token}
    (h : c.Lines start (k :: ks) (k' :: ks')) (hk : k.kind ≠ .newline) : c.Lines false ks ks' := by
  cases h with
  | token _ _ _ h => exact h
  | lineBreak hkind _ _ _ _ => exact absurd hkind hk

/-- Where a line starts no line break is skipped. -/
theorem dropWhile_of_start (h : c.Lines true ts ts') :
    ts.dropWhile (·.kind = .newline) = ts ∧ ts'.dropWhile (·.kind = .newline) = ts' := by
  cases h with
  | nil => exact ⟨rfl, rfl⟩
  | token hkind halike _ _ =>
    have hkind' := halike.1.trans_ne hkind
    exact ⟨List.dropWhile_cons_of_neg (by simpa using hkind),
      List.dropWhile_cons_of_neg (by simpa using hkind')⟩

/-- Behind line breaks that are skipped a line starts. -/
theorem dropWhile (h : c.Lines start ts ts') {k : Token} (hk : ts.head? = some k)
    (hkind : k.kind = .newline) :
    c.Lines true (ts.dropWhile (·.kind = .newline)) (ts'.dropWhile (·.kind = .newline)) := by
  cases h with
  | nil => cases hk
  | token hother _ _ _ =>
    cases hk
    exact absurd hkind hother
  | @lineBreak _ _ ls ls' _ _ hbreak halike hls hls' h =>
    have hbreak' := halike.1.trans hbreak
    have hline : ∀ l ∈ ls, decide (l.kind = .newline) := fun l hl => by simpa using hls l hl
    have hline' : ∀ l ∈ ls', decide (l.kind = .newline) := fun l hl => by simpa using hls' l hl
    obtain ⟨hdrop, hdrop'⟩ := h.dropWhile_of_start
    rw [List.dropWhile_cons_of_pos (by simpa using hbreak), List.dropWhile_append_of_pos hline, hdrop,
      List.dropWhile_cons_of_pos (by simpa using hbreak'), List.dropWhile_append_of_pos hline', hdrop']
    exact h

end Lines

/-- The two states stand at the same place of the two texts. -/
structure Beside (c : Relayout) (s s' : State) : Prop where
  lines : c.Lines s.atLineStart s.ahead s'.ahead
  behind : s'.behind? = s.behind?
  groups : s'.groups = s.groups
  depth : s'.depth = s.depth
  levels : s'.indentation.levels = s.indentation.levels.map c.column
  step : s.indentation.step = c.width
  step' : s'.indentation.step = c.width'
  multiples : ∀ level ∈ s.indentation.levels, ∃ k, level = k * c.width

namespace Beside

variable {s s' t u : State} {token stop : Token} {kind close : Kind}

theorem inGroup (h : c.Beside s s') : s'.inGroup = s.inGroup := by
  simp only [State.inGroup, h.groups]

theorem afterLineBreak (h : c.Beside s s') : s'.afterLineBreak = s.afterLineBreak := by
  rw [State.afterLineBreak_eq, State.afterLineBreak_eq, h.behind]

theorem done (h : c.Beside s s') : s'.done = s.done := by
  rw [Bool.eq_iff_iff, State.done_iff, State.done_iff]
  exact h.lines.eq_nil_iff

theorem withDepth (h : c.Beside s s') (f : Nat → Nat) :
    c.Beside { s with depth := f s.depth } { s' with depth := f s'.depth } :=
  ⟨h.lines, h.behind, h.groups, congrArg f h.depth, h.levels, h.step, h.step', h.multiples⟩

/-- The next tokens are alike, and where a line starts the columns are those of the two layouts. -/
theorem current? (h : c.Beside s s') (htoken : s.current? = some token) :
    ∃ token', s'.current? = some token' ∧ c.Alike token token' ∧
      (s.atLineStart → token'.column = c.column token.column) :=
  h.lines.head? htoken

theorem current?_eq_none (h : c.Beside s s') (hdone : s.current? = none) : s'.current? = none := by
  rw [State.current?, List.head?_eq_none_iff] at hdone ⊢
  exact h.lines.eq_nil_iff.2 hdone

theorem isNext (h : c.Beside s s') : s'.isNext kind = s.isNext kind := by
  cases hcurrent : s.current? with
  | none => rw [State.isNext, State.isNext, hcurrent, h.current?_eq_none hcurrent]
  | some token =>
    obtain ⟨token', hcurrent', halike, _⟩ := h.current? hcurrent
    rw [State.isNext, State.isNext, hcurrent, hcurrent', Option.any_some, Option.any_some, halike.1]

theorem takes (h : c.Beside s s') (htoken : s.Takes token t) (hkind : token.kind ≠ .newline) :
    ∃ token' t', s'.Takes token' t' ∧ c.Alike token token' ∧ c.Beside t t' := by
  obtain ⟨token', hcurrent, halike, _⟩ := h.current? htoken.1
  have htoken' : s'.Takes token' s'.advance := ⟨hcurrent, rfl⟩
  have hp := htoken.passes
  have hp' := htoken'.passes
  refine ⟨token', s'.advance, htoken', halike, ?_, ?_, ?_, ?_, ?_, ?_, ?_, ?_⟩
  · have hlines := h.lines
    rw [hp.ahead, hp'.ahead] at hlines
    have hstart : t.atLineStart = false := by
      simp [State.atLineStart, State.behind?_of_takes htoken, hkind]
    rw [hstart]
    exact hlines.tail_of_ne_newline hkind
  · rw [State.behind?_of_takes htoken, State.behind?_of_takes htoken', halike.1]
  · rw [hp'.groups, hp.groups, h.groups]
  · rw [hp'.depth, hp.depth, h.depth]
  · rw [hp'.indentation, hp.indentation, h.levels]
  · rw [hp.indentation, h.step]
  · rw [hp'.indentation, h.step']
  · rw [hp.indentation]
    exact h.multiples

theorem skipLineBreaks (h : c.Beside s s') : c.Beside s.skipLineBreaks s'.skipLineBreaks := by
  by_cases hnext : s.isNext .newline
  · have hnext' : s'.isNext .newline := by rwa [h.isNext]
    obtain ⟨k, hk, hkind⟩ := State.isNext_iff.1 hnext
    refine ⟨?_, ?_, h.groups, h.depth, h.levels, h.step, h.step', h.multiples⟩
    · rw [State.atLineStart_skipLineBreaks (.inr hnext)]
      exact h.lines.dropWhile hk hkind
    · rw [State.behind?_skipLineBreaks hnext, State.behind?_skipLineBreaks hnext']
  · have hnext' : ¬s'.isNext .newline := by rwa [h.isNext]
    rw [State.skipLineBreaks_of_not_isNext hnext, State.skipLineBreaks_of_not_isNext hnext']
    exact h

theorem skipGroupedLineBreaks (h : c.Beside s s') :
    c.Beside s.skipGroupedLineBreaks s'.skipGroupedLineBreaks := by
  unfold State.skipGroupedLineBreaks
  rw [h.inGroup]
  split
  · exact h.skipLineBreaks
  · exact h

/-- The next token binds as tightly to what was read. -/
theorem power (h : c.Beside s s') (power : Kind → Int) (lineBreaksEnd : Bool) :
    s'.power power lineBreaksEnd = s.power power lineBreaksEnd := by
  unfold State.power
  rw [h.inGroup, h.afterLineBreak, State.find?_eq_current?, State.find?_eq_current?]
  split
  · cases hcurrent : s.skipLineBreaks.current? with
    | none => rw [h.skipLineBreaks.current?_eq_none hcurrent]
    | some token =>
      obtain ⟨token', hcurrent', halike, _⟩ := h.skipLineBreaks.current? hcurrent
      simp only [hcurrent', halike.1]
  · split
    · rfl
    · cases hcurrent : s.current? with
      | none => rw [h.current?_eq_none hcurrent]
      | some token =>
        obtain ⟨token', hcurrent', halike, _⟩ := h.current? hcurrent
        simp only [hcurrent', halike.1]

theorem openGroup (h : c.Beside s s') : c.Beside s.openGroup s'.openGroup := by
  unfold State.openGroup
  rw [h.groups]
  split
  · exact h
  · exact ⟨h.lines, h.behind, rfl, h.depth, h.levels, h.step, h.step', h.multiples⟩

theorem closeGroup? (h : c.Beside s s') (hu : s.closeGroup? = some u) :
    ∃ u', s'.closeGroup? = some u' ∧ c.Beside u u' := by
  unfold State.closeGroup? at hu ⊢
  rw [h.groups]
  split at hu
  · cases hu
    exact ⟨_, rfl, h.lines, h.behind, rfl, h.depth, h.levels, h.step, h.step', h.multiples⟩
  · cases hu

theorem closes (h : c.Beside s s') (hclose : close ≠ .newline) (hstop : s.Closes close stop t) :
    ∃ stop' t', s'.Closes close stop' t' ∧ c.Alike stop stop' ∧ c.Beside t t' := by
  obtain ⟨u, hu, htakes, hkind⟩ := hstop
  obtain ⟨u', hu', hbeside⟩ := h.closeGroup? hu
  obtain ⟨stop', t', htakes', halike, ht⟩ := hbeside.takes htakes (hkind ▸ hclose)
  exact ⟨stop', t', ⟨u', hu', htakes', halike.1.trans hkind⟩, halike, ht⟩

theorem exists_mul_eq_current (h : c.Beside s s') : ∃ k, s.indentation.current = k * c.width := by
  cases hlevels : s.indentation.levels with
  | nil => exact ⟨0, by simp [Indentation.current, hlevels]⟩
  | cons level outer =>
    obtain ⟨k, hk⟩ := h.multiples level (hlevels ▸ List.mem_cons_self)
    exact ⟨k, by rw [Indentation.current, hlevels, List.headD_cons, hk]⟩

/-- The innermost blocks are at levels that correspond. -/
theorem current_indentation (h : c.Beside s s') :
    s'.indentation.current = c.column s.indentation.current := by
  rw [Indentation.current, Indentation.current, h.levels]
  cases s.indentation.levels with
  | nil =>
    have hzero := c.column_mul 0
    rw [Nat.zero_mul, Nat.zero_mul] at hzero
    exact hzero.symm
  | cons level outer => rfl

/-- One step deeper stands for one step deeper. -/
theorem current_openBlock (h : c.Beside s s') : s'.openBlock.indentation.current =
    c.column s.openBlock.indentation.current := by
  obtain ⟨k, hk⟩ := h.exists_mul_eq_current
  change s'.indentation.current + s'.indentation.step =
    c.column (s.indentation.current + s.indentation.step)
  rw [h.current_indentation, h.step, h.step', hk, c.column_mul, ← Nat.succ_mul, ← Nat.succ_mul,
    c.column_mul]

theorem openBlock (h : c.Beside s s') : c.Beside s.openBlock s'.openBlock := by
  obtain ⟨k, hk⟩ := h.exists_mul_eq_current
  refine ⟨h.lines, h.behind, congrArg (0 :: ·) h.groups, h.depth, ?_, h.step, h.step', ?_⟩
  · have hcurrent := h.current_openBlock
    change s'.openBlock.indentation.current :: s'.indentation.levels =
      c.column s.openBlock.indentation.current :: s.indentation.levels.map c.column
    rw [hcurrent, h.levels]
  · intro level hlevel
    obtain rfl | hlevel := List.mem_cons.1 hlevel
    · exact ⟨k + 1, by rw [hk, h.step, Nat.succ_mul]⟩
    · exact h.multiples level hlevel

theorem closeBlock? (h : c.Beside s s') (hu : s.closeBlock? = some u) :
    ∃ u', s'.closeBlock? = some u' ∧ c.Beside u u' := by
  have hlevels := h.levels
  unfold State.closeBlock? Indentation.decrease? at hu ⊢
  split at hu
  · cases hu
  next level outer hs =>
    cases hu
    rw [hs] at hlevels
    refine ⟨{ s' with
      indentation := { s'.indentation with levels := outer.map c.column }
      groups := s'.groups.tail }, ?_, ?_⟩
    · rw [hlevels]
      rfl
    · exact ⟨h.lines, h.behind, congrArg List.tail h.groups, h.depth, rfl, h.step, h.step',
        fun l hl => h.multiples l (hs ▸ List.mem_cons_of_mem _ hl)⟩

theorem endsLine (h : c.Beside s s') (hline : s.EndsLine t) : ∃ t', s'.EndsLine t' := by
  unfold State.EndsLine at hline ⊢
  rw [h.done, h.afterLineBreak]
  split at hline
  next hend => exact ⟨s', by rw [if_pos hend]⟩
  next hopen =>
    obtain ⟨stop, htakes, hkind⟩ := hline
    obtain ⟨stop', hcurrent', halike, _⟩ := h.current? htakes.1
    exact ⟨s'.advance, by rw [if_neg hopen]; exact ⟨stop', ⟨hcurrent', rfl⟩, halike.1.trans hkind⟩⟩

end Beside

end Relayout

end Offside
