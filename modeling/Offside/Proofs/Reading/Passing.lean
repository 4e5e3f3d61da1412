import Mathlib.Data.List.TakeWhile
import Offside.Reading.State

set_option autoImplicit false

/-!
# Passing tokens

The moves of a reading that only pass tokens, and what is the same before and behind them. A bracket or a
block that is opened and closed again around such a move leaves no trace either.
-/
namespace Offside.Reading.State

/-- From `s` to `t` exactly the tokens `ks` are passed, and nothing else changes. -/
structure Passes (s : State) (ks : List Token) (t : State) : Prop where
  ahead : s.ahead = ks ++ t.ahead
  passed : t.passed = ks.reverse ++ s.passed
  indentation : t.indentation = s.indentation
  groups : t.groups = s.groups
  depth : t.depth = s.depth

/-- The next token is passed. -/
def Takes (s : State) (token : Token) (t : State) : Prop :=
  s.current? = some token ∧ s.advance = t

/-- The innermost bracket is closed, and then the bracket token is passed. -/
def Closes (close : Kind) (s : State) (stop : Token) (t : State) : Prop :=
  ∃ u, s.closeGroup? = some u ∧ u.Takes stop t ∧ stop.kind = close

/-- A line break behind a statement is passed, unless one was passed already or no token is left. -/
def EndsLine (s t : State) : Prop :=
  if s.done ∨ s.afterLineBreak then t = s else ∃ stop, s.Takes stop t ∧ stop.kind = .newline

theorem ext_of_passes {s t u : State} {ks : List Token} (ht : s.Passes ks t) (hu : s.Passes ks u) :
    t = u := by
  have ha : t.ahead = u.ahead := List.append_cancel_left (ht.ahead.symm.trans hu.ahead)
  have hp : t.passed = u.passed := ht.passed.trans hu.passed.symm
  have hi : t.indentation = u.indentation := ht.indentation.trans hu.indentation.symm
  have hg : t.groups = u.groups := ht.groups.trans hu.groups.symm
  have hd : t.depth = u.depth := ht.depth.trans hu.depth.symm
  cases t
  cases u
  simp_all

namespace Passes

variable {s t u : State} {ks ls : List Token}

theorem refl (s : State) : s.Passes [] s := ⟨rfl, rfl, rfl, rfl, rfl⟩

theorem trans (h : s.Passes ks t) (h' : t.Passes ls u) : s.Passes (ks ++ ls) u where
  ahead := by rw [h.ahead, h'.ahead, List.append_assoc]
  passed := by rw [h'.passed, h.passed, List.reverse_append, List.append_assoc]
  indentation := h'.indentation.trans h.indentation
  groups := h'.groups.trans h.groups
  depth := h'.depth.trans h.depth

theorem suffix (h : s.Passes ks t) : t.ahead <:+ s.ahead := ⟨ks, h.ahead.symm⟩

/-- Tokens that are passed are passed in two parts. -/
theorem split (h : s.Passes (ks ++ ls) u) : ∃ t, s.Passes ks t ∧ t.Passes ls u := by
  refine ⟨{ s with passed := ks.reverse ++ s.passed, ahead := ls ++ u.ahead },
    ⟨?_, rfl, rfl, rfl, rfl⟩, ⟨rfl, ?_, h.indentation, h.groups, h.depth⟩⟩
  · rw [h.ahead, List.append_assoc]
  · rw [h.passed, List.reverse_append, List.append_assoc]

theorem uncons {k : Token} (h : s.Passes (k :: ks) u) : ∃ t, s.Passes [k] t ∧ t.Passes ks u :=
  split (show s.Passes ([k] ++ ks) u from h)

theorem inGroup (h : s.Passes ks t) : t.inGroup = s.inGroup := by
  simp only [State.inGroup, h.groups]

theorem length_ahead (h : s.Passes ks t) : s.ahead.length = ks.length + t.ahead.length := by
  rw [h.ahead, List.length_append]

/-- The tokens that are passed are settled by the two states. -/
theorem unique (h : s.Passes ks t) (h' : s.Passes ls t) : ks = ls :=
  List.append_cancel_right (h.ahead.symm.trans h'.ahead)

end Passes

variable {s t u : State} {token stop : Token} {ks : List Token} {kind close : Kind}

theorem current?_eq_some_iff : s.current? = some token ↔ ∃ rest, s.ahead = token :: rest := by
  unfold current?
  cases s.ahead <;> simp

theorem isNext_iff : s.isNext kind ↔ ∃ t, s.current? = some t ∧ t.kind = kind := by
  simp [isNext, Option.any_eq_true]

theorem isNext_eq_false_iff : s.isNext kind = false ↔ ¬s.isNext kind := by simp

theorem kind_eq_of_isNext {k : Kind} (h : s.isNext kind) (h' : s.isNext k) : kind = k := by
  obtain ⟨a, ha, rfl⟩ := isNext_iff.1 h
  obtain ⟨b, hb, rfl⟩ := isNext_iff.1 h'
  rw [Option.some.inj (ha.symm.trans hb)]

theorem takes_iff : s.Takes token t ↔ s.Passes [token] t := by
  constructor
  · rintro ⟨h, rfl⟩
    obtain ⟨rest, h⟩ := current?_eq_some_iff.1 h
    simp only [advance, h]
    exact ⟨h, rfl, rfl, rfl, rfl⟩
  · intro h
    have ha : s.ahead = token :: t.ahead := h.ahead
    refine ⟨current?_eq_some_iff.2 ⟨_, ha⟩, ext_of_passes ?_ h⟩
    simp only [advance, ha]
    exact ⟨ha, rfl, rfl, rfl, rfl⟩

theorem Takes.passes (h : s.Takes token t) : s.Passes [token] t := takes_iff.1 h

theorem Takes.suffix (h : s.Takes token t) : t.ahead <:+ s.ahead := h.passes.suffix

theorem Takes.isNext (h : s.Takes token t) : s.isNext token.kind :=
  isNext_iff.2 ⟨token, h.1, rfl⟩

theorem passes_skipLineBreaks (s : State) :
    s.Passes (s.ahead.takeWhile (·.kind = .newline)) s.skipLineBreaks where
  ahead := List.takeWhile_append_dropWhile.symm
  passed := rfl
  indentation := rfl
  groups := rfl
  depth := rfl

/-- Behind line breaks the next token is none. -/
theorem ne_newline_of_skipLineBreaks (h : s.skipLineBreaks.current? = some token) :
    token.kind ≠ .newline := by
  have hhead := List.head?_dropWhile_not (·.kind = .newline) s.ahead
  have h : (s.ahead.dropWhile (·.kind = .newline)).head? = some token := h
  rw [h] at hhead
  simpa using hhead

/-- Before a token that is no line break there is nothing to look past. -/
theorem skipLineBreaks_of_isNext (h : s.isNext kind) (hk : kind ≠ .newline) :
    s.skipLineBreaks = s := by
  obtain ⟨token, htoken, rfl⟩ := isNext_iff.1 h
  obtain ⟨rest, hs⟩ := current?_eq_some_iff.1 htoken
  cases s
  simp_all [skipLineBreaks]

/-- The line breaks before a token are passed. -/
theorem skipLineBreaks_eq {k : Token} {us vs : List Token} (hs : s.ahead = us ++ k :: vs)
    (hn : ∀ u ∈ us, u.kind = .newline) (hk : k.kind ≠ .newline) :
    s.skipLineBreaks = { s with passed := us.reverse ++ s.passed, ahead := k :: vs } := by
  have hline : ∀ u ∈ us, decide (u.kind = .newline) := fun u hu => by simpa using hn u hu
  simp [skipLineBreaks, hs, List.takeWhile_append_of_pos hline,
    List.dropWhile_append_of_pos hline, hk]

theorem skipLineBreaks_skipLineBreaks (s : State) :
    s.skipLineBreaks.skipLineBreaks = s.skipLineBreaks := by
  cases hs : s.skipLineBreaks.ahead with
  | nil =>
    generalize s.skipLineBreaks = t at hs
    cases t
    simp_all [skipLineBreaks]
  | cons k ks =>
    have hcurrent : s.skipLineBreaks.current? = some k := current?_eq_some_iff.2 ⟨ks, hs⟩
    exact skipLineBreaks_of_isNext (isNext_iff.2 ⟨k, hcurrent, rfl⟩)
      (ne_newline_of_skipLineBreaks hcurrent)

theorem skipLineBreaks_openBlock (s : State) :
    s.skipLineBreaks.openBlock.skipLineBreaks = s.skipLineBreaks.openBlock :=
  congrArg openBlock s.skipLineBreaks_skipLineBreaks

theorem isNext_skipLineBreaks (h : s.isNext kind) (hk : kind ≠ .newline) :
    s.skipLineBreaks.isNext kind := by
  rwa [skipLineBreaks_of_isNext h hk]

theorem skipGroupedLineBreaks_of_isNext (h : s.isNext kind) (hk : kind ≠ .newline) :
    s.skipGroupedLineBreaks = s := by
  unfold skipGroupedLineBreaks
  split
  · exact skipLineBreaks_of_isNext h hk
  · rfl

/-- The line breaks that are looked past before the next token of an expression. -/
def groupedLineBreaks (s : State) : List Token :=
  if s.inGroup then s.ahead.takeWhile (·.kind = .newline) else []

theorem passes_skipGroupedLineBreaks (s : State) :
    s.Passes s.groupedLineBreaks s.skipGroupedLineBreaks := by
  unfold groupedLineBreaks skipGroupedLineBreaks
  split
  · exact passes_skipLineBreaks s
  · exact Passes.refl s

theorem kind_of_mem_takeWhile {ts : List Token} (h : token ∈ ts.takeWhile (·.kind = .newline)) :
    token.kind = .newline := by
  simpa using List.mem_takeWhile_imp h

theorem kind_of_mem_groupedLineBreaks (h : token ∈ s.groupedLineBreaks) :
    token.kind = .newline := by
  unfold groupedLineBreaks at h
  split at h
  · exact kind_of_mem_takeWhile h
  · simp at h

theorem ahead_openGroup (s : State) : s.openGroup.ahead = s.ahead := by
  unfold State.openGroup
  split <;> rfl

theorem depth_openGroup (s : State) : s.openGroup.depth = s.depth := by
  unfold State.openGroup
  split <;> rfl

theorem ahead_of_closeGroup? (h : s.closeGroup? = some t) : t.ahead = s.ahead := by
  unfold closeGroup? at h
  split at h
  · cases h
    rfl
  · cases h

theorem ahead_of_closeBlock? (h : s.closeBlock? = some t) : t.ahead = s.ahead := by
  obtain ⟨_, _, rfl⟩ := Option.map_eq_some_iff.1 h
  rfl

theorem Closes.kind_eq (h : s.Closes close stop t) : stop.kind = close := by
  obtain ⟨_, _, _, hk⟩ := h
  exact hk

theorem Closes.isNext (h : s.Closes close stop t) : s.isNext close := by
  obtain ⟨u, hu, htakes, rfl⟩ := h
  refine isNext_iff.2 ⟨stop, ?_, rfl⟩
  rw [current?, ← ahead_of_closeGroup? hu]
  exact htakes.1

theorem passes_of_closeGroup? (h : s.openGroup.Passes ks t) (hc : t.closeGroup? = some u) :
    s.Passes ks u := by
  obtain ⟨hd, tl, hs⟩ : ∃ n outer, s.groups = n :: outer := by
    cases hs : s.groups with
    | nil =>
      have hg : t.groups = [] := by simpa [openGroup, hs] using h.groups
      simp [closeGroup?, hg] at hc
    | cons n outer => exact ⟨n, outer, rfl⟩
  have ho : s.openGroup = { s with groups := (hd + 1) :: tl } := by simp [openGroup, hs]
  rw [ho] at h
  have hg : t.groups = (hd + 1) :: tl := h.groups
  simp only [closeGroup?, hg, Option.some.injEq] at hc
  subst hc
  exact ⟨h.ahead, h.passed, h.indentation, hs.symm, h.depth⟩

theorem Closes.passes (hc : t.Closes close stop u) (h : s.openGroup.Passes ks t) :
    s.Passes (ks ++ [stop]) u := by
  obtain ⟨v, hv, ht, _⟩ := hc
  exact (passes_of_closeGroup? h hv).trans ht.passes

/-- A bracket can be opened before tokens whose last one closes it. -/
theorem Passes.closes (h : s.Passes (ks ++ [stop]) u) (hg : s.groups ≠ []) (hk : stop.kind = close) :
    ∃ t, s.openGroup.Passes ks t ∧ t.ahead = stop :: u.ahead ∧ t.Closes close stop u := by
  obtain ⟨n, outer, hs⟩ := List.exists_cons_of_ne_nil hg
  obtain ⟨t, ht, hu⟩ := h.split
  have ho : s.openGroup = { s with groups := (n + 1) :: outer } := by simp [openGroup, hs]
  have hc : ({ t with groups := (n + 1) :: outer } : State).closeGroup? = some t := by
    simp [closeGroup?, ← hs, ← ht.groups]
  rw [ho]
  exact ⟨{ t with groups := (n + 1) :: outer },
    ⟨ht.ahead, ht.passed, ht.indentation, rfl, ht.depth⟩, hu.ahead, t, hc, takes_iff.2 hu, hk⟩

theorem closeBlock?_of_passes (h : s.openBlock.Passes ks t) :
    t.closeBlock? = some { t with indentation := s.indentation, groups := s.groups } := by
  have hi : t.indentation = s.indentation.increase := h.indentation
  have hg : t.groups = 0 :: s.groups := h.groups
  simp [closeBlock?, hi, Indentation.decrease?_increase, hg]

theorem passes_of_closeBlock? (h : s.openBlock.Passes ks t) (hc : t.closeBlock? = some u) :
    s.Passes ks u := by
  rw [closeBlock?_of_passes h] at hc
  cases hc
  exact ⟨h.ahead, h.passed, rfl, rfl, h.depth⟩

theorem endsLine_of_done (h : s.done) : s.EndsLine s := by
  unfold EndsLine
  rw [if_pos (.inl h)]

theorem EndsLine.passes (h : s.EndsLine t) : ∃ ks : List Token, (∀ k ∈ ks, k.kind = .newline) ∧
    s.Passes ks t := by
  unfold EndsLine at h
  split at h
  · subst h
    exact ⟨[], by simp, Passes.refl _⟩
  · obtain ⟨stop, ht, hk⟩ := h
    exact ⟨[stop], by simpa using hk, ht.passes⟩

end Offside.Reading.State
