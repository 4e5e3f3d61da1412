import Offside.Proofs.OneLine.Derives

set_option autoImplicit false

/-!
# Reading on one line

Where no line break is ahead, none is ever looked past, and how tightly the next token binds depends on
its kind alone. The binding powers of the default grammar are those of the tiers of its operators.
-/
namespace Offside.OneLine

open Reading

/-- How tightly the first of the tokens binds to what is on its left. -/
def nextPower : List Token → Int
  | [] => 0
  | t :: _ => Program.power t.kind

/-- No operator binds as loosely as between zero and nine. -/
theorem nextPower_le_zero {ks : List Token} (h : nextPower ks ≤ 9) : nextPower ks ≤ 0 := by
  cases ks with
  | nil => exact Int.le_refl _
  | cons t _ =>
    change Program.power t.kind ≤ 9 at h
    change Program.power t.kind ≤ 0
    revert h
    cases t.kind <;> decide

theorem power_of_tier {kind : Kind} {n : Nat} (h : kind ∈ tier n) :
    Program.power kind = 70 - 10 * n ∧ n < 4 := by
  unfold tier at h
  split at h <;> revert h <;> cases kind <;> simp [Program.power, Program.infixRule?, Level.power]

/-- Every binary operator has its tier. -/
theorem tier_of_binary {kind : Kind} {operator : Operator}
    (h : Operator.binary? kind = some operator) : ∃ n, kind ∈ tier n := by
  cases kind <;> cases h <;>
    first | exact ⟨0, by decide⟩ | exact ⟨1, by decide⟩ | exact ⟨2, by decide⟩ | exact ⟨3, by decide⟩

theorem kind_of_power_arrow {kind : Kind} (h : Program.power kind = 30) : kind = .arrow := by
  revert h
  cases kind <;> decide

theorem nextPower_of_isNext_arrow {s : State} (h : s.isNext .arrow) : nextPower s.ahead = 30 := by
  obtain ⟨t, ht, hk⟩ := State.isNext_iff.1 h
  obtain ⟨rest, hs⟩ := State.current?_eq_some_iff.1 ht
  rw [hs]
  change Program.power t.kind = 30
  rw [hk]
  rfl

theorem isNext_arrow_of_nextPower {s : State} (h : nextPower s.ahead = 30) : s.isNext .arrow := by
  cases hs : s.ahead with
  | nil =>
    rw [hs] at h
    cases h
  | cons t rest =>
    rw [hs] at h
    simp [State.isNext, State.current?, hs, kind_of_power_arrow h]

theorem nextPower_of_isNext_close {s : State} {close : Kind}
    (hclose : close = .closeParen ∨ close = .closeBracket) (h : s.isNext close) :
    nextPower s.ahead ≤ 0 := by
  obtain ⟨t, ht, rfl⟩ := State.isNext_iff.1 h
  obtain ⟨rest, hs⟩ := State.current?_eq_some_iff.1 ht
  rw [hs]
  change Program.power t.kind ≤ 0
  rcases hclose with hk | hk <;> rw [hk] <;> decide

/-- No line break is ahead, and none was just passed. -/
structure OnLine (s : State) : Prop where
  ahead : ∀ t ∈ s.ahead, t.kind ≠ .newline
  behind : s.afterLineBreak = false

namespace OnLine

variable {s t : State} {ks : List Token}

theorem passes (h : OnLine s) (hp : s.Passes ks t) : OnLine t := by
  refine ⟨fun k hk => h.ahead k ?_, ?_⟩
  · rw [hp.ahead]
    exact List.mem_append_right _ hk
  · unfold State.afterLineBreak
    rw [hp.passed]
    cases hks : ks.reverse with
    | nil => exact h.behind
    | cons k ls =>
      have hk : k.kind ≠ .newline := by
        apply h.ahead k
        rw [hp.ahead]
        refine List.mem_append_left _ (List.mem_reverse.1 ?_)
        rw [hks]
        exact List.mem_cons_self
      simp [hk]

theorem skipLineBreaks (h : OnLine s) : s.skipLineBreaks = s := by
  cases s with
  | mk passed ahead indentation groups depth =>
    cases ahead with
    | nil => rfl
    | cons t ts =>
      have ht : t.kind ≠ .newline := h.ahead t List.mem_cons_self
      simp [State.skipLineBreaks, ht]

theorem skipGroupedLineBreaks (h : OnLine s) : s.skipGroupedLineBreaks = s := by
  unfold State.skipGroupedLineBreaks
  split
  · exact h.skipLineBreaks
  · rfl

theorem openGroup (h : OnLine s) : OnLine s.openGroup := by
  unfold State.openGroup
  split
  · exact h
  · exact ⟨h.ahead, h.behind⟩

theorem nested (h : OnLine s) (depth : Nat) : OnLine { s with depth := depth } :=
  ⟨h.ahead, h.behind⟩

/-- On one line the settings and the open brackets do not matter for what binds. -/
theorem power (h : OnLine s) (source : String) (settings : Settings) :
    (Program.setup source settings).power s = nextPower s.ahead := by
  unfold Setup.power State.power State.current?
  rw [h.behind, Bool.false_and]
  cases hs : s.ahead with
  | nil => simp [nextPower]
  | cons t ts =>
    have ht : t.kind ≠ .newline := h.ahead t (by rw [hs]; exact List.mem_cons_self)
    rw [List.find?_cons_of_pos (by simpa using ht), List.head?_cons]
    simp [nextPower]

/-- An extension ends where the next token binds no tighter than the caller asked for. -/
theorem nextPower_le (h : OnLine s) {source : String} {settings : Settings} {least : Int}
    (hleast : 0 ≤ least)
    (hloose : s.done ∨ (Program.setup source settings).power s ≤ least) :
    nextPower s.ahead ≤ least := by
  rcases hloose with hdone | hloose
  · rw [State.done_iff.1 hdone]
    exact hleast
  · rwa [h.power] at hloose

/-- Without a line break a statement ends where no token is left. -/
theorem endsLine (h : OnLine s) (hline : s.EndsLine t) : s.ahead = [] ∧ t = s := by
  unfold State.EndsLine at hline
  rw [h.behind] at hline
  split at hline
  next hdone => exact ⟨State.done_iff.1 (by simpa using hdone), hline⟩
  next =>
    obtain ⟨stop, hstop, hk⟩ := hline
    refine absurd hk (h.ahead stop ?_)
    rw [hstop.passes.ahead]
    exact List.mem_cons_self

end OnLine

end Offside.OneLine
