import Offside.Proofs.Bare
import Offside.Proofs.DefaultGrammar
import Offside.Proofs.Layout.Written

set_option autoImplicit false

/-!
# Reading what is written

The moves of a reading over written pieces: which token is next, how tightly it binds, and where a line
break ends an expression or a block.
-/
namespace Offside

open Reading
open Run (Starts)

variable {source : String} {settings : Settings} {l : Layout} {k : Nat} {s t u v : State}
  {token : Token} {kind : Kind} {text : List Char} {ps rest : List Piece} {ks : List Token}

namespace Written

/-- The next piece is taken as a token. -/
theorem takes (h : Written source (.word kind text :: ps) s.ahead) :
    ∃ token t, s.Takes token t ∧ token.kind = kind ∧ token.text source = String.ofList text ∧
      Written source ps t.ahead ∧ t.afterLineBreak = false := by
  cases hs : s.ahead with
  | nil =>
    rw [hs] at h
    cases h
  | cons token ts =>
    rw [hs] at h
    cases h with
    | word hline hkind htext hrest =>
      have htakes : s.Takes token s.advance := ⟨State.current?_eq_some_iff.2 ⟨ts, hs⟩, rfl⟩
      have hahead : token :: ts = token :: s.advance.ahead := hs.symm.trans htakes.passes.ahead
      refine ⟨token, s.advance, htakes, hkind, htext, ?_, ?_⟩
      · rwa [← (List.cons.inj hahead).2]
      · rw [State.afterLineBreak, htakes.passes.passed]
        simpa [hkind] using hline

theorem isNext (h : Written source (.word kind text :: ps) s.ahead) : s.isNext kind := by
  obtain ⟨token, t, htakes, rfl, _⟩ := h.takes
  exact htakes.isNext

theorem ne_newline (h : Written source (.word kind text :: ps) s.ahead) : kind ≠ .newline := by
  cases hs : s.ahead with
  | nil =>
    rw [hs] at h
    cases h
  | cons token ts =>
    rw [hs] at h
    cases h with
    | word hline _ _ _ => exact hline

theorem skipLineBreaks (h : Written source (.word kind text :: ps) s.ahead) :
    s.skipLineBreaks = s := State.skipLineBreaks_of_isNext h.isNext h.ne_newline

theorem skipGroupedLineBreaks (h : Written source (.word kind text :: ps) s.ahead) :
    s.skipGroupedLineBreaks = s := State.skipGroupedLineBreaks_of_isNext h.isNext h.ne_newline

theorem find? (h : Written source (.word kind text :: ps) s.ahead) :
    ∃ token, s.ahead.find? (·.kind ≠ .newline) = some token ∧ s.current? = some token ∧
      token.kind = kind := by
  obtain ⟨token, hcurrent, hkind⟩ := State.isNext_iff.1 h.isNext
  obtain ⟨ts, hs⟩ := State.current?_eq_some_iff.1 hcurrent
  refine ⟨token, ?_, hcurrent, hkind⟩
  rw [hs, List.find?_cons_of_pos]
  simpa [hkind] using h.ne_newline

/-- A line break among the pieces is taken as a token. -/
theorem takes_line {column : Nat} (h : Written source (.line column :: ps) s.ahead) :
    ∃ token t, s.Takes token t ∧ token.kind = .newline ∧ Written source ps t.ahead ∧
      (∀ t' ∈ t.current?, t'.column = column) ∧ t.afterLineBreak := by
  cases hs : s.ahead with
  | nil =>
    rw [hs] at h
    cases h
  | cons token ts =>
    rw [hs] at h
    cases h with
    | line hkind hcolumn hrest =>
      have htakes : s.Takes token s.advance := ⟨State.current?_eq_some_iff.2 ⟨ts, hs⟩, rfl⟩
      have hahead : token :: ts = token :: s.advance.ahead := hs.symm.trans htakes.passes.ahead
      have hts : s.advance.ahead = ts := (List.cons.inj hahead).2.symm
      refine ⟨token, s.advance, htakes, hkind, by rwa [hts], ?_, ?_⟩
      · rwa [State.current?, hts]
      · rw [State.afterLineBreak, htakes.passes.passed]
        simpa using hkind

/-- A token on the line binds as tightly as its kind. -/
theorem power (h : Written source (.word kind text :: ps) s.ahead) (hs : s.afterLineBreak = false) :
    (Program.setup source settings).power s = Program.power kind := by
  obtain ⟨token, hfind, hcurrent, rfl⟩ := h.find?
  unfold Setup.power State.power
  rw [hfind, hcurrent, hs]
  simp

/-- A token that does not bind does so nowhere. -/
theorem power_le (h : Written source (.word kind text :: ps) s.ahead) (hk : Program.power kind ≤ 0) :
    (Program.setup source settings).power s ≤ 0 := by
  obtain ⟨token, hfind, hcurrent, rfl⟩ := h.find?
  unfold Setup.power State.power
  rw [hfind, hcurrent]
  split
  · simpa using hk
  · split
    · exact Int.le_refl 0
    · simpa using hk

end Written

/-- The pieces end an expression: the first of them does not bind, or is a line break that is not looked
past, or one with a token behind it that does not bind. -/
inductive Stops (s : State) : List Piece → Prop
  | done : Stops s []
  | word {kind : Kind} {text : List Char} {ps : List Piece} (h : Program.power kind ≤ 0) :
      Stops s (.word kind text :: ps)
  | line {column : Nat} {ps : List Piece} (h : ¬s.inGroup) : Stops s (.line column :: ps)
  | closed {column : Nat} {kind : Kind} {text : List Char} {ps : List Piece}
      (h : Program.power kind ≤ 0) : Stops s (.line column :: .word kind text :: ps)

/-- The pieces start with a line further left than the level, or there are none. -/
inductive Dedents (level : Nat) : List Piece → Prop
  | done : Dedents level []
  | line {column : Nat} {kind : Kind} {text : List Char} {ps : List Piece} (h : column < level) :
      Dedents level (.line column :: .word kind text :: ps)

/-- The state stands behind the line break that the pieces start with, or at the end. -/
inductive AtLine (source : String) (s : State) : List Piece → Prop
  | done (h : s.ahead = []) : AtLine source s []
  | line {column : Nat} {ps : List Piece} (hcolumn : ∀ t ∈ s.current?, t.column = column)
      (h : Written source ps s.ahead) : AtLine source s (.line column :: ps)

namespace Stops

variable {left : Tree} {least : Int}

theorem of_inGroup (h : Stops s rest) (hg : t.inGroup = s.inGroup) : Stops t rest := by
  cases h with
  | done => exact .done
  | word hk => exact .word hk
  | line hs => exact .line (by rwa [hg])
  | closed hk => exact .closed hk

theorem ne_arrow (h : Stops s rest) (text : List Char) (ps : List Piece) :
    rest ≠ .word .arrow text :: ps := by
  rintro rfl
  cases h with
  | word hk => exact absurd hk (by decide)

/-- Nothing goes on with an expression behind which the pieces stand. -/
theorem stop (h : Stops s rest) (hs : Written source rest s.ahead) (hleast : 0 ≤ least) :
    Run (Program.setup source settings) (.extension least left) s [left] s := by
  cases h with
  | done =>
    cases hahead : s.ahead with
    | nil => exact .stop (.inl (by simp [State.done, hahead]))
    | cons token ts =>
      rw [hahead] at hs
      cases hs
  | word hk => exact .stop (.inr (Int.le_trans (hs.power_le hk) hleast))
  | line hout =>
    obtain ⟨token, t, htakes, hkind, _⟩ := hs.takes_line
    refine .stop (.inr (Int.le_trans ?_ hleast))
    unfold Setup.power State.power
    rw [if_neg hout, htakes.1]
    split
    · exact Int.le_refl 0
    · simp [hkind, Program.power, Program.infixRule?]
  | closed hk =>
    obtain ⟨token, t, htakes, hkind, hrest, _⟩ := hs.takes_line
    obtain ⟨next, hfind, _, rfl⟩ := hrest.find?
    refine .stop (.inr (Int.le_trans ?_ hleast))
    have hahead : s.ahead = token :: t.ahead := htakes.passes.ahead
    unfold Setup.power State.power
    rw [htakes.1, hahead, List.find?_cons_of_neg (by simp [hkind]), hfind]
    split
    · simpa using hk
    · split
      · exact Int.le_refl 0
      · simp [hkind, Program.power, Program.infixRule?]

end Stops

namespace Dedents

variable {level : Nat}

theorem mono {level' : Nat} (h : Dedents level rest) (hle : level ≤ level') :
    Dedents level' rest := by
  cases h with
  | done => exact .done
  | line hlt => exact .line (Nat.lt_of_lt_of_le hlt hle)

/-- Behind a statement the line break is passed. -/
theorem endsLine (h : Dedents level rest) (hs : Written source rest s.ahead)
    (hline : s.afterLineBreak = false) :
    ∃ t, s.EndsLine t ∧ AtLine source t rest ∧ (t.done ∨ t.afterLineBreak) := by
  cases h with
  | done =>
    have hahead : s.ahead = [] := by
      cases hahead : s.ahead with
      | nil => rfl
      | cons token ts =>
        rw [hahead] at hs
        cases hs
    have hdone : s.done := by simp [State.done, hahead]
    exact ⟨s, State.endsLine_of_done hdone, .done hahead, .inl hdone⟩
  | line hlt =>
    obtain ⟨token, t, htakes, hkind, hrest, hcolumn, hafter⟩ := hs.takes_line
    refine ⟨t, ?_, .line hcolumn hrest, .inr hafter⟩
    have hnot : ¬(s.done ∨ s.afterLineBreak) := by
      have hahead : s.ahead = token :: t.ahead := htakes.passes.ahead
      simp [State.done, hahead, hline]
    unfold State.EndsLine
    rw [if_neg hnot]
    exact ⟨token, htakes, hkind⟩

end Dedents

namespace AtLine

variable {column : Nat} {left : Tree} {least : Int}

theorem written (h : AtLine source s (.line column :: ps)) : Written source ps s.ahead := by
  cases h with
  | line _ hs => exact hs

/-- The tokens ahead decide it. -/
theorem of_ahead (h : AtLine source s rest) (ht : t.ahead = s.ahead) : AtLine source t rest := by
  cases h with
  | done hs => exact .done (ht.trans hs)
  | line hcolumn hs => exact .line (by rwa [State.current?, ht]) (by rwa [ht])

theorem endsLine (h : s.done ∨ s.afterLineBreak) : s.EndsLine s := by
  unfold State.EndsLine
  rw [if_pos h]

/-- Behind a block nothing goes on with the expression that it ended. -/
theorem stop (h : AtLine source s rest) (hstops : Stops s rest) (hs : s.done ∨ s.afterLineBreak)
    (hends : settings.lineBreaksEndExpressions) (hleast : 0 ≤ least) :
    Run (Program.setup source settings) (.extension least left) s [left] s := by
  have hout : ¬s.inGroup → Run (Program.setup source settings) (.extension least left) s [left] s := by
    intro hout
    rcases hs with hdone | hafter
    · exact .stop (.inl hdone)
    · refine .stop (.inr (Int.le_trans ?_ hleast))
      unfold Setup.power State.power
      rw [if_neg hout, hafter]
      simp [hends]
  cases hstops with
  | done =>
    cases h with
    | done hahead => exact .stop (.inl (by simp [State.done, hahead]))
  | word hk => cases h
  | line hline => exact hout hline
  | closed hk => exact .stop (.inr (Int.le_trans (h.written.power_le hk) hleast))

end AtLine

end Offside
