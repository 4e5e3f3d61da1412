import Offside.Proofs.Joining.Below
import Offside.Proofs.Joining.Followed

set_option autoImplicit false

/-!
# Programs behind programs

The statements of a program with a line break and further lines behind it are the statements of the program
and then those of the lines. A fault of the lines is reported as if they stood alone.
-/
namespace Offside

open Reading

namespace Reading

variable {setup : Setup PrefixRule InfixRule} {level bound : Nat} {s t u : State} {tree : Tree}

/-- A statement passes a token. -/
theorem length_ahead_lt_of_statement (h : setup.program.statement s = .ok tree t) :
    t.ahead.length < s.ahead.length := by
  obtain ⟨u, hu, hline⟩ := Reader.statement_eq_ok.1 h
  obtain ⟨ks, _, hpasses⟩ := hline.passes
  have hexpression := (Language.covers_expression setup _ _ _ _ hu).length_ahead_lt
  have hlength := hpasses.length_ahead
  omega

/-- What stands behind a statement is read with fewer tokens ahead. -/
theorem lineThen_congr {f g : Reading (List Tree)}
    (h : ∀ t, t.ahead.length < s.ahead.length → f t = g t) :
    setup.program.lineThen level f s = setup.program.lineThen level g s := by
  have hskip := (State.passes_skipLineBreaks s).length_ahead
  unfold Reader.lineThen
  rw [bind_apply, bind_apply]
  cases hstatement : setup.program.statement s.skipLineBreaks with
  | error e t => rfl
  | ok tree t =>
    have hlength := length_ahead_lt_of_statement hstatement
    simp only [bind_apply, h t (by omega)]

/-- One round more than there are tokens ahead changes nothing. -/
theorem statementsWithin_succ_eq (hb : s.ahead.length ≤ bound) :
    setup.program.statementsWithin level (bound + 1) s =
      setup.program.statementsWithin level bound s := by
  induction bound generalizing s with
  | zero =>
    have hs : s.ahead = [] := List.eq_nil_of_length_eq_zero (by omega)
    rw [Reader.statementsWithin_succ, Reader.lineThen, State.skipLineBreaks_of_ahead_eq_nil hs,
      State.current?, hs]
    rfl
  | succ bound ih =>
    rw [Reader.statementsWithin_succ, Reader.statementsWithin_succ]
    exact lineThen_congr fun t ht => ih (by omega)

theorem statementsWithin_eq_block (hb : s.ahead.length ≤ bound) :
    setup.program.statementsWithin level bound s = setup.program.block level s := by
  induction bound, hb using Nat.le_induction with
  | base => rfl
  | succ bound hb ih => rw [statementsWithin_succ_eq hb, ih]

theorem block_eq (level : Nat) (s : State) :
    setup.program.block level s = setup.program.lineThen level (setup.program.block level) s := by
  rw [← statementsWithin_eq_block (Nat.le_succ _), Reader.statementsWithin_succ]
  exact lineThen_congr fun t ht => statementsWithin_eq_block (Nat.le_of_lt ht)

theorem block_skipLineBreaks (level : Nat) (s : State) :
    setup.program.block level s.skipLineBreaks = setup.program.block level s := by
  rw [block_eq, block_eq level s, Reader.lineThen, Reader.lineThen, State.skipLineBreaks_skipLineBreaks]

end Reading

namespace Sequel

variable {c : Sequel} {s s' : State}

theorem beside_start (c : Sequel) {width : Nat} (hwidth : 0 < width) (tokens : List Token) :
    c.Beside (.start width tokens) (.start width (tokens ++ c.line :: c.tokens)) :=
  ⟨.inl ⟨rfl, rfl⟩, rfl, rfl, rfl, hwidth⟩

end Sequel

namespace Program

variable {c : Sequel} {source : String} {settings : Settings} {s t : State} {out : List Tree}

theorem parse_eq_outcome (tokens : List Token) : parse source settings tokens =
    outcome ((setup source settings).program.block 0 (.start settings.indentWidth tokens)) := by
  rw [parse]
  cases (setup source settings).program.block 0 (.start settings.indentWidth tokens) <;> rfl

end Program

end Offside
