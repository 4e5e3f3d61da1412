import Offside.Proofs.Reading.Reports

set_option autoImplicit false

/-!
# Steps of the climbing

What the climbing of any language gives and what it reports, in terms of the rules that it applies to the
tokens it passes.
-/
namespace Offside.Language

open Reading

variable {P I N : Type} {language : Language P I N} {setup : Setup P I} {operand : Int → Reading N}
  {s t : State} {d : Diagnostic} {left n : N} {least : Int}

/-- Behind a token that an expression passes fewer tokens are ahead, in the same frame. -/
theorem length_lt_of_takes {token : Token} (htoken : s.skipGroupedLineBreaks.Takes token t) :
    t.ahead.length < s.ahead.length ∧ t.groups = s.groups := by
  have hpasses := (State.passes_skipGroupedLineBreaks s).trans htoken.passes
  have hlength := hpasses.length_ahead
  simp only [List.length_append, List.length_singleton] at hlength
  exact ⟨by omega, hpasses.groups⟩

theorem first_eq_ok : language.first setup operand s = .ok left t ↔ ∃ token u rule,
    s.skipGroupedLineBreaks.Takes token u ∧ setup.grammar.prefixRule? token.kind = some rule ∧
      language.prefixRule rule (setup.reader operand) token u = .ok left t := by
  refine taking_eq_ok.trans (exists_congr fun token => exists_congr fun u => ?_)
  cases setup.grammar.prefixRule? token.kind with
  | none => simp [fail_eq_ok]
  | some rule => simp

theorem next_eq_ok {longer : N} :
    language.next setup operand left s = .ok longer t ↔ ∃ token u rule,
      s.skipGroupedLineBreaks.Takes token u ∧ setup.grammar.infixRule? token.kind = some rule ∧
        language.infixRule rule (setup.reader operand) left token u = .ok longer t := by
  refine taking_eq_ok.trans (exists_congr fun token => exists_congr fun u => ?_)
  cases setup.grammar.infixRule? token.kind with
  | none => simp [fail_eq_ok]
  | some rule => simp

theorem extend_of_loose {rounds : Nat} (hloose : s.done ∨ setup.power s ≤ least) :
    language.extend setup operand least rounds left s = .ok left s := by
  cases rounds with
  | zero => rfl
  | succ rounds =>
    simp only [extend, bind_eq_ok, get_eq_ok]
    exact ⟨_, _, ⟨rfl, rfl⟩, by rw [if_pos hloose, pure_eq_ok]; exact ⟨rfl, rfl⟩⟩

theorem extend_of_next {rounds : Nat} {longer : N} {u : State}
    (htight : ¬(s.done ∨ setup.power s ≤ least))
    (hnext : language.next setup operand left s = .ok longer u)
    (hextend : language.extend setup operand least rounds longer u = .ok n t) :
    language.extend setup operand least (rounds + 1) left s = .ok n t := by
  simp only [extend, bind_eq_ok, get_eq_ok]
  refine ⟨_, _, ⟨rfl, rfl⟩, ?_⟩
  rw [if_neg htight, bind_eq_ok]
  exact ⟨_, _, hnext, hextend⟩

theorem climb_eq_ok : language.climb setup operand least s = .ok n t ↔ ∃ left u,
    language.first setup operand s = .ok left u ∧
      language.extend setup operand least u.ahead.length left u = .ok n t := by
  rw [climb, bind_eq_ok]
  rfl

theorem reports_first : Reports (language.first setup operand) s d ↔
    s.skipGroupedLineBreaks.current? = none ∧
      d = ⟨.endOfInput, s.skipGroupedLineBreaks.endPosition⟩ ∨
    ∃ token t, s.skipGroupedLineBreaks.Takes token t ∧
      (setup.grammar.prefixRule? token.kind = none ∧
          d = ⟨.noPrefixRule token.kind, token.span.start⟩ ∨
        ∃ rule, setup.grammar.prefixRule? token.kind = some rule ∧
          Reports (language.prefixRule rule (setup.reader operand) token) t d) := by
  refine reports_taking.trans (or_congr_right (exists_congr fun token => exists_congr fun t =>
    and_congr_right fun _ => ?_))
  cases setup.grammar.prefixRule? token.kind with
  | none => simp
  | some rule => simp

theorem reports_next : Reports (language.next setup operand left) s d ↔
    s.skipGroupedLineBreaks.current? = none ∧
      d = ⟨.endOfInput, s.skipGroupedLineBreaks.endPosition⟩ ∨
    ∃ token t, s.skipGroupedLineBreaks.Takes token t ∧
      (setup.grammar.infixRule? token.kind = none ∧
          d = ⟨.noInfixRule token.kind, token.span.start⟩ ∨
        ∃ rule, setup.grammar.infixRule? token.kind = some rule ∧
          Reports (language.infixRule rule (setup.reader operand) left token) t d) := by
  refine reports_taking.trans (or_congr_right (exists_congr fun token => exists_congr fun t =>
    and_congr_right fun _ => ?_))
  cases setup.grammar.infixRule? token.kind with
  | none => simp
  | some rule => simp

/-- An extension reports what the next operator reports or, behind it, what is reported further on. -/
theorem reports_extend_succ {rounds : Nat} :
    Reports (language.extend setup operand least (rounds + 1) left) s d ↔
      ¬(s.done ∨ setup.power s ≤ least) ∧
        (Reports (language.next setup operand left) s d ∨ ∃ longer t,
          language.next setup operand left s = .ok longer t ∧
            Reports (language.extend setup operand least rounds longer) t d) := by
  rw [extend, reports_look]
  split
  next hloose => simp [hloose]
  next htight => rw [reports_bind, and_iff_right htight]

end Offside.Language
