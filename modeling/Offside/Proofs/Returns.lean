import Offside.Proofs.DefaultGrammar
import Offside.Proofs.Lexing.Returns
import Offside.Proofs.Parallel.Rules
import Offside.Proofs.Run.Reported

set_option autoImplicit false

/-!
# Line endings

Lines may end with a carriage return and a line feed or with a line feed alone. The program is the same: the
same trees with the same lines and columns, or the same fault on the same line.
-/
namespace Offside

open Reading

namespace Text

/-- A source beside itself with carriage returns. Trees take their spans from no line break, so all that is
lost is the offset; a fault may be reported at a line break, so of its place only the line is kept. -/
def returns (source : String) (settings : Settings) : Parallel where
  grammar := (Program.setup source settings).grammar
  settings := settings
  source := source
  source' := withReturns source
  place := .seen
  mark p := ⟨0, p.line, 0⟩
  Alike := Token.Returned source (withReturns source)
  Whole kind := kind ≠ .newline
  Past _ := True
  kind_eq h := h.kind
  text_eq h := h.text
  start_eq h := congrArg (Position.mk 0 · 0) h.line
  stop_eq h := congrArg (Position.mk 0 · 0) (Position.seen_eq_iff.1 h.stop).1
  span_eq h hwhole := congrArg₂ Span.mk (Position.seen_eq_iff.2 ⟨h.line, h.column hwhole⟩) h.stop
  whole_of_ne_newline h := h
  whole_of_prefixRule h := Program.ne_newline_of_prefixRule (Program.setup_prefixRule?.symm.trans h)
  whole_of_infixRule h := Program.ne_newline_of_infixRule (Program.setup_infixRule?.symm.trans h)
  column_eq h := (Position.seen_eq_iff.1 h).2
  mark_eq h := congrArg (Position.mk 0 · 0) (Position.seen_eq_iff.1 h).1
  onward _ _ := trivial

end Text

namespace Program

variable {source : String} {tokens tokens' : List Token}

theorem parse_withReturns (settings : Settings)
    (h : List.Forall₂ (Token.Returned source (Text.withReturns source)) tokens tokens') :
    (∃ trees trees', parse source settings tokens = .ok trees ∧
      parse (Text.withReturns source) settings tokens' = .ok trees' ∧
      trees'.map (Tree.map .seen) = trees.map (Tree.map .seen)) ∨
    ∃ d d', parse source settings tokens = .error (.reported d) ∧
      parse (Text.withReturns source) settings tokens' = .error (.reported d') ∧
      d'.cause = d.cause ∧ d'.position.line = d.position.line := by
  let c := Text.returns source settings
  have hstart : c.Beside (.start settings.indentWidth tokens) (.start settings.indentWidth tokens') :=
    ⟨.nil, h, rfl, rfl, rfl⟩
  have hblock := c.expression.block 0 _ _ trivial hstart
  change c.Agreed c.SameAll _ ((setup source settings).program.block 0 _)
    ((setup (Text.withReturns source) settings).program.block 0 _) at hblock
  have hcases := parse_cases source settings tokens
  unfold parse at hcases ⊢
  generalize (setup source settings).program.block 0 (.start settings.indentWidth tokens) = r,
    (setup (Text.withReturns source) settings).program.block 0 (.start settings.indentWidth tokens') = r'
    at hblock hcases
  cases hblock with
  | value htrees _ _ => exact .inl ⟨_, _, rfl, rfl, htrees⟩
  | fault he _ _ =>
    cases he with
    | reported hcause hmark => exact .inr ⟨_, _, rfl, rfl, hcause, (Position.mk.inj hmark).2.1⟩
    | misused m =>
      -- no program misuses its state
      simp at hcases

end Program

/-- Line endings mean nothing. With a carriage return before every line feed a source has the same tokens at
the same lines and columns, but for the columns of line breaks, and under all settings these are read as the
same trees with the same lines and columns or with the same fault on the same line. Else the same is wrong
with both texts at the same line and column. -/
theorem withReturns_equivalent (source : String) :
    (∃ tokens tokens', Tokens.ofSource source = .ok tokens ∧
      Tokens.ofSource (Text.withReturns source) = .ok tokens' ∧
      List.Forall₂ (Token.Returned source (Text.withReturns source)) tokens tokens' ∧
      ∀ settings,
        (∃ trees trees', Program.parse source settings tokens = .ok trees ∧
          Program.parse (Text.withReturns source) settings tokens' = .ok trees' ∧
          trees'.map (Tree.map .seen) = trees.map (Tree.map .seen)) ∨
        ∃ d d', Program.parse source settings tokens = .error (.reported d) ∧
          Program.parse (Text.withReturns source) settings tokens' = .error (.reported d') ∧
          d'.cause = d.cause ∧ d'.position.line = d.position.line) ∨
    ∃ d d', Tokens.ofSource source = .error d ∧ Tokens.ofSource (Text.withReturns source) = .error d' ∧
      d'.cause = d.cause ∧ d'.position.seen = d.position.seen := by
  rcases Tokens.ofSource_withReturns source with ⟨tokens, tokens', htokens, htokens', hreturned⟩ | hfault
  · exact .inl ⟨tokens, tokens', htokens, htokens', hreturned, fun settings =>
      Program.parse_withReturns settings hreturned⟩
  · exact .inr hfault

/-- The comment takes the carriage return with it, so the line break stands a column further on. -/
example : (Tokens.ofSource (Text.withReturns "x = // y\nz")).toOption.map (·.map fun t => (t.line, t.column)) =
    some [(1, 0), (1, 2), (1, 9), (2, 0)] := by decide +kernel

end Offside
