import Offside.Proofs.Reading.Passing

set_option autoImplicit false

/-!
# Where a state stands

A state stands among all the tokens of its source, those passed and those ahead, and inside a number of
open blocks. A reading moves on among the same tokens, and each open block is one step deeper than the one
around it.
-/
namespace Offside

/-- The end of the last token, or of no text at all. -/
def Tokens.endPosition (ts : List Token) : Position := (ts.getLast?.map (·.span.stop)).getD .origin

namespace Reading.State

/-- All tokens, those passed and those ahead. -/
def tokens (s : State) : List Token := s.passed.reverse ++ s.ahead

/-- The state stands among the tokens, and as many blocks of the width are open. -/
structure Stands (tokens : List Token) (width blocks : Nat) (s : State) : Prop where
  tokens : s.tokens = tokens
  step : s.indentation.step = width
  current : s.indentation.current = blocks * width

variable {s t : State} {token : Token} {ks : List Token}

theorem tokens_of_current? (h : s.current? = some token) :
    ∃ rest, s.tokens = s.passed.reverse ++ token :: rest := by
  obtain ⟨rest, hahead⟩ := current?_eq_some_iff.1 h
  exact ⟨rest, by rw [tokens, hahead]⟩

theorem Passes.tokens (h : s.Passes ks t) : t.tokens = s.tokens := by
  rw [State.tokens, State.tokens, h.passed, h.ahead, List.reverse_append, List.reverse_reverse,
    List.append_assoc]

theorem endPosition_eq (s : State) : s.endPosition = Tokens.endPosition s.tokens := by
  rw [endPosition, Tokens.endPosition, tokens, List.getLast?_append, List.getLast?_reverse]
  cases s.ahead.getLast? <;> rfl

/-- The current position is the start of a token, or the end of the last one. -/
theorem currentPosition_eq (s : State) : s.currentPosition = Tokens.endPosition s.tokens ∨
    ∃ token ∈ s.tokens, s.currentPosition = token.span.start := by
  unfold currentPosition
  split
  next token htoken =>
    obtain ⟨rest, htokens⟩ := tokens_of_current? htoken
    exact .inr ⟨token, htokens ▸ List.mem_append_right _ List.mem_cons_self, rfl⟩
  next => exact .inl s.endPosition_eq

namespace Stands

variable {all : List Token} {width blocks : Nat}

theorem start (width : Nat) (all : List Token) : (start width all).Stands all width 0 :=
  ⟨rfl, rfl, (Nat.zero_mul width).symm⟩

theorem passes (h : s.Stands all width blocks) (hpasses : s.Passes ks t) : t.Stands all width blocks :=
  ⟨hpasses.tokens.trans h.tokens, hpasses.indentation.symm ▸ h.step, hpasses.indentation.symm ▸ h.current⟩

theorem skipLineBreaks (h : s.Stands all width blocks) : s.skipLineBreaks.Stands all width blocks :=
  h.passes (passes_skipLineBreaks s)

theorem skipGroupedLineBreaks (h : s.Stands all width blocks) :
    s.skipGroupedLineBreaks.Stands all width blocks :=
  h.passes (passes_skipGroupedLineBreaks s)

theorem takes (h : s.Stands all width blocks) (htakes : s.Takes token t) :
    t.Stands all width blocks :=
  h.passes htakes.passes

theorem openGroup (h : s.Stands all width blocks) : s.openGroup.Stands all width blocks := by
  unfold State.openGroup
  split
  · exact h
  · exact ⟨h.tokens, h.step, h.current⟩

theorem openBlock (h : s.Stands all width blocks) : s.openBlock.Stands all width (blocks + 1) := by
  refine ⟨h.tokens, h.step, ?_⟩
  change s.indentation.current + s.indentation.step = _
  rw [h.current, h.step, Nat.succ_mul]

theorem nested (h : s.Stands all width blocks) (depth : Nat) :
    ({ s with depth } : State).Stands all width blocks :=
  ⟨h.tokens, h.step, h.current⟩

theorem mem (h : s.Stands all width blocks) (htoken : s.current? = some token) : token ∈ all := by
  obtain ⟨rest, htokens⟩ := tokens_of_current? htoken
  rw [← h.tokens, htokens]
  exact List.mem_append_right _ List.mem_cons_self

theorem mem_of_passes (h : s.Stands all width blocks) (hpasses : s.Passes ks t) (htoken : token ∈ ks) :
    token ∈ all := by
  rw [← h.tokens, State.tokens, hpasses.ahead]
  exact List.mem_append_right _ (List.mem_append_left _ htoken)

end Stands

end Reading.State

end Offside
