import Offside.Proofs.Reading.Advancing

set_option autoImplicit false

/-!
# Recursions that pass tokens

A reading that calls itself ends because it passes a token before each such call. Told without a bound: in
place of the calls any readings may stand that are right where tokens have been passed. So the recursion has
exactly one solution, and a bound on its depth never matters as long as it exceeds the tokens ahead.
-/
namespace Offside.Reading

/-- The second state stands among the same tokens, further on. -/
def State.Further (s t : State) : Prop := t.tokens = s.tokens ∧ s.position < t.position

namespace State

variable {s t u : State} {token : Token}

theorem Further.onward (h : s.Further t) : s.Onward t := ⟨h.1, Nat.le_of_lt h.2⟩

theorem Further.trans_onward (h : s.Further t) (h' : t.Onward u) : s.Further u :=
  ⟨h'.tokens.trans h.1, Nat.lt_of_lt_of_le h.2 h'.position⟩

theorem Onward.trans_further (h : s.Onward t) (h' : t.Further u) : s.Further u :=
  ⟨h'.1.trans h.tokens, Nat.lt_of_le_of_lt h.position h'.2⟩

theorem Takes.further (h : s.Takes token t) : s.Further t :=
  ⟨h.passes.tokens, by simp [h.passes.position]⟩

theorem length_tokens (s : State) : s.tokens.length = s.position + s.ahead.length := by
  rw [tokens, List.length_append, List.length_reverse, position]

theorem Further.length_ahead_lt (h : s.Further t) : t.ahead.length < s.ahead.length := by
  have hlength := congrArg List.length h.1
  rw [length_tokens, length_tokens] at hlength
  have := h.2
  omega

end State

section Recursion

variable {σ α : Type} {round : (σ → Reading α) → σ → Reading α} {f g : σ → Reading α}

/-- One round gives the reading, whatever is read where it goes on, as long as that is right for states that
are reached behind a token. -/
def Recurs (round : (σ → Reading α) → σ → Reading α) (f : σ → Reading α) : Prop :=
  ∀ rest x s, (∀ y t, s.Further t → rest y t = f y t) → round rest x s = f x s

theorem Recurs.solves (h : Recurs round f) (x : σ) : round f x = f x :=
  funext fun s => h f x s fun _ _ _ => rfl

/-- The recursion has no other solution. -/
theorem Recurs.unique (h : Recurs round f) (hg : ∀ x, g x = round g x) : g = f := by
  have hstate : ∀ n s, s.ahead.length = n → ∀ x, g x s = f x s := by
    intro n
    induction n using Nat.strong_induction_on with
    | _ n ih =>
      intro s hs x
      rw [hg]
      exact h g x s fun y t ht => ih _ (hs ▸ ht.length_ahead_lt) t rfl y
  exact funext fun x => funext fun s => hstate _ s rfl x

/-- A recursion with a bound on its depth is one without, if a round looks at what is read where it goes on
only behind a token and, without tokens, not at all. -/
theorem recurs_of_bounded (bounded : Nat → σ → Reading α) (hsucc : ∀ n, bounded (n + 1) = round (bounded n))
    (hround : ∀ rest n x s, (∀ y t, s.Further t → rest y t = bounded n y t) →
      round rest x s = round (bounded n) x s)
    (hzero : ∀ rest x s, s.ahead = [] → round rest x s = bounded 0 x s) :
    Recurs round fun x => get >>= fun s => bounded s.ahead.length x := by
  -- a round over what the bound `n` reads is the same for all bounds that the tokens ahead do not exceed
  have henough : ∀ n x s, s.ahead.length ≤ n → bounded n x s = bounded s.ahead.length x s := by
    intro n
    induction n using Nat.strong_induction_on with
    | _ n ih =>
      intro x s hs
      cases hn : s.ahead.length with
      | zero =>
        cases n with
        | zero => rfl
        | succ n => rw [hsucc, hzero _ x s (List.length_eq_zero_iff.1 hn)]
      | succ m =>
        obtain ⟨n, rfl⟩ : ∃ k, n = k + 1 := ⟨n - 1, by omega⟩
        rw [hsucc, hsucc]
        refine hround _ m x s fun y t ht => ?_
        have hlt := ht.length_ahead_lt
        rw [ih n (by omega) y t (by omega), ih m (by omega) y t (by omega)]
  intro rest x s hrest
  change _ = bounded s.ahead.length x s
  cases hn : s.ahead.length with
  | zero => exact hzero rest x s (List.length_eq_zero_iff.1 hn)
  | succ n =>
    rw [hsucc]
    refine hround _ n x s fun y t ht => (hrest y t ht).trans ?_
    have hlt := ht.length_ahead_lt
    exact (henough n y t (by omega)).symm

end Recursion

end Offside.Reading
