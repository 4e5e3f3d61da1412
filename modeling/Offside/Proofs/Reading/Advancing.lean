import Offside.Proofs.Reading.Compositional
import Offside.Proofs.Reading.Standing
import Offside.Proofs.Reading.Steps

set_option autoImplicit false

/-!
# Readings never go back

Whether a reading gives something, reports a fault or misuses a step, it ends among the tokens where it
started, at the same place or further on.
-/
namespace Offside

namespace Reading

variable {α β : Type}

/-- The second state stands among the same tokens and no further back. -/
structure State.Onward (s t : State) : Prop where
  tokens : t.tokens = s.tokens
  position : s.position ≤ t.position

namespace State

variable {s t u : State} {ks : List Token}

namespace Onward

theorem refl (s : State) : s.Onward s := ⟨rfl, Nat.le_refl _⟩

theorem trans (h : s.Onward t) (h' : t.Onward u) : s.Onward u :=
  ⟨h'.tokens.trans h.tokens, Nat.le_trans h.position h'.position⟩

end Onward

theorem Passes.position (h : s.Passes ks t) : t.position = ks.length + s.position := by
  rw [State.position, h.passed, List.length_append, List.length_reverse]
  rfl

theorem Passes.onward (h : s.Passes ks t) : s.Onward t :=
  ⟨h.tokens, by rw [h.position]; exact Nat.le_add_left _ _⟩

theorem onward_advance (s : State) : s.Onward s.advance := by
  unfold advance
  split
  · exact .refl s
  next token rest hahead => exact ⟨by simp [tokens, hahead], Nat.le_succ _⟩

theorem onward_skipLineBreaks (s : State) : s.Onward s.skipLineBreaks :=
  (passes_skipLineBreaks s).onward

theorem onward_skipGroupedLineBreaks (s : State) : s.Onward s.skipGroupedLineBreaks :=
  (passes_skipGroupedLineBreaks s).onward

theorem onward_openGroup (s : State) : s.Onward s.openGroup := by
  unfold openGroup
  split <;> exact ⟨rfl, Nat.le_refl _⟩

theorem onward_closeGroup? (h : s.closeGroup? = some t) : s.Onward t := by
  unfold closeGroup? at h
  split at h
  · cases h
    exact ⟨rfl, Nat.le_refl _⟩
  · cases h

theorem onward_openBlock (s : State) : s.Onward s.openBlock := ⟨rfl, Nat.le_refl _⟩

theorem onward_closeBlock? (h : s.closeBlock? = some t) : s.Onward t := by
  obtain ⟨_, _, rfl⟩ := Option.map_eq_some_iff.1 h
  exact ⟨rfl, Nat.le_refl _⟩

end State

/-- The result of a reading has come to a state further on, whatever it is. -/
def Advanced (s : State) : EStateM.Result Fault State α → Prop
  | .ok _ t => s.Onward t
  | .error _ t => s.Onward t

/-- The reading never goes back. -/
def Advances (f : Reading α) : Prop := ∀ s, Advanced s (f s)

theorem Advanced.trans {s t : State} {r : EStateM.Result Fault State α} (h : s.Onward t)
    (hr : Advanced t r) : Advanced s r := by
  rcases r with ⟨a, u⟩ | ⟨e, u⟩
  · exact State.Onward.trans h hr
  · exact State.Onward.trans h hr

namespace Advances

variable {f : Reading α} {g : α → Reading β} {finish : Reading β} {s t : State}

theorem of_eq_ok {a : α} (h : Advances f) (hs : f s = .ok a t) : s.Onward t := by
  have hr := h s
  rwa [hs] at hr

theorem of_eq_error {e : Fault} (h : Advances f) (hs : f s = .error e t) : s.Onward t := by
  have hr := h s
  rwa [hs] at hr

theorem value (a : α) : Advances (pure a : Reading α) := State.Onward.refl

theorem fault (e : Fault) : Advances (throw e : Reading α) := State.Onward.refl

theorem bind (hf : Advances f) (hg : ∀ a, Advances (g a)) : Advances (f >>= g) := by
  intro s
  rw [bind_apply]
  cases hs : f s with
  | ok a t => exact .trans (hf.of_eq_ok hs) (hg a t)
  | error e t => exact hf.of_eq_error hs

theorem andThen (hf : Advances f) (hfinish : Advances finish) : Advances (f *> finish) := by
  rw [seqRight_eq_bind]
  exact hf.bind fun _ => hfinish

theorem skipLineBreaks : Advances skipLineBreaks := State.onward_skipLineBreaks

theorem closeGroup : Advances closeGroup := by
  intro s
  unfold Reading.closeGroup
  cases hclose : s.closeGroup? with
  | some t => exact s.onward_closeGroup? hclose
  | none => exact .refl s

theorem closeBlock : Advances closeBlock := by
  intro s
  unfold Reading.closeBlock
  cases hclose : s.closeBlock? with
  | some t => exact s.onward_closeBlock? hclose
  | none => exact .refl s

theorem finishing (hf : Advances f) (hfinish : Advances finish) : Advances (finishing f finish) := by
  intro s
  unfold Reading.finishing
  cases hs : f s with
  | ok a t => exact .trans (hf.of_eq_ok hs) (hfinish.andThen (.value a) t)
  | error e t =>
    cases e with
    | reported d => exact .trans (hf.of_eq_error hs) (hfinish.andThen (.fault _) t)
    | misused m => exact hf.of_eq_error hs

end Advances

/-- No step of a reading goes back, and so does nothing that is put together from readings. -/
theorem advances {P I : Type} (setup : Setup P I) : Compositional setup @Advances where
  value := .value
  bind := .bind
  fault _ _ := .fault _
  endOfInput := fun s => .refl s
  current := by
    intro s
    unfold current
    split <;> exact .refl s
  consume := by
    intro s
    unfold consume
    split
    · exact s.onward_advance
    · exact .refl s
  isNext kind := fun s => .refl s
  accept kind := by
    intro s
    unfold accept
    split
    · exact s.onward_advance
    · exact .refl s
  skipLineBreaks := State.onward_skipLineBreaks
  skipGroupedLineBreaks := State.onward_skipGroupedLineBreaks
  look _ h := fun s => h s s
  bracketed h := fun s => .trans s.onward_openGroup (h.finishing .closeGroup _)
  bracketedLines h := fun s => .trans s.onward_openGroup
    (h.finishing (.andThen .skipLineBreaks .closeGroup) _)
  blocked h := fun s => .trans s.onward_openBlock ((h _).finishing .closeBlock _)
  nested := by
    intro α f h s
    have hf := h { s with depth := s.depth + 1 }
    unfold nested
    split
    · exact .refl s
    · cases hs : f { s with depth := s.depth + 1 } with
      | ok a t =>
        rw [hs] at hf
        exact ⟨hf.tokens, hf.position⟩
      | error e t =>
        rw [hs] at hf
        exact ⟨hf.tokens, hf.position⟩

end Reading

end Offside
