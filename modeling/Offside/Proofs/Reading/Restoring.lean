import Offside.Proofs.Reading.Compositional
import Offside.Proofs.Reading.Steps

set_option autoImplicit false

/-!
# Readings restore what they open

A reading opens brackets, blocks and expressions and closes them again on every way out. The levels of the
open blocks, the open brackets of each level and the depth are what they were before, whether a tree was
read or a fault was reported, and nothing is ever closed that was not open.
-/
namespace Offside

namespace Reading

variable {α β : Type}

/-- The open blocks, the open brackets of each level and the depth are the same. -/
structure State.SameFrame (s t : State) : Prop where
  indentation : t.indentation = s.indentation
  groups : t.groups = s.groups
  depth : t.depth = s.depth

namespace State.SameFrame

variable {s t u : State}

theorem refl (s : State) : s.SameFrame s := ⟨rfl, rfl, rfl⟩

theorem trans (h : s.SameFrame t) (h' : t.SameFrame u) : s.SameFrame u :=
  ⟨h'.indentation.trans h.indentation, h'.groups.trans h.groups, h'.depth.trans h.depth⟩

theorem advance (s : State) : s.SameFrame s.advance := by
  unfold State.advance
  split
  · exact .refl s
  · exact ⟨rfl, rfl, rfl⟩

theorem skipLineBreaks (s : State) : s.SameFrame s.skipLineBreaks := ⟨rfl, rfl, rfl⟩

theorem skipGroupedLineBreaks (s : State) : s.SameFrame s.skipGroupedLineBreaks := by
  unfold State.skipGroupedLineBreaks
  split
  · exact .skipLineBreaks s
  · exact .refl s

end State.SameFrame

/-- The result is a value or a reported fault, in a state with the property, and no misuse. -/
def Ends (P : State → Prop) : EStateM.Result Fault State α → Prop
  | .ok _ t => P t
  | .error (.reported _) t => P t
  | .error (.misused _) _ => False

section Ends

variable {P Q : State → Prop} {f : Reading α} {s : State}

theorem Ends.imp {r : EStateM.Result Fault State α} (h : Ends P r) (hP : ∀ t, P t → Q t) : Ends Q r := by
  rcases r with ⟨a, t⟩ | ⟨e, t⟩
  · exact hP t h
  · cases e with
    | reported d => exact hP t h
    | misused m => exact h

theorem ends_bind {g : α → Reading β} (h : Ends P (f s)) (hP : ∀ t, P t → Q t)
    (hg : ∀ a t, P t → Ends Q (g a t)) : Ends Q ((f >>= g) s) := by
  rw [bind_apply]
  cases hf : f s with
  | ok a t =>
    rw [hf] at h
    exact hg a t h
  | error e t =>
    rw [hf] at h
    cases e with
    | reported d => exact hP t h
    | misused m => exact h

theorem ends_look {f : State → Reading α} (h : Ends P (f s s)) : Ends P ((get >>= f) s) := h

/-- What can be done wherever a reading ends is done behind it, also behind a fault. -/
theorem ends_finishing {finish : Reading β} (h : Ends P (f s))
    (hfinish : ∀ t, P t → ∃ b v, finish t = .ok b v ∧ Q v) : Ends Q (finishing f finish s) := by
  unfold finishing
  cases hf : f s with
  | ok a t =>
    rw [hf] at h
    obtain ⟨b, v, hv, hQ⟩ := hfinish t h
    simp only [seqRight_eq_bind, bind_apply, hv]
    exact hQ
  | error e t =>
    rw [hf] at h
    cases e with
    | reported d =>
      obtain ⟨b, v, hv, hQ⟩ := hfinish t h
      simp only [seqRight_eq_bind, bind_apply, hv]
      exact hQ
    | misused m => exact absurd h id

/-- The depth is one more inside, and is lowered by one on either way out. -/
theorem ends_nested {limit : Nat} (hs : Q s) (h : Ends P (f { s with depth := s.depth + 1 }))
    (hP : ∀ t, P t → Q { t with depth := t.depth - 1 }) : Ends Q (nested limit f s) := by
  unfold nested
  split
  · exact hs
  · cases hf : f { s with depth := s.depth + 1 } with
    | ok a t =>
      rw [hf] at h
      exact hP t h
    | error e t =>
      rw [hf] at h
      cases e with
      | reported d => exact hP t h
      | misused m => exact h

end Ends

/-- The result of a reading, be it a value or a reported fault, has come with the frame of the state, and
is no misuse. -/
def Restored (s : State) : EStateM.Result Fault State α → Prop
  | .ok _ t => s.SameFrame t
  | .error (.reported _) t => s.SameFrame t
  | .error (.misused _) _ => False

/-- The reading restores the frame of every state that counts the brackets of some level. -/
def Restores (f : Reading α) : Prop := ∀ s, s.groups ≠ [] → Restored s (f s)

theorem Restored.trans {s t : State} {r : EStateM.Result Fault State α} (h : s.SameFrame t)
    (hr : Restored t r) : Restored s r :=
  Ends.imp hr fun _ => h.trans

theorem Restores.bind {f : Reading α} {g : α → Reading β} (hf : Restores f)
    (hg : ∀ a, Restores (g a)) : Restores (f >>= g) := by
  intro s hs
  refine ends_bind (hf s hs) (fun _ ht => ht) fun a t ht => ?_
  have hgroups : t.groups ≠ [] := by
    rw [State.SameFrame.groups ht]
    exact hs
  exact Restored.trans ht (hg a t hgroups)

/-- A bracket that was opened can be closed wherever its frame is reached. -/
theorem closeGroup_of_openGroup {s t : State} (hs : s.groups ≠ []) (h : s.openGroup.SameFrame t) :
    ∃ v, closeGroup t = .ok () v ∧ s.SameFrame v := by
  obtain ⟨n, outer, hg⟩ := List.exists_cons_of_ne_nil hs
  have ho : s.openGroup = { s with groups := (n + 1) :: outer } := by simp [State.openGroup, hg]
  rw [ho] at h
  have ht : t.groups = (n + 1) :: outer := h.groups
  refine ⟨{ t with groups := n :: outer }, ?_, h.indentation, hg.symm, h.depth⟩
  simp [closeGroup, State.closeGroup?, ht]

theorem groups_openGroup {s : State} (hs : s.groups ≠ []) : s.openGroup.groups ≠ [] := by
  obtain ⟨n, outer, hg⟩ := List.exists_cons_of_ne_nil hs
  simp [State.openGroup, hg]

/-- A block that was opened can be closed wherever its frame is reached. -/
theorem closeBlock_of_openBlock {s t : State} (h : s.openBlock.SameFrame t) :
    ∃ level v, closeBlock t = .ok level v ∧ s.SameFrame v := by
  have hi : t.indentation = s.indentation.increase := h.indentation
  have hg : t.groups = 0 :: s.groups := h.groups
  have hclose : t.closeBlock? = some { t with indentation := s.indentation, groups := s.groups } := by
    simp [State.closeBlock?, hi, Indentation.decrease?_increase, hg]
  exact ⟨_, _, closeBlock_eq_ok.2 ⟨hclose, rfl⟩, rfl, rfl, h.depth⟩

/-- Every step of a reading restores, and so does what is put together from readings that do. -/
theorem restores {P I : Type} (setup : Setup P I) : Compositional setup @Restores where
  value a := fun s _ => .refl s
  bind := .bind
  fault cause position := fun s _ => .refl s
  endOfInput := fun s _ => .refl s
  current := by
    intro s _
    unfold current
    split
    · exact .refl s
    · exact .refl s
  consume := by
    intro s _
    unfold consume
    split
    · exact .advance s
    · exact .refl s
  isNext kind := fun s _ => .refl s
  accept kind := by
    intro s _
    unfold accept
    split
    · exact .advance s
    · exact .refl s
  skipLineBreaks := fun s _ => .skipLineBreaks s
  skipGroupedLineBreaks := fun s _ => .skipGroupedLineBreaks s
  look _ h := fun s hs => h s s hs
  bracketed h := fun s hs => ends_finishing (h _ (groups_openGroup hs)) fun t ht => by
    obtain ⟨v, hv, hsv⟩ := closeGroup_of_openGroup hs ht
    exact ⟨(), v, hv, hsv⟩
  bracketedLines h := fun s hs => ends_finishing (h _ (groups_openGroup hs)) fun t ht => by
    obtain ⟨v, hv, hsv⟩ := closeGroup_of_openGroup hs (ht.trans (.skipLineBreaks t))
    exact ⟨(), v, hv, hsv⟩
  blocked h := fun s _ => ends_finishing (h _ _ (List.cons_ne_nil _ _)) fun t ht =>
    closeBlock_of_openBlock ht
  nested h := fun s hs => ends_nested (.refl s) (h { s with depth := s.depth + 1 } hs) fun _ ht =>
    ⟨ht.indentation, ht.groups, by simp [ht.depth]⟩

end Reading

end Offside
