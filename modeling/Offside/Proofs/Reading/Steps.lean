import Offside.Reading

set_option autoImplicit false

/-!
# When a step of a reading succeeds

For each step and each way to put readings together: what it means that it gives a value, read as a fact
about the states before and behind it.
-/
namespace Offside.Reading

variable {α β : Type}

theorem bind_apply (f : Reading α) (g : α → Reading β) (s : State) :
    (f >>= g) s = match f s with
      | .ok a t => g a t
      | .error e t => .error e t := by
  change EStateM.bind f g s = _
  unfold EStateM.bind
  cases f s <;> rfl

theorem bind_eq_ok {f : Reading α} {g : α → Reading β} {s u : State} {b : β} :
    (f >>= g) s = .ok b u ↔ ∃ a t, f s = .ok a t ∧ g a t = .ok b u := by
  change EStateM.bind f g s = _ ↔ _
  unfold EStateM.bind
  cases f s with
  | ok a t =>
    constructor
    · exact fun h => ⟨a, t, rfl, h⟩
    · rintro ⟨a', t', h, h'⟩
      cases h
      exact h'
  | error e t => simp

theorem pure_eq_ok {a b : α} {s t : State} :
    (pure a : Reading α) s = .ok b t ↔ a = b ∧ s = t := by
  change EStateM.Result.ok a s = _ ↔ _
  simp

theorem get_eq_ok {s t u : State} : (get : Reading State) s = .ok t u ↔ s = t ∧ s = u := by
  change EStateM.Result.ok s s = _ ↔ _
  simp

theorem fail_eq_ok {cause : Cause} {p : Position} {s t : State} {a : α} :
    (fail cause p : Reading α) s = .ok a t ↔ False := by
  change EStateM.Result.error _ s = _ ↔ _
  simp

theorem endOfInput_eq_ok {s t : State} {a : α} : (endOfInput : Reading α) s = .ok a t ↔ False := by
  simp [endOfInput]

theorem current_eq_ok {s u : State} {t : Token} :
    current s = .ok t u ↔ s.current? = some t ∧ s = u := by
  unfold current endOfInput
  cases s.current? <;> simp

theorem consume_eq_ok {s u : State} {t : Token} :
    consume s = .ok t u ↔ s.current? = some t ∧ s.advance = u := by
  unfold consume endOfInput
  cases s.current? <;> simp

theorem isNext_eq_ok {kind : Kind} {s t : State} {b : Bool} :
    isNext kind s = .ok b t ↔ s.isNext kind = b ∧ s = t := by
  simp [isNext]

theorem accept_eq_ok {kind : Kind} {s t : State} {b : Bool} :
    accept kind s = .ok b t ↔ s.isNext kind = b ∧ (if b then s.advance else s) = t := by
  unfold accept
  cases h : s.isNext kind <;> cases b <;> simp

theorem require_eq_ok {source : String} {kind : Kind} {s u : State} {t : Token} :
    require source kind s = .ok t u ↔ s.current? = some t ∧ t.kind = kind ∧ s.advance = u := by
  simp only [require, bind_eq_ok, current_eq_ok]
  constructor
  · rintro ⟨t', s', ⟨h, rfl⟩, h'⟩
    split at h'
    next hk =>
      obtain ⟨h'', rfl⟩ := consume_eq_ok.1 h'
      obtain rfl := Option.some.inj (h.symm.trans h'')
      exact ⟨h, hk, rfl⟩
    next => exact absurd h' (by simp [fail_eq_ok])
  · rintro ⟨h, hk, rfl⟩
    exact ⟨t, s, ⟨h, rfl⟩, by simp [hk, consume_eq_ok, h]⟩

theorem skipLineBreaks_eq_ok {s t : State} {a : Unit} :
    skipLineBreaks s = .ok a t ↔ s.skipLineBreaks = t := by
  change EStateM.Result.ok () s.skipLineBreaks = _ ↔ _
  simp

theorem skipGroupedLineBreaks_eq_ok {s t : State} {a : Unit} :
    skipGroupedLineBreaks s = .ok a t ↔ s.skipGroupedLineBreaks = t := by
  change EStateM.Result.ok () s.skipGroupedLineBreaks = _ ↔ _
  simp

theorem openGroup_eq_ok {s t : State} {a : Unit} : openGroup s = .ok a t ↔ s.openGroup = t := by
  change EStateM.Result.ok () s.openGroup = _ ↔ _
  simp

theorem closeGroup_eq_ok {s t : State} {a : Unit} :
    closeGroup s = .ok a t ↔ s.closeGroup? = some t := by
  unfold closeGroup
  cases s.closeGroup? <;> simp

theorem openBlock_eq_ok {s t : State} {level : Nat} :
    openBlock s = .ok level t ↔ s.openBlock.indentation.current = level ∧ s.openBlock = t := by
  simp [openBlock]

theorem closeBlock_eq_ok {s t : State} {level : Nat} :
    closeBlock s = .ok level t ↔ s.closeBlock? = some t ∧ t.indentation.current = level := by
  unfold closeBlock
  cases s.closeBlock? with
  | none => simp
  | some u =>
    simp only [EStateM.Result.ok.injEq, Option.some.injEq]
    constructor
    · rintro ⟨h, rfl⟩
      exact ⟨rfl, h⟩
    · rintro ⟨rfl, h⟩
      exact ⟨h, rfl⟩

theorem seqRight_eq_ok {f : Reading α} {g : Reading β} {s u : State} {b : β} :
    (f *> g) s = .ok b u ↔ ∃ a t, f s = .ok a t ∧ g t = .ok b u := by
  rw [seqRight_eq_bind, bind_eq_ok]

theorem finishing_eq_ok {f : Reading α} {g : Reading β} {s u : State} {a : α} :
    finishing f g s = .ok a u ↔ ∃ t b, f s = .ok a t ∧ g t = .ok b u := by
  unfold finishing
  cases f s with
  | ok a' t =>
    simp only [seqRight_eq_ok, pure_eq_ok, EStateM.Result.ok.injEq]
    constructor
    · rintro ⟨b, t', h, rfl, rfl⟩
      exact ⟨t, b, ⟨rfl, rfl⟩, h⟩
    · rintro ⟨t', b, ⟨rfl, rfl⟩, h⟩
      exact ⟨b, u, h, rfl, rfl⟩
  | error e t =>
    cases e with
    | reported d =>
      constructor
      · intro h
        obtain ⟨b, t', _, h'⟩ := seqRight_eq_ok.1 h
        cases h'
      · rintro ⟨t', b, h, _⟩
        cases h
    | misused m => simp

theorem nested_eq_ok {limit : Nat} {f : Reading α} {s u : State} {a : α} :
    nested limit f s = .ok a u ↔ s.depth < limit ∧
      ∃ t, f { s with depth := s.depth + 1 } = .ok a t ∧ { t with depth := t.depth - 1 } = u := by
  unfold nested
  split
  next h => simp [fail_eq_ok, Nat.not_lt.2 h]
  next h =>
    simp only [Nat.not_le.1 h, true_and]
    cases f { s with depth := s.depth + 1 } with
    | ok a' t =>
      simp only [EStateM.Result.ok.injEq]
      constructor
      · rintro ⟨rfl, h⟩
        exact ⟨t, ⟨rfl, rfl⟩, h⟩
      · rintro ⟨t', ⟨rfl, rfl⟩, h⟩
        exact ⟨rfl, h⟩
    | error e t => simp

end Offside.Reading
