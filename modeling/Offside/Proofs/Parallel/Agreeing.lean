import Offside.Proofs.Parallel.Beside

set_option autoImplicit false

/-!
# Readings that agree

Two readings agree if, side by side, they give what corresponds and stop for the same reason, and come to
states that stand side by side again. Steps agree, and so do readings that are put together alike from
readings that agree.
-/
namespace Offside

open Reading

/-- A reading that looks at its state goes on from there. -/
theorem Reading.look_apply {α : Type} (f : State → Reading α) (s : State) : (get >>= f) s = f s s := rfl

namespace Parallel

variable {c : Parallel} {α α' β β' γ γ' : Type}

/-- The faults have the same cause, and their positions agree in what is kept of them. -/
inductive SameFault (c : Parallel) : Fault → Fault → Prop
  | reported {d d' : Diagnostic} (hcause : d'.cause = d.cause)
      (hmark : c.mark d'.position = c.mark d.position) : SameFault c (.reported d) (.reported d')
  | misused (misuse : Misuse) : SameFault c (.misused misuse) (.misused misuse)

/-- The results are values that are related, or the same fault, in states further on side by side. -/
inductive Agreed (c : Parallel) (R : α → α' → Prop) (s : State) :
    EStateM.Result Fault State α → EStateM.Result Fault State α' → Prop
  | value {a : α} {a' : α'} {t t' : State} (h : R a a') (hbeside : c.Beside t t') (honward : s.Onward t) :
      Agreed c R s (.ok a t) (.ok a' t')
  | fault {e e' : Fault} {t t' : State} (h : c.SameFault e e') (hbeside : c.Beside t t')
      (honward : s.Onward t) : Agreed c R s (.error e t) (.error e' t')

/-- From states side by side the readings come to results that agree. -/
def Agree (c : Parallel) (R : α → α' → Prop) (f : Reading α) (f' : Reading α') : Prop :=
  ∀ s s', c.Past s → c.Beside s s' → c.Agreed R s (f s) (f' s')

section Readings

variable {R : α → α' → Prop} {Q : β → β' → Prop} {f : Reading α} {f' : Reading α'}
  {g : α → Reading β} {g' : α' → Reading β'} {s s' t : State}

theorem Agreed.trans {r : EStateM.Result Fault State α} {r' : EStateM.Result Fault State α'}
    (hs : s.Onward t) (h : c.Agreed R t r r') : c.Agreed R s r r' := by
  cases h with
  | value h hbeside honward => exact .value h hbeside (hs.trans honward)
  | fault h hbeside honward => exact .fault h hbeside (hs.trans honward)

theorem Agreed.bind (hpast : c.Past s) (h : c.Agreed R s (f s) (f' s'))
    (hg : ∀ a a', R a a' → c.Agree Q (g a) (g' a')) :
    c.Agreed Q s ((f >>= g) s) ((f' >>= g') s') := by
  rw [bind_apply, bind_apply]
  generalize f s = r, f' s' = r' at h
  cases h with
  | value ha hbeside honward => exact .trans honward (hg _ _ ha _ _ (c.onward hpast honward) hbeside)
  | fault he hbeside honward => exact .fault he hbeside honward

theorem Agreed.finishing {finish : Reading γ} {finish' : Reading γ'} (hpast : c.Past s)
    (h : c.Agreed R s (f s) (f' s')) (hfinish : c.Agree (fun _ _ => True) finish finish') :
    c.Agreed R s (finishing f finish s) (finishing f' finish' s') := by
  unfold Reading.finishing
  generalize f s = r, f' s' = r' at h
  cases h with
  | value ha hbeside honward =>
    have hpast := c.onward hpast honward
    simp only [seqRight_eq_bind]
    exact .trans honward (.bind hpast (hfinish _ _ hpast hbeside) fun _ _ _ u _ _ hu =>
      .value ha hu (.refl u))
  | fault he hbeside honward =>
    have hpast := c.onward hpast honward
    cases he with
    | reported hcause hmark =>
      simp only [seqRight_eq_bind]
      exact .trans honward (.bind hpast (hfinish _ _ hpast hbeside) fun _ _ _ u _ _ hu =>
        .fault (.reported hcause hmark) hu (.refl u))
    | misused misuse => exact .fault (.misused misuse) hbeside honward

namespace Agree

theorem bind (h : c.Agree R f f') (hg : ∀ a a', R a a' → c.Agree Q (g a) (g' a')) :
    c.Agree Q (f >>= g) (f' >>= g') :=
  fun s s' hpast hs => .bind hpast (h s s' hpast hs) hg

theorem value {a : α} {a' : α'} (h : R a a') : c.Agree R (pure a) (pure a') :=
  fun s _ _ hs => .value h hs (.refl s)

theorem fault (cause : Cause) {position position' : Position}
    (h : c.mark position' = c.mark position) :
    c.Agree R (fail cause position) (fail cause position') :=
  fun s _ _ hs => .fault (.reported rfl h) hs (.refl s)

theorem endOfInput : c.Agree R endOfInput endOfInput :=
  fun s _ _ hs => .fault (.reported rfl hs.mark_endPosition) hs (.refl s)

theorem current : c.Agree c.Alike current current := by
  intro s s' hpast hs
  unfold Reading.current
  obtain ⟨hk, hk'⟩ | ⟨k, k', hk, hk', halike⟩ := hs.current?
  · rw [hk, hk']
    exact endOfInput s s' hpast hs
  · rw [hk, hk']
    exact .value halike hs (.refl s)

theorem consume : c.Agree c.Alike consume consume := by
  intro s s' hpast hs
  unfold Reading.consume
  obtain ⟨hk, hk'⟩ | ⟨k, k', hk, hk', halike⟩ := hs.current?
  · rw [hk, hk']
    exact endOfInput s s' hpast hs
  · rw [hk, hk']
    exact .value halike hs.advance s.onward_advance

theorem isNext (kind : Kind) : c.Agree Eq (isNext kind) (isNext kind) :=
  fun s _ _ hs => .value (hs.isNext kind).symm hs (.refl s)

theorem accept (kind : Kind) : c.Agree Eq (accept kind) (accept kind) := by
  intro s s' _ hs
  simp only [Reading.accept, hs.isNext]
  split
  · exact .value rfl hs.advance s.onward_advance
  · exact .value rfl hs (.refl s)

theorem require (kind : Kind) : c.Agree (fun k k' => c.Alike k k' ∧ k.kind = kind)
    (require c.source kind) (require c.source' kind) := by
  intro s s' hpast hs
  simp only [Reading.require, bind_apply, Reading.current]
  obtain ⟨hk, hk'⟩ | ⟨k, k', hk, hk', halike⟩ := hs.current?
  · rw [hk, hk']
    exact endOfInput s s' hpast hs
  · simp only [hk, hk', c.kind_eq halike, c.text_eq halike]
    split
    next hkind =>
      rw [consume_eq_ok.2 ⟨hk, rfl⟩, consume_eq_ok.2 ⟨hk', rfl⟩]
      exact .value ⟨halike, hkind⟩ hs.advance s.onward_advance
    next => exact fault _ (c.start_eq halike) s s' hpast hs

theorem skipLineBreaks : c.Agree Eq skipLineBreaks skipLineBreaks :=
  fun s _ _ hs => .value rfl hs.skipLineBreaks s.onward_skipLineBreaks

theorem skipGroupedLineBreaks : c.Agree Eq skipGroupedLineBreaks skipGroupedLineBreaks :=
  fun s _ _ hs => .value rfl hs.skipGroupedLineBreaks s.onward_skipGroupedLineBreaks

theorem openGroup : c.Agree Eq openGroup openGroup :=
  fun s _ _ hs => .value rfl hs.openGroup s.onward_openGroup

theorem closeGroup : c.Agree (fun _ _ => True) closeGroup closeGroup := by
  intro s s' _ hs
  unfold Reading.closeGroup
  obtain ⟨ht, ht'⟩ | ⟨t, t', ht, ht', hbeside⟩ := hs.closeGroup?
  · rw [ht, ht']
    exact .fault (.misused _) hs (.refl s)
  · rw [ht, ht']
    exact .value trivial hbeside (s.onward_closeGroup? ht)

theorem closeBlock : c.Agree (fun _ _ => True) closeBlock closeBlock := by
  intro s s' _ hs
  unfold Reading.closeBlock
  obtain ⟨ht, ht'⟩ | ⟨t, t', ht, ht', hbeside⟩ := hs.closeBlock?
  · rw [ht, ht']
    exact .fault (.misused _) hs (.refl s)
  · rw [ht, ht']
    exact .value trivial hbeside (s.onward_closeBlock? ht)

theorem finishing {finish : Reading γ} {finish' : Reading γ'} (h : c.Agree R f f')
    (hfinish : c.Agree (fun _ _ => True) finish finish') :
    c.Agree R (finishing f finish) (finishing f' finish') :=
  fun s s' hpast hs => .finishing hpast (h s s' hpast hs) hfinish

theorem look {f : State → Reading α} {f' : State → Reading α'}
    (h : ∀ s s', c.Past s → c.Beside s s' → c.Agreed R s (f s s) (f' s' s')) :
    c.Agree R (get >>= f) (get >>= f') := h

/-- Behind line breaks the next token is none. -/
theorem behindLineBreaks (h : ∀ s s', c.Past s → c.Beside s s' →
      (∀ token, s.current? = some token → token.kind ≠ .newline) → c.Agreed R s (f s) (f' s')) :
    c.Agree R (Reading.skipLineBreaks >>= fun _ => f) (Reading.skipLineBreaks >>= fun _ => f') :=
  fun s _ hpast hs => .trans s.onward_skipLineBreaks (h _ _ (c.onward hpast s.onward_skipLineBreaks)
    hs.skipLineBreaks fun _ => State.ne_newline_of_skipLineBreaks)

theorem nested (h : c.Agree R f f') :
    c.Agree R (nested c.settings.maxDepth f) (nested c.settings.maxDepth f') := by
  intro s s' hpast hs
  have hdeeper := hs.withDepth (· + 1)
  have hf := h _ _ (c.onward (t := { s with depth := s.depth + 1 }) hpast ⟨rfl, Nat.le_refl _⟩) hdeeper
  unfold Reading.nested
  simp only [hs.depth] at hf ⊢
  split
  · exact fault _ hs.mark_currentPosition s s' hpast hs
  · generalize f { s with depth := s.depth + 1 } = r, f' { s' with depth := s.depth + 1 } = r' at hf
    cases hf with
    | value ha ht honward =>
      exact .value ha (ht.withDepth (· - 1)) ⟨honward.tokens, honward.position⟩
    | fault he ht honward =>
      exact .fault he (ht.withDepth (· - 1)) ⟨honward.tokens, honward.position⟩

end Agree

end Readings

end Parallel

end Offside
