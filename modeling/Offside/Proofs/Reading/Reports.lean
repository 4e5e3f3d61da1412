import Offside.Proofs.Reading.Passing
import Offside.Proofs.Reading.Restoring

set_option autoImplicit false

/-!
# When a step of a reading reports a fault

For each step and each way to put readings together: what it means that it reports a diagnostic. Brackets
and blocks that are opened around a reading report what is reported inside, as they can be closed.
-/
namespace Offside.Reading

variable {α β : Type} {s : State} {d : Diagnostic} {kind : Kind}

/-- From the state the reading reports the diagnostic. -/
def Reports (f : Reading α) (s : State) (d : Diagnostic) : Prop := ∃ t, f s = .error (.reported d) t

/-- The next token is not of the kind, which the diagnostic says, or that no token is left. -/
inductive State.Misses (source : String) (kind : Kind) (s : State) : Diagnostic → Prop
  | ended (hdone : s.current? = none) : Misses source kind s ⟨.endOfInput, s.endPosition⟩
  | other {token : Token} (htoken : s.current? = some token) (hkind : token.kind ≠ kind) :
      Misses source kind s ⟨.unexpected kind token.kind (token.text source), token.span.start⟩

/-- The innermost bracket is closed, but the next token is not the one that closes it. -/
def State.Unclosed (source : String) (close : Kind) (s : State) (d : Diagnostic) : Prop :=
  ∃ u, s.closeGroup? = some u ∧ u.Misses source close d

theorem not_reports_of_eq_ok {f : Reading α} {a : α} {t : State} (h : f s = .ok a t) :
    ¬Reports f s d := by
  rintro ⟨u, hu⟩
  cases h.symm.trans hu

@[simp] theorem reports_pure {a : α} : Reports (pure a) s d ↔ False :=
  iff_false_intro (not_reports_of_eq_ok rfl)

@[simp] theorem reports_get : Reports get s d ↔ False := iff_false_intro (not_reports_of_eq_ok rfl)

@[simp] theorem reports_isNext : Reports (isNext kind) s d ↔ False :=
  iff_false_intro (not_reports_of_eq_ok rfl)

@[simp] theorem reports_skipLineBreaks : Reports skipLineBreaks s d ↔ False :=
  iff_false_intro (not_reports_of_eq_ok rfl)

@[simp] theorem reports_skipGroupedLineBreaks : Reports skipGroupedLineBreaks s d ↔ False :=
  iff_false_intro (not_reports_of_eq_ok rfl)

@[simp] theorem reports_accept : Reports (accept kind) s d ↔ False := by
  refine iff_false_intro ?_
  rintro ⟨t, h⟩
  unfold accept at h
  split at h <;> cases h

@[simp] theorem reports_fail {cause : Cause} {position : Position} :
    Reports (fail cause position : Reading α) s d ↔ d = ⟨cause, position⟩ := by
  constructor
  · rintro ⟨t, h⟩
    cases h
    rfl
  · rintro rfl
    exact ⟨s, rfl⟩

@[simp] theorem reports_endOfInput :
    Reports (endOfInput : Reading α) s d ↔ d = ⟨.endOfInput, s.endPosition⟩ := by
  constructor
  · rintro ⟨t, h⟩
    cases h
    rfl
  · rintro rfl
    exact ⟨s, rfl⟩

@[simp] theorem reports_current :
    Reports current s d ↔ s.current? = none ∧ d = ⟨.endOfInput, s.endPosition⟩ := by
  cases hcurrent : s.current? with
  | none => simpa [Reports, current, hcurrent] using reports_endOfInput (α := Token)
  | some token => simp [Reports, current, hcurrent]

@[simp] theorem reports_consume :
    Reports consume s d ↔ s.current? = none ∧ d = ⟨.endOfInput, s.endPosition⟩ := by
  cases hcurrent : s.current? with
  | none => simpa [Reports, consume, hcurrent] using reports_endOfInput (α := Token)
  | some token => simp [Reports, consume, hcurrent]

@[simp] theorem reports_bind {f : Reading α} {g : α → Reading β} :
    Reports (f >>= g) s d ↔ Reports f s d ∨ ∃ a t, f s = .ok a t ∧ Reports (g a) t d := by
  unfold Reports
  rw [bind_apply]
  cases f s with
  | ok a t =>
    constructor
    · exact fun h => .inr ⟨a, t, rfl, h⟩
    · rintro (⟨u, hu⟩ | ⟨a', t', ht, h⟩)
      · cases hu
      · cases ht
        exact h
  | error e t => simp

/-- A reading that looks at its state goes on from there. -/
theorem reports_look {f : State → Reading α} : Reports (get >>= f) s d ↔ Reports (f s) s d := Iff.rfl

@[simp] theorem reports_map {f : Reading α} {g : α → β} : Reports (g <$> f) s d ↔ Reports f s d := by
  rw [← bind_pure_comp, reports_bind]
  simp

@[simp] theorem reports_require {source : String} :
    Reports (require source kind) s d ↔ s.Misses source kind d := by
  simp only [require, reports_bind, reports_current, current_eq_ok]
  constructor
  · rintro (⟨hdone, rfl⟩ | ⟨token, t, ⟨htoken, rfl⟩, h⟩)
    · exact .ended hdone
    · split at h
      next => simp [htoken] at h
      next hkind =>
        obtain rfl := reports_fail.1 h
        exact .other htoken hkind
  · rintro (hdone | ⟨htoken, hkind⟩)
    · exact .inl ⟨hdone, rfl⟩
    · refine .inr ⟨_, _, ⟨htoken, rfl⟩, ?_⟩
      rw [if_neg hkind, reports_fail]

/-- A reading that takes the next token goes on with it, if there is one. -/
theorem reports_taking {f : Token → Reading α} :
    Reports (skipGroupedLineBreaks >>= fun _ => consume >>= f) s d ↔
      s.skipGroupedLineBreaks.current? = none ∧
        d = ⟨.endOfInput, s.skipGroupedLineBreaks.endPosition⟩ ∨
      ∃ token t, s.skipGroupedLineBreaks.Takes token t ∧ Reports (f token) t d := by
  simp only [reports_bind, reports_skipGroupedLineBreaks, false_or, skipGroupedLineBreaks_eq_ok,
    reports_consume, consume_eq_ok]
  constructor
  · rintro ⟨_, _, rfl, h⟩
    exact h
  · exact fun h => ⟨(), _, rfl, h⟩

theorem taking_eq_ok {f : Token → Reading α} {a : α} {u : State} :
    (skipGroupedLineBreaks >>= fun _ => consume >>= f) s = .ok a u ↔
      ∃ token t, s.skipGroupedLineBreaks.Takes token t ∧ f token t = .ok a u := by
  simp only [bind_eq_ok, skipGroupedLineBreaks_eq_ok, consume_eq_ok]
  constructor
  · rintro ⟨_, _, rfl, token, t, htoken, h⟩
    exact ⟨token, t, htoken, h⟩
  · rintro ⟨token, t, htoken, h⟩
    exact ⟨(), _, rfl, token, t, htoken, h⟩

theorem taking_of_takes {f : Token → Reading α} {token : Token} {t : State}
    (h : s.skipGroupedLineBreaks.Takes token t) :
    (skipGroupedLineBreaks >>= fun _ => consume >>= f) s = f token t := by
  have hskip : skipGroupedLineBreaks s = .ok () s.skipGroupedLineBreaks := rfl
  have hconsume : consume s.skipGroupedLineBreaks = .ok token t := consume_eq_ok.2 h
  rw [bind_apply, hskip]
  dsimp only
  rw [bind_apply, hconsume]

theorem taking_of_ended {f : Token → Reading α} (h : s.skipGroupedLineBreaks.current? = none) :
    (skipGroupedLineBreaks >>= fun _ => consume >>= f) s = endOfInput s.skipGroupedLineBreaks := by
  have hskip : skipGroupedLineBreaks s = .ok () s.skipGroupedLineBreaks := rfl
  have hconsume : consume s.skipGroupedLineBreaks = endOfInput s.skipGroupedLineBreaks := by
    rw [consume, h]
  rw [bind_apply, hskip]
  dsimp only
  rw [bind_apply, hconsume]
  rfl

theorem run'_of_eq_ok {f : Reading α} {a : α} {t : State} (h : f s = .ok a t) : f.run' s = some a := by
  delta EStateM.run' EStateM.run
  rw [h]

theorem run'_of_eq_error {f : Reading α} {e : Fault} {t : State} (h : f s = .error e t) :
    f.run' s = none := by
  delta EStateM.run' EStateM.run
  rw [h]

/-- What can be closed on every way out of a reading reports what the reading reports. -/
theorem reports_finishing {f : Reading α} {finish : Reading β} {u : State} (h : Restored u (f s))
    (hfinish : ∀ t, u.SameFrame t → ∃ b v, finish t = .ok b v) :
    Reports (finishing f finish) s d ↔ Reports f s d := by
  unfold Reports finishing
  cases hf : f s with
  | ok a t =>
    rw [hf] at h
    obtain ⟨b, v, hv⟩ := hfinish t h
    simp [seqRight_eq_bind, bind_apply, hv, pure, EStateM.pure]
  | error e t =>
    rw [hf] at h
    cases e with
    | misused m => exact absurd h id
    | reported d' =>
      obtain ⟨b, v, hv⟩ := hfinish t h
      have hthrow : (throw (.reported d') : Reading α) v = .error (.reported d') v := rfl
      simp [seqRight_eq_bind, bind_apply, hv, hthrow]

variable {f : Reading α}

theorem reports_bracketed (hs : s.groups ≠ []) (hf : Restores f) :
    Reports (openGroup >>= fun _ => finishing f closeGroup) s d ↔ Reports f s.openGroup d :=
  reports_finishing (hf _ (groups_openGroup hs)) fun _ ht => by
    obtain ⟨v, hv, _⟩ := closeGroup_of_openGroup hs ht
    exact ⟨(), v, hv⟩

theorem reports_bracketedLines (hs : s.groups ≠ []) (hf : Restores f) :
    Reports (openGroup >>= fun _ => finishing f (skipLineBreaks *> closeGroup)) s d ↔
      Reports f s.openGroup d :=
  reports_finishing (hf _ (groups_openGroup hs)) fun t ht => by
    obtain ⟨v, hv, _⟩ := closeGroup_of_openGroup hs (ht.trans (.skipLineBreaks t))
    exact ⟨(), v, hv⟩

theorem reports_blocked {f : Nat → Reading α} (hf : ∀ level, Restores (f level)) :
    Reports (openBlock >>= fun level => finishing (f level) closeBlock) s d ↔
      Reports (f s.openBlock.indentation.current) s.openBlock d :=
  reports_finishing (hf _ _ (List.cons_ne_nil _ _)) fun _ ht => by
    obtain ⟨level, v, hv, _⟩ := closeBlock_of_openBlock ht
    exact ⟨level, v, hv⟩

@[simp] theorem reports_nested {limit : Nat} : Reports (nested limit f) s d ↔
    limit ≤ s.depth ∧ d = ⟨.nestedTooDeeply limit, s.currentPosition⟩ ∨
      s.depth < limit ∧ Reports f { s with depth := s.depth + 1 } d := by
  by_cases hdepth : limit ≤ s.depth
  · have hfail : nested limit f s = fail (.nestedTooDeeply limit) s.currentPosition s := by
      simp [nested, hdepth]
    simpa [Reports, hfail, hdepth, Nat.not_lt.2 hdepth] using
      reports_fail (α := α) (s := s) (d := d)
  · simp only [Reports, nested, hdepth, if_false, false_and, false_or, Nat.not_le.1 hdepth, true_and]
    cases f { s with depth := s.depth + 1 } <;> simp

end Offside.Reading
