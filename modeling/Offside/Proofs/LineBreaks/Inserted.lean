import Mathlib.Data.List.Chain
import Offside.Proofs.LineBreaks.Stranded

set_option autoImplicit false

/-!
# A line break put between two tokens

One more line break inside a bracket is passed where the tokens around it are. A reading of the tokens with
it goes side by side with one of the tokens without it: the states differ in the line break only, which is
still ahead or already passed.
-/
namespace Offside

open Reading

namespace Kind

/-- A token of the kind stands before a body. -/
def TakesBody (kind : Kind) : Prop := kind = .arrow ∨ kind = .question

instance (kind : Kind) : Decidable kind.TakesBody :=
  inferInstanceAs (Decidable (kind = .arrow ∨ kind = .question))

end Kind

/-- A place inside a bracket with a line break for it. No indented body stands around it, and the line break
is not put where it would open one. -/
structure Seam where
  before : List Token
  after : List Token
  line : Token
  inside : 0 < nesting before
  after_ne : after ≠ []
  line_kind : line.kind = .newline
  not_last : ∀ k ∈ before.getLast?, ¬k.kind.TakesBody
  inline : (before ++ after).IsChain fun k l => k.kind.TakesBody → l.kind ≠ .newline

namespace Seam

/-- The tokens `ts` stand between the states and the place. -/
structure Before (c : Seam) (ts : List Token) (s s' : State) : Prop where
  before : c.before = s.passed.reverse ++ ts
  ahead : s.ahead = ts ++ c.after
  passed_eq : s'.passed = s.passed
  ahead_eq : s'.ahead = ts ++ c.line :: c.after

/-- The tokens `ts` stand between the place and the states. -/
structure Behind (c : Seam) (ts : List Token) (s s' : State) : Prop where
  passed : s.passed = ts.reverse ++ c.before.reverse
  after : c.after = ts ++ s.ahead
  passed_eq : s'.passed = ts.reverse ++ c.line :: c.before.reverse
  ahead_eq : s'.ahead = s.ahead

/-- The two states differ in the line break only. -/
structure Beside (c : Seam) (s s' : State) : Prop where
  tokens : (∃ ts, c.Before ts s s') ∨ ∃ ts, c.Behind ts s s'
  indentation : s'.indentation = s.indentation
  groups : s'.groups = s.groups
  depth : s'.depth = s.depth

/-- The line break is not the next token. -/
def Clear (c : Seam) (s' : State) : Prop := s'.ahead ≠ c.line :: c.after

namespace Beside

variable {c : Seam} {s s' t : State} {token : Token} {kind : Kind}

theorem start (c : Seam) (indentWidth : Nat) :
    c.Beside (.start indentWidth (c.before ++ c.after))
      (.start indentWidth (c.before ++ c.line :: c.after)) :=
  ⟨.inl ⟨c.before, rfl, rfl, rfl, rfl⟩, rfl, rfl, rfl⟩

/-- The tokens of two states decide whether they are beside each other. -/
theorem tokens_of_eq {t' : State} (h : c.Beside s s') (hp : t.passed = s.passed)
    (ha : t.ahead = s.ahead) (hp' : t'.passed = s'.passed) (ha' : t'.ahead = s'.ahead) :
    (∃ ts, c.Before ts t t') ∨ ∃ ts, c.Behind ts t t' := by
  rcases h.tokens with ⟨ts, h⟩ | ⟨ts, h⟩
  · exact .inl ⟨ts, hp ▸ h.before, ha ▸ h.ahead, hp'.trans (h.passed_eq.trans hp.symm),
      ha'.trans h.ahead_eq⟩
  · exact .inr ⟨ts, hp ▸ h.passed, ha ▸ h.after, hp'.trans h.passed_eq,
      ha'.trans (h.ahead_eq.trans ha.symm)⟩

theorem withDepth (h : c.Beside s s') (f : Nat → Nat) :
    c.Beside { s with depth := f s.depth } { s' with depth := f s'.depth } :=
  ⟨h.tokens_of_eq rfl rfl rfl rfl, h.indentation, h.groups, congrArg f h.depth⟩

theorem inGroup (h : c.Beside s s') : s'.inGroup = s.inGroup := by
  simp only [State.inGroup, h.groups]

/-- The tokens without the line break. -/
theorem around (h : c.Beside s s') : s.passed.reverse ++ s.ahead = c.before ++ c.after := by
  rcases h.tokens with ⟨ts, h⟩ | ⟨ts, h⟩
  · rw [h.ahead, h.before, List.append_assoc]
  · rw [h.passed, h.after, ← List.reverse_append, List.reverse_reverse, List.append_assoc]

theorem current? (h : c.Beside s s') (hc : c.Clear s') : s'.current? = s.current? := by
  rcases h.tokens with ⟨ts, h⟩ | ⟨ts, h⟩
  · cases ts with
    | nil => exact absurd h.ahead_eq hc
    | cons k ts => rw [State.current?, State.current?, h.ahead, h.ahead_eq]; rfl
  · rw [State.current?, State.current?, h.ahead_eq]

theorem isNext (h : c.Beside s s') (hc : c.Clear s') : s'.isNext kind = s.isNext kind := by
  rw [State.isNext, State.isNext, h.current? hc]

theorem done (h : c.Beside s s') : s'.done = s.done := by
  rcases h.tokens with ⟨ts, h⟩ | ⟨ts, h⟩
  · rw [State.done, State.done, h.ahead, h.ahead_eq]
    cases ts with
    | nil => simpa using c.after_ne
    | cons k ts => rfl
  · rw [State.done, State.done, h.ahead_eq]

/-- Where other tokens were passed than those before the place, the line break is not next. -/
theorem clear (h : c.Beside s s') (hs : s.passed ≠ c.before.reverse) : c.Clear s' := by
  intro hnext
  rcases h.tokens with ⟨ts, h⟩ | ⟨ts, h⟩
  · have hnil : ts ++ c.line :: c.after = c.line :: c.after := h.ahead_eq.symm.trans hnext
    have hbefore := h.before
    rw [List.append_left_eq_self.1 hnil, List.append_nil] at hbefore
    rw [hbefore, List.reverse_reverse] at hs
    exact hs rfl
  · have hlength := congrArg List.length (h.ahead_eq.symm.trans hnext)
    have hafter := congrArg List.length h.after
    simp only [List.length_cons, List.length_append] at hlength hafter
    omega

theorem clear_of_isNext (hk : kind ≠ .newline) (h : s'.isNext kind) : c.Clear s' := by
  intro hs
  obtain ⟨k, hcurrent, rfl⟩ := State.isNext_iff.1 h
  rw [State.current?, hs] at hcurrent
  rw [← Option.some.inj hcurrent] at hk
  exact hk c.line_kind

theorem passed_ne (hs : s.Counts []) (hout : ¬s.inGroup) : s.passed ≠ c.before.reverse := by
  intro he
  refine hout (hs.inGroup.2 ?_)
  rw [he, nesting_reverse]
  exact c.inside

/-- Where the line break is next, exactly the tokens before it were passed. -/
theorem of_not_clear (h : c.Beside s s') (hc : ¬c.Clear s') :
    s.passed = c.before.reverse ∧ s.ahead = c.after := by
  have hs : s.passed = c.before.reverse := by_contra fun hs => hc (h.clear hs)
  have haround := h.around
  rw [hs, List.reverse_reverse] at haround
  exact ⟨hs, List.append_cancel_left haround⟩

/-- Outside all brackets the line break is not next. -/
theorem clear_of_not_inGroup (h : c.Beside s s') (hs : s.Counts []) (hout : ¬s.inGroup) :
    c.Clear s' := by
  exact h.clear (passed_ne hs hout)

theorem takes (h : c.Beside s s') (hc : c.Clear s') (ht : s.Takes token t) :
    ∃ t', s'.Takes token t' ∧ c.Beside t t' := by
  have hs : s.ahead = token :: t.ahead := ht.passes.ahead
  have hcurrent : s'.current? = some token := (h.current? hc).trans ht.1
  have htakes : s'.Takes token s'.advance := ⟨hcurrent, rfl⟩
  refine ⟨s'.advance, htakes, ?_, ?_, ?_, ?_⟩
  · have hp : t.passed = token :: s.passed := ht.passes.passed
    have hp' : s'.advance.passed = token :: s'.passed := htakes.passes.passed
    have ha' : s'.ahead = token :: s'.advance.ahead := htakes.passes.ahead
    rcases h.tokens with ⟨ts, h⟩ | ⟨ts, h⟩
    · cases ts with
      | nil => exact absurd h.ahead_eq hc
      | cons k ts =>
        obtain ⟨rfl, ha⟩ := List.cons.inj (hs.symm.trans h.ahead)
        obtain ⟨_, ha''⟩ := List.cons.inj (ha'.symm.trans h.ahead_eq)
        refine .inl ⟨ts, ?_, ha, ?_, ha''⟩
        · rw [h.before, hp, List.reverse_cons, List.append_assoc]
          rfl
        · rw [hp', hp, h.passed_eq]
    · refine .inr ⟨ts ++ [token], ?_, ?_, ?_, ?_⟩
      · rw [hp, h.passed, List.reverse_append]
        rfl
      · rw [h.after, hs, List.append_assoc]
        rfl
      · rw [hp', h.passed_eq, List.reverse_append]
        rfl
      · exact (List.cons.inj (ha'.symm.trans (h.ahead_eq.trans hs))).2
  · rw [htakes.passes.indentation, ht.passes.indentation, h.indentation]
  · rw [htakes.passes.groups, ht.passes.groups, h.groups]
  · rw [htakes.passes.depth, ht.passes.depth, h.depth]

theorem clear_skipLineBreaks (c : Seam) (s' : State) : c.Clear s'.skipLineBreaks := by
  intro he
  have hhead := List.head?_dropWhile_not (·.kind = .newline) s'.ahead
  change s'.ahead.dropWhile _ = _ at he
  rw [he] at hhead
  simp [c.line_kind] at hhead

theorem skipLineBreaks (h : c.Beside s s') : c.Beside s.skipLineBreaks s'.skipLineBreaks := by
  refine ⟨?_, h.indentation, h.groups, h.depth⟩
  rcases h.tokens with ⟨ts, h⟩ | ⟨ts, h⟩
  · have hline : ∀ k ∈ ts.takeWhile (·.kind = .newline), decide (k.kind = .newline) :=
      fun k hk => by simpa using State.kind_of_mem_takeWhile hk
    have hts := @List.takeWhile_append_dropWhile Token (·.kind = .newline) ts
    cases hrest : ts.dropWhile (·.kind = .newline) with
    | nil =>
      -- The line break is passed with the ones that stand directly before it.
      rw [hrest, List.append_nil] at hts
      rw [hts] at hline
      refine .inr ⟨c.after.takeWhile (·.kind = .newline), ?_, ?_, ?_, ?_⟩
      · simp only [State.skipLineBreaks, h.ahead, h.before, List.takeWhile_append_of_pos hline,
          List.reverse_append, List.reverse_reverse, List.append_assoc]
      · simp only [State.skipLineBreaks, h.ahead, List.dropWhile_append_of_pos hline,
          List.takeWhile_append_dropWhile]
      · simp [State.skipLineBreaks, h.ahead_eq, h.before, h.passed_eq, c.line_kind,
          List.takeWhile_append_of_pos hline]
      · simp [State.skipLineBreaks, h.ahead, h.ahead_eq, c.line_kind,
          List.dropWhile_append_of_pos hline]
    | cons k ks =>
      have hk : k.kind ≠ .newline := by
        have hhead := List.head?_dropWhile_not (·.kind = .newline) ts
        rw [hrest] at hhead
        simpa using hhead
      have hs : s.ahead = ts.takeWhile (·.kind = .newline) ++ k :: (ks ++ c.after) := by
        rw [h.ahead, ← List.cons_append, ← hrest, ← List.append_assoc,
          List.takeWhile_append_dropWhile]
      have hs' : s'.ahead = ts.takeWhile (·.kind = .newline) ++ k :: (ks ++ c.line :: c.after) := by
        rw [h.ahead_eq, ← List.cons_append, ← hrest, ← List.append_assoc,
          List.takeWhile_append_dropWhile]
      rw [State.skipLineBreaks_eq hs (fun _ => State.kind_of_mem_takeWhile) hk,
        State.skipLineBreaks_eq hs' (fun _ => State.kind_of_mem_takeWhile) hk]
      refine .inl ⟨k :: ks, ?_, rfl, ?_, rfl⟩
      · rw [List.reverse_append, List.reverse_reverse, List.append_assoc, ← hrest,
          List.takeWhile_append_dropWhile, h.before]
      · simp only [h.passed_eq]
  · refine .inr ⟨ts ++ s.ahead.takeWhile (·.kind = .newline), ?_, ?_, ?_, ?_⟩
    · simp only [State.skipLineBreaks, h.passed, List.reverse_append, List.append_assoc]
    · rw [h.after, List.append_assoc]
      exact congrArg (ts ++ ·) List.takeWhile_append_dropWhile.symm
    · simp only [State.skipLineBreaks, h.passed_eq, h.ahead_eq, List.reverse_append,
        List.append_assoc]
    · simp only [State.skipLineBreaks, h.ahead_eq]

theorem openGroup (h : c.Beside s s') : c.Beside s.openGroup s'.openGroup := by
  have hg := h.groups
  unfold State.openGroup
  rw [hg]
  cases s.groups with
  | nil => exact h
  | cons n outer => exact ⟨h.tokens_of_eq rfl rfl rfl rfl, h.indentation, rfl, h.depth⟩

theorem closeGroup? {u : State} (h : c.Beside s s') (hu : s.closeGroup? = some u) :
    ∃ u', s'.closeGroup? = some u' ∧ c.Beside u u' ∧ u'.ahead = s'.ahead := by
  unfold State.closeGroup? at hu ⊢
  rw [h.groups]
  split at hu
  · cases hu
    exact ⟨_, rfl, ⟨h.tokens_of_eq rfl rfl rfl rfl, h.indentation, rfl, h.depth⟩, rfl⟩
  · cases hu

theorem closes {close : Kind} {stop : Token} (h : c.Beside s s') (hc : c.Clear s')
    (hstop : s.Closes close stop t) : ∃ t', s'.Closes close stop t' ∧ c.Beside t t' := by
  obtain ⟨u, hu, htakes, hk⟩ := hstop
  obtain ⟨u', hu', hbeside, hahead⟩ := h.closeGroup? hu
  obtain ⟨t', ht', hbeside'⟩ := hbeside.takes (by rwa [Clear, hahead]) htakes
  exact ⟨t', ⟨u', hu', ht', hk⟩, hbeside'⟩

theorem skipGroupedLineBreaks (h : c.Beside s s') (hs : s.Counts []) :
    c.Beside s.skipGroupedLineBreaks s'.skipGroupedLineBreaks ∧
      c.Clear s'.skipGroupedLineBreaks := by
  unfold State.skipGroupedLineBreaks
  rw [h.inGroup]
  split
  next => exact ⟨h.skipLineBreaks, clear_skipLineBreaks c s'⟩
  next hout => exact ⟨h, h.clear_of_not_inGroup hs hout⟩

theorem afterLineBreak (h : c.Beside s s') (hs : s.passed ≠ c.before.reverse) :
    s'.afterLineBreak = s.afterLineBreak := by
  rcases h.tokens with ⟨ts, h⟩ | ⟨ts, h⟩
  · rw [State.afterLineBreak, State.afterLineBreak, h.passed_eq]
  · rw [State.afterLineBreak, State.afterLineBreak, h.passed_eq, h.passed]
    cases hts : ts.reverse with
    | nil =>
      have hp := h.passed
      rw [hts] at hp
      exact absurd hp hs
    | cons k ks => rfl

theorem endsLine (h : c.Beside s s') (hs : s.Counts []) (hout : ¬s.inGroup) (hline : s.EndsLine t) :
    ∃ t', s'.EndsLine t' ∧ c.Beside t t' := by
  have hafter := h.afterLineBreak (passed_ne hs hout)
  unfold State.EndsLine at hline ⊢
  rw [h.done, hafter]
  split at hline
  next hd =>
    rw [hline]
    exact ⟨s', by rw [if_pos hd], h⟩
  next hd =>
    obtain ⟨stop, htakes, hk⟩ := hline
    obtain ⟨t', ht', hbeside⟩ := h.takes (h.clear (passed_ne hs hout)) htakes
    exact ⟨t', by rw [if_neg hd]; exact ⟨stop, ht', hk⟩, hbeside⟩

theorem find? (h : c.Beside s s') :
    s'.ahead.find? (·.kind ≠ .newline) = s.ahead.find? (·.kind ≠ .newline) := by
  rcases h.tokens with ⟨ts, h⟩ | ⟨ts, h⟩
  · rw [h.ahead, h.ahead_eq, List.find?_append, List.find?_append, List.find?_cons_of_neg]
    simpa using c.line_kind
  · rw [h.ahead_eq]

/-- The line break changes nothing about how tightly the next token binds. -/
theorem power (h : c.Beside s s') (hs : s.Counts []) (setup : Setup PrefixRule InfixRule) :
    setup.power s' = setup.power s := by
  unfold Setup.power State.power
  rw [h.inGroup]
  by_cases hin : s.inGroup
  · rw [if_pos hin, if_pos hin, h.find?]
  · rw [if_neg hin, if_neg hin, h.afterLineBreak (passed_ne hs hin),
      h.current? (h.clear_of_not_inGroup hs hin)]

/-- Behind an arrow or a question the line break is not next, and no other line break is. -/
theorem body (h : c.Beside s s') {k : Token} (hk : s.passed.head? = some k)
    (hbody : k.kind.TakesBody) : c.Clear s' ∧ ¬s.isNext .newline := by
  constructor
  · refine h.clear fun he => c.not_last k ?_ hbody
    rw [he, List.head?_reverse] at hk
    exact hk
  · intro hnext
    obtain ⟨l, hl, hkind⟩ := State.isNext_iff.1 hnext
    obtain ⟨ls, hl⟩ := State.current?_eq_some_iff.1 hl
    obtain ⟨ks, hk⟩ := List.head?_eq_some_iff.1 hk
    have hchain := c.inline
    rw [← h.around, hk, hl, List.reverse_cons, List.append_assoc] at hchain
    exact (List.isChain_append_cons_cons.1 hchain).2.1 hbody hkind

end Beside

end Seam

end Offside
