import Offside.Proofs.Relayout.Alongside

set_option autoImplicit false

/-!
# Failures of two layouts

What is reported of one layout of a text is reported of the other one. Only the columns that a diagnostic
tells are those of the other layout.
-/
namespace Offside

open Reading

/-- The cause with the columns it tells moved. -/
def Cause.relocate (column : Nat → Nat) : Cause → Cause
  | .indentation expected found => .indentation (column expected) (column found)
  | cause => cause

namespace Relayout

variable {c : Relayout} {settings : Settings} {task task' : Task} {s s' t u : State} {d : Diagnostic}
  {token : Token} {kind close : Kind} {items : List Tree}

/-- The task reports the same of the second layout, with the columns that correspond. -/
def Repeats (c : Relayout) (settings : Settings) (s : State) (d : Diagnostic) (task : Task) : Prop :=
  ∀ task' s', c.Corresponds task task' → c.Ready s s' task →
    ∃ d', Failure (c.setup' settings) task' s' d' ∧ d'.cause = d.cause.relocate c.column

@[simp] theorem source_setup : (c.setup settings).source = c.source := rfl

@[simp] theorem source_setup' : (c.setup' settings).source = c.source' := rfl

/-! ### What is reported of single steps -/

theorem Beside.misses (h : c.Beside s s') (hmiss : s.Misses c.source kind d) :
    ∃ d', s'.Misses c.source' kind d' ∧ d'.cause = d.cause.relocate c.column := by
  cases hmiss with
  | ended hdone => exact ⟨_, .ended (h.current?_eq_none hdone), rfl⟩
  | other htoken hkind =>
    obtain ⟨token', htoken', halike, _⟩ := h.current? htoken
    exact ⟨_, .other htoken' (halike.1.trans_ne hkind), by simp only [Cause.relocate, halike.1, halike.2]⟩

theorem Beside.unclosed (h : c.Beside s s') (hstop : s.Unclosed c.source close d) :
    ∃ d', s'.Unclosed c.source' close d' ∧ d'.cause = d.cause.relocate c.column := by
  obtain ⟨u, hu, hmiss⟩ := hstop
  obtain ⟨u', hu', hbeside⟩ := h.closeGroup? hu
  obtain ⟨d', hmiss', hcause⟩ := hbeside.misses hmiss
  exact ⟨d', ⟨u', hu', hmiss'⟩, hcause⟩

/-- What is refused is refused of the other layout. -/
theorem Corresponds.refusal? (h : c.Corresponds task task') (hrefusal : task.refusal? c.source = some d) :
    ∃ d', task'.refusal? c.source' = some d' ∧ d'.cause = d.cause.relocate c.column := by
  cases h with
  | @start rule token token' halike =>
    cases rule with
    | identifier | boolean | parenthesis | list => cases hrefusal
    | number | string | unary =>
      simp only [Task.refusal?, halike.1, halike.2] at hrefusal ⊢
      split at hrefusal
      next hrefused =>
        cases hrefusal
        exact ⟨_, if_pos hrefused, rfl⟩
      next => cases hrefusal
  | @continuation rule left left' token token' hleft halike =>
    cases rule with
    | conditional | call | index => cases hrefusal
    | binary | function =>
      simp only [Task.refusal?, halike.1, halike.2, Tree.parameters?_congr hleft] at hrefusal ⊢
      split at hrefusal
      next hrefused =>
        cases hrefusal
        exact ⟨_, if_pos hrefused, rfl⟩
      next => cases hrefusal
    | assignment =>
      simp only [Task.refusal?, halike.2, Tree.isAssignable_congr hleft] at hrefusal ⊢
      split at hrefusal
      next => cases hrefusal
      next hrefused =>
        cases hrefusal
        exact ⟨_, if_neg hrefused, rfl⟩
  | _ => cases hrefusal

/-- What a rule reads behind its token is read of the other layout. -/
theorem Corresponds.operand? (h : c.Corresponds task task') {operand : Task} {power : Kind → Int}
    (hreads : task.operand? power = some operand) (hs : c.Ready s s' task) :
    ∃ operand', task'.operand? power = some operand' ∧ c.Corresponds operand operand' ∧
      c.Ready s s' operand := by
  cases h with
  | @start rule token token' halike =>
    cases rule with
    | unary =>
      simp only [Task.operand?, halike.1] at hreads ⊢
      split at hreads
      next => cases hreads
      next hoperator =>
        cases hreads
        exact ⟨_, if_neg hoperator, .expression, hs⟩
    | _ => cases hreads
  | @continuation rule left left' token token' hleft halike =>
    cases rule with
    | binary =>
      simp only [Task.operand?, halike.1] at hreads ⊢
      split at hreads
      next => cases hreads
      next hoperator =>
        cases hreads
        exact ⟨_, if_neg hoperator, .expression, hs⟩
    | assignment =>
      simp only [Task.operand?, halike.1, Tree.isAssignable_congr hleft] at hreads ⊢
      split at hreads
      next htarget =>
        cases hreads
        exact ⟨_, if_pos htarget, .expression, hs⟩
      next => cases hreads
    | conditional =>
      cases hreads
      exact ⟨_, rfl, .body, hs⟩
    | function =>
      simp only [Task.operand?, Tree.parameters?_congr hleft] at hreads ⊢
      split at hreads
      next => cases hreads
      next hparameters =>
        cases hreads
        exact ⟨_, if_neg hparameters, .body, hs⟩
    | call | index => cases hreads
  | _ => cases hreads

theorem Corresponds.close? (h : c.Corresponds task task') : task'.close? = task.close? := by
  cases h with
  | @start rule _ _ _ => cases rule <;> rfl
  | @continuation rule _ _ _ _ _ _ => cases rule <;> rfl
  | _ => rfl

/-- Rules with brackets read from the states as they are. -/
theorem Ready.beside (hs : c.Ready s s' task) (hclose : task.close? = some close) : c.Beside s s' := by
  cases task with
  | statements => cases hclose
  | _ => exact hs

theorem repeats_of_failure (h : Failure (c.setup settings) task s d) : c.Repeats settings s d task := by
  induction h with
  | limit hdepth =>
    rintro task' s' ⟨⟩ hs
    exact ⟨_, .limit (by rw [Beside.depth hs]; exact hdepth), rfl⟩
  | nested hdepth _ ih =>
    rintro task' s' ⟨⟩ hs
    obtain ⟨d', h', hcause⟩ := ih _ _ .climb (Beside.withDepth hs (· + 1))
    exact ⟨d', .nested (by rw [Beside.depth hs]; exact hdepth) h', hcause⟩
  | noToken hdone =>
    rintro task' s' ⟨⟩ hs
    exact ⟨_, .noToken ((Beside.skipGroupedLineBreaks hs).current?_eq_none hdone), rfl⟩
  | noPrefix htoken hrule =>
    rintro task' s' ⟨⟩ hs
    obtain ⟨token', htoken', halike, _⟩ := (Beside.skipGroupedLineBreaks hs).current? htoken
    exact ⟨_, .noPrefix htoken' (by rw [halike.1]; exact hrule), by simp only [Cause.relocate, halike.1]⟩
  | start htoken hrule _ ih =>
    rintro task' s' ⟨⟩ hs
    obtain ⟨token', t', htoken', hrule', halike, ht⟩ := takes_prefix hs htoken hrule
    obtain ⟨d', h', hcause⟩ := ih _ _ (.start halike) ht
    exact ⟨d', .start htoken' hrule' h', hcause⟩
  | extension htoken hrule hstart _ ih =>
    rintro task' s' ⟨⟩ hs
    obtain ⟨token', t', htoken', hrule', halike, ht⟩ := takes_prefix hs htoken hrule
    obtain ⟨left', u', hstart', hleft, hu⟩ := (follows_of_run hstart).one (.start halike) ht
    obtain ⟨d', h', hcause⟩ := ih _ _ (.extension hleft) hu
    exact ⟨d', .extension htoken' hrule' hstart' h', hcause⟩
  | noOperator htight hdone =>
    rintro task' s' ⟨hleft⟩ hs
    exact ⟨_, .noOperator (htight ∘ (loose_iff hs).1)
      ((Beside.skipGroupedLineBreaks hs).current?_eq_none hdone), rfl⟩
  | noInfix htight htoken hrule =>
    rintro task' s' ⟨hleft⟩ hs
    obtain ⟨token', htoken', halike, _⟩ := (Beside.skipGroupedLineBreaks hs).current? htoken
    exact ⟨_, .noInfix (htight ∘ (loose_iff hs).1) htoken' (by rw [halike.1]; exact hrule),
      by simp only [Cause.relocate, halike.1]⟩
  | continuation htight htoken hrule _ ih =>
    rintro task' s' ⟨hleft⟩ hs
    obtain ⟨token', t', htoken', hrule', halike, ht⟩ := takes_infix hs htoken hrule
    obtain ⟨d', h', hcause⟩ := ih _ _ (.continuation hleft halike) ht
    exact ⟨d', .continuation (htight ∘ (loose_iff hs).1) htoken' hrule' h', hcause⟩
  | next htight htoken hrule hcontinuation _ ih =>
    rintro task' s' ⟨hleft⟩ hs
    obtain ⟨token', t', htoken', hrule', halike, ht⟩ := takes_infix hs htoken hrule
    obtain ⟨longer', u', hcontinuation', hlonger, hu⟩ :=
      (follows_of_run hcontinuation).one (.continuation hleft halike) ht
    obtain ⟨d', h', hcause⟩ := ih _ _ (.extension hlonger) hu
    exact ⟨d', .next (htight ∘ (loose_iff hs).1) htoken' hrule' hcontinuation' h', hcause⟩
  | refused hrefusal =>
    intro task' s' htask _
    obtain ⟨d', hrefusal', hcause⟩ := htask.refusal? hrefusal
    exact ⟨d', .refused hrefusal', hcause⟩
  | operand hreads _ ih =>
    intro task' s' htask hs
    obtain ⟨operand', hreads', hoperand, hs⟩ := htask.operand? hreads hs
    obtain ⟨d', h', hcause⟩ := ih _ _ hoperand hs
    exact ⟨d', .operand hreads' h', hcause⟩
  | inside hclose _ ih =>
    intro task' s' htask hs
    obtain ⟨d', h', hcause⟩ := ih _ _ .items (hs.beside hclose).openGroup
    exact ⟨d', .inside (htask.close?.trans hclose) h', hcause⟩
  | unclosed hclose hitems hstop =>
    intro task' s' htask hs
    obtain ⟨items', t', hitems', _, ht⟩ := follows_of_run hitems _ _ .items (hs.beside hclose).openGroup
    obtain ⟨d', hstop', hcause⟩ := ht.unclosed hstop
    exact ⟨d', .unclosed (htask.close?.trans hclose) hitems' hstop', hcause⟩
  | parameter hitems hstop harrow hitem =>
    rintro task' s' (_ | halike) hs
    obtain ⟨items', stop', t', u', hitems', hstop', _, hbare, hu⟩ :=
      (follows_of_run hitems).bracketed hs (by decide) hstop
    obtain ⟨item', hitem', hsame⟩ := Tree.exists_unnamed hbare hitem
    exact ⟨_, .parameter hitems' hstop' (by rwa [hu.isNext]) hitem',
      by simp only [Cause.relocate, Tree.render_congr hsame]⟩
  | noArrow hitems hstop hsingle hfollower hkind =>
    rintro task' s' (_ | halike) hs
    obtain ⟨items', stop', t', u', hitems', hstop', _, hbare, hu⟩ :=
      (follows_of_run hitems).bracketed hs (by decide) hstop
    obtain ⟨follower', hfollower', hsame, _⟩ := hu.current? hfollower
    exact ⟨_, .noArrow hitems' hstop' (Tree.not_singleton_congr hbare hsingle) hfollower' (hsame.1.trans_ne hkind),
      by simp only [Cause.relocate, source_setup, source_setup', hsame.1, hsame.2]⟩
  | noFollower hitems hstop hsingle hdone =>
    rintro task' s' (_ | halike) hs
    obtain ⟨items', stop', t', u', hitems', hstop', hsame, hbare, hu⟩ :=
      (follows_of_run hitems).bracketed hs (by decide) hstop
    exact ⟨_, .noFollower hitems' hstop' (Tree.not_singleton_congr hbare hsingle) (hu.current?_eq_none hdone),
      by simp only [Cause.relocate, source_setup, source_setup', hsame.2]⟩
  | index _ ih =>
    rintro task' s' (_ | _ | ⟨hleft, halike⟩) hs
    obtain ⟨d', h', hcause⟩ := ih _ _ .expression (Beside.openGroup hs)
    exact ⟨d', .index h', hcause⟩
  | unclosedIndex hitem hstop =>
    rintro task' s' (_ | _ | ⟨hleft, halike⟩) hs
    obtain ⟨item', t', hitem', _, ht⟩ := (follows_of_run hitem).one .expression (Beside.openGroup hs)
    obtain ⟨d', hstop', hcause⟩ := ht.skipLineBreaks.unclosed hstop
    exact ⟨d', .unclosedIndex hitem' hstop', hcause⟩
  | item hopen _ ih =>
    rintro task' s' ⟨⟩ hs
    have hs := Beside.skipLineBreaks hs
    obtain ⟨d', h', hcause⟩ := ih _ _ .expression hs
    exact ⟨d', .item (by rwa [hs.isNext]) h', hcause⟩
  | laterItem hopen hitem hcomma hkind _ ih =>
    rintro task' s' ⟨⟩ hs
    have hs := Beside.skipLineBreaks hs
    obtain ⟨item', t', hitem', _, ht⟩ := (follows_of_run hitem).one .expression hs
    obtain ⟨comma', u', hcomma', halike, hu⟩ := ht.skipLineBreaks.takes hcomma (by rw [hkind]; decide)
    obtain ⟨d', h', hcause⟩ := ih _ _ .items hu
    exact ⟨d', .laterItem (by rwa [hs.isNext]) hitem' hcomma' (halike.1.trans hkind) h', hcause⟩
  | overindented htoken hcolumn =>
    rintro task' s' ⟨⟩ hs
    obtain ⟨token', htoken', hcolumn'⟩ := first_of_ready hs htoken
    exact ⟨_, .overindented htoken' (hcolumn' ▸ c.strictMono hcolumn),
      by simp only [Cause.relocate, hcolumn']⟩
  | statement htoken hcolumn _ ih =>
    rintro task' s' ⟨⟩ hs
    obtain ⟨token', htoken', hcolumn'⟩ := first_of_ready hs htoken
    obtain ⟨d', h', hcause⟩ := ih _ _ .expression hs.1
    exact ⟨d', .statement htoken' (hcolumn'.trans (congrArg c.column hcolumn)) h', hcause⟩
  | line htoken hcolumn htree hopen hline =>
    rintro task' s' ⟨⟩ hs
    obtain ⟨token', htoken', hcolumn'⟩ := first_of_ready hs htoken
    obtain ⟨tree', t', htree', _, ht⟩ := (follows_of_run htree).one .expression hs.1
    obtain ⟨d', hline', hcause⟩ := ht.misses hline
    exact ⟨d', .line htoken' (hcolumn'.trans (congrArg c.column hcolumn)) htree'
      (by rwa [ht.done, ht.afterLineBreak]) hline', hcause⟩
  | laterStatement htoken hcolumn htree hline _ ih =>
    rintro task' s' ⟨⟩ hs
    obtain ⟨token', htoken', hcolumn'⟩ := first_of_ready hs htoken
    obtain ⟨tree', t', htree', _, ht⟩ := (follows_of_run htree).one .expression hs.1
    obtain ⟨u', hline', hu⟩ := ready_of_endsLine ht hline
    obtain ⟨d', h', hcause⟩ := ih _ _ .statements hu
    exact ⟨d', .laterStatement htoken' (hcolumn'.trans (congrArg c.column hcolumn)) htree' hline' h',
      hcause⟩
  | inlineBody hinline _ ih =>
    rintro task' s' ⟨⟩ hs
    obtain ⟨d', h', hcause⟩ := ih _ _ .expression hs
    exact ⟨d', .inlineBody (by rwa [Beside.isNext hs]) h', hcause⟩
  | noBody hbreak hdone =>
    rintro task' s' ⟨⟩ hs
    exact ⟨_, .noBody (by rwa [Beside.isNext hs]) ((Beside.skipLineBreaks hs).current?_eq_none hdone), rfl⟩
  | shallowBody hbreak htoken hcolumn =>
    rintro task' s' ⟨⟩ hs
    obtain ⟨token', htoken', hcolumn'⟩ := first_of_isNext hs hbreak htoken
    have hlevel := (Beside.skipLineBreaks hs).current_openBlock
    refine ⟨_, .shallowBody (by rwa [Beside.isNext hs]) htoken' ?_, ?_⟩
    · rw [hlevel, hcolumn']
      exact c.strictMono hcolumn
    · simp only [Cause.relocate, hlevel, hcolumn']
  | indentedBody hbreak htoken hcolumn _ ih =>
    rintro task' s' ⟨⟩ hs
    obtain ⟨token', htoken', hcolumn'⟩ := first_of_isNext hs hbreak htoken
    have hlevel := (Beside.skipLineBreaks hs).current_openBlock
    obtain ⟨d', h', hcause⟩ := ih _ _ .statements (ready_of_openBlock hs hbreak)
    rw [← hlevel] at h'
    refine ⟨d', .indentedBody (by rwa [Beside.isNext hs]) htoken' ?_ h', hcause⟩
    rw [hlevel, hcolumn']
    exact c.strictMono.monotone hcolumn

end Relayout

end Offside
