import Offside.Proofs.Reading.Climbing
import Offside.Proofs.Run.Exact
import Offside.Proofs.Run.Failure

set_option autoImplicit false

/-!
# Readings that report are failures

A reading reports a diagnostic exactly if there is a failure with it. With the runs of the readings that
succeed this tells all that a reading can do: it gives trees, or it reports, and it never misuses a state.
-/
namespace Offside

open Reading

namespace Reader

variable {setup : Setup PrefixRule InfixRule} {operand : Int → Reading Tree} {size : Nat}
  {s : State} {d : Diagnostic}

/-- With at most `size` tokens ahead, `operand` gives what has a run and reports what has a failure. -/
structure Settles (setup : Setup PrefixRule InfixRule) (operand : Int → Reading Tree) (size : Nat) :
    Prop where
  covers : Covers setup operand
  reaches : Reaches setup operand size
  restores : ∀ least, Restores (operand least)
  reports : ∀ least s d, s.groups ≠ [] → s.ahead.length ≤ size →
    (Reports (operand least) s d ↔ Failure setup (.expression least) s d)

theorem Settles.eq_ok_iff (h : Settles setup operand size) (hs : s.ahead.length ≤ size) {least : Int}
    {n : Tree} {t : State} :
    operand least s = .ok n t ↔ Run setup (.expression least) s [n] t :=
  ⟨h.covers _ _ _ _, h.reaches _ _ _ _ hs⟩

theorem parameterNames_reports {items : List Tree} : Reports (parameterNames items) s d ↔
    ∃ item, items.find? (·.name? = none) = some item ∧
      d = ⟨.misplaced item.render "parameters must be identifiers", item.span.start⟩ := by
  induction items with
  | nil => simp [parameterNames]
  | cons item items ih =>
    cases item with
    | identifier span name =>
      rw [List.find?_cons_of_neg (by simp [Tree.name?])]
      simpa [parameterNames] using ih
    | _ => simp [parameterNames, Tree.name?]

/-- The items of a sequence report what the first of them reports or, behind a comma, what the others do. -/
theorem reports_itemsWithin_succ {r : Reader Tree} {close : Kind} {bound : Nat} :
    Reports (r.itemsWithin close (bound + 1)) s d ↔ ¬s.skipLineBreaks.isNext close ∧
      (Reports (r.operand 0) s.skipLineBreaks d ∨ ∃ item t,
        r.operand 0 s.skipLineBreaks = .ok item t ∧ t.skipLineBreaks.isNext .comma ∧
          Reports (r.itemsWithin close bound) t.skipLineBreaks.advance d) := by
  have hafter : ∀ (item : Tree) (c : Bool) (t : State),
      Reports (if c then r.itemsWithin close bound >>= fun items => pure (item :: items)
        else pure [item]) t d ↔ c ∧ Reports (r.itemsWithin close bound) t d := by
    intro item c t
    cases c <;> simp
  simp only [itemsWithin, reports_bind, reports_skipLineBreaks, skipLineBreaks_eq_ok, false_or,
    reports_isNext, isNext_eq_ok]
  constructor
  · rintro ⟨_, _, rfl, closed, _, ⟨hclosed, rfl⟩, h⟩
    cases closed with
    | true => simp at h
    | false =>
      refine ⟨State.isNext_eq_false_iff.1 hclosed, ?_⟩
      simp only [Bool.false_eq_true, if_false, reports_bind, reports_skipLineBreaks, reports_accept,
        skipLineBreaks_eq_ok, accept_eq_ok, false_or, hafter] at h
      refine h.imp_right ?_
      rintro ⟨item, t, ht, _, _, rfl, more, _, ⟨hmore, rfl⟩, rfl, h⟩
      exact ⟨item, t, ht, hmore, h⟩
  · rintro ⟨hopen, h⟩
    refine ⟨(), _, rfl, false, _, ⟨State.isNext_eq_false_iff.2 hopen, rfl⟩, ?_⟩
    simp only [Bool.false_eq_true, if_false, reports_bind, reports_skipLineBreaks, reports_accept,
      skipLineBreaks_eq_ok, accept_eq_ok, false_or, hafter]
    refine h.imp_right ?_
    rintro ⟨item, t, ht, hmore, h⟩
    exact ⟨item, t, ht, (), _, rfl, true, _, ⟨hmore, rfl⟩, rfl, h⟩

theorem reports_itemsWithin (h : Settles setup operand size) {close : Kind} {bound : Nat}
    (hg : s.groups ≠ []) (hs : s.ahead.length ≤ size) (hb : s.ahead.length ≤ bound) :
    Reports ((setup.reader operand).itemsWithin close bound) s d ↔
      Failure setup (.items close) s d := by
  induction bound generalizing s with
  | zero =>
    have hnil : s.ahead = [] := List.eq_nil_of_length_eq_zero (by omega)
    have hskip := State.skipLineBreaks_of_ahead_eq_nil hnil
    have hopen : ¬s.skipLineBreaks.isNext close := by
      simp [hskip, State.isNext, State.current?, hnil]
    have hoperand : Reports ((setup.reader operand).itemsWithin close 0) s d ↔
        Failure setup (.expression 0) s d := by
      simpa [itemsWithin, Setup.reader] using h.reports 0 s d hg hs
    rw [hoperand]
    constructor
    · intro hitem
      exact .item hopen (hskip.symm ▸ hitem)
    · intro hitems
      cases hitems with
      | item _ hitem => exact hskip ▸ hitem
      | laterItem _ hitem _ _ _ =>
        have := hitem.length_ahead_lt
        rw [hskip, hnil] at this
        exact absurd this (Nat.not_lt_zero _)
      | refused hnone | operand hnone _ | inside hnone _ | unclosed hnone _ _ => cases hnone
  | succ bound ih =>
    have hskip := (State.passes_skipLineBreaks s).length_ahead
    have hsize : s.skipLineBreaks.ahead.length ≤ size := by omega
    rw [reports_itemsWithin_succ]
    -- Behind an item and a comma fewer tokens are ahead, in the same frame.
    have hlater : ∀ {item : Tree} {t u : State} {comma : Token},
        Run setup (.expression 0) s.skipLineBreaks [item] t → t.skipLineBreaks.Takes comma u →
        (Reports ((setup.reader operand).itemsWithin close bound) u d ↔
          Failure setup (.items close) u d) := by
      intro item t u comma hitem hcomma
      obtain ⟨ks, hp⟩ := hitem.passes
      have hpasses := (hp.trans (State.passes_skipLineBreaks t)).trans hcomma.passes
      have hlength := hpasses.length_ahead
      simp only [List.length_append, List.length_singleton] at hlength
      exact ih (hpasses.groups.symm ▸ hg) (by omega) (by omega)
    constructor
    · rintro ⟨hopen, hitem | ⟨item, t, hitem, hmore, h'⟩⟩
      · exact .item hopen ((h.reports 0 s.skipLineBreaks d hg hsize).1 hitem)
      · obtain ⟨comma, hcomma, hkind⟩ := State.takes_of_isNext hmore
        have hrun := (h.eq_ok_iff hsize).1 hitem
        exact .laterItem hopen hrun hcomma hkind ((hlater hrun hcomma).1 h')
    · intro hitems
      cases hitems with
      | item hopen hitem => exact ⟨hopen, .inl ((h.reports 0 s.skipLineBreaks d hg hsize).2 hitem)⟩
      | laterItem hopen hitem hcomma hkind hitems =>
        refine ⟨hopen, .inr ⟨_, _, (h.eq_ok_iff hsize).2 hitem,
          State.isNext_iff.2 ⟨_, hcomma.1, hkind⟩, ?_⟩⟩
        rw [hcomma.2]
        exact (hlater hitem hcomma).2 hitems
      | refused hnone | operand hnone _ | inside hnone _ | unclosed hnone _ _ => cases hnone

theorem restores_items (h : Settles setup operand size) (close : Kind) :
    Restores ((setup.reader operand).items close) :=
  (restores setup).look (fun _ _ hst => by simp only [hst.ahead])
    fun s => (restores setup).itemsWithin h.restores close s.ahead.length

/-- A bracketed sequence reports what is reported inside, or that it is not closed. -/
theorem reports_sequence (h : Settles setup operand size) {close : Kind} (hg : s.groups ≠ [])
    (hs : s.ahead.length ≤ size) : Reports ((setup.reader operand).sequence close) s d ↔
      Failure.InBrackets setup close s d := by
  have hahead := s.ahead_openGroup
  have hitems : Reports ((setup.reader operand).items close) s.openGroup d ↔
      Failure setup (.items close) s.openGroup d := by
    rw [items, reports_look]
    exact reports_itemsWithin h (groups_openGroup hg) (hahead ▸ hs) (Nat.le_refl _)
  unfold sequence
  rw [← bind_assoc, reports_bind, reports_bracketed hg (restores_items h close), hitems]
  simp only [bind_eq_ok, openGroup_eq_ok, finishing_eq_ok, closeGroup_eq_ok, reports_bind,
    reports_require, reports_pure, and_false, exists_false, or_false]
  refine or_congr_right ⟨?_, ?_⟩
  · rintro ⟨out, u, ⟨_, _, rfl, t, _, ht, hclose⟩, hmiss⟩
    obtain ⟨_, _, ⟨rfl, rfl⟩, hr⟩ := (by simpa only [items, bind_eq_ok, get_eq_ok] using ht :
      ∃ a t', (s.openGroup = a ∧ s.openGroup = t') ∧ _)
    exact ⟨out, t, run_of_itemsWithin h.covers (Nat.le_refl _) hr, u, hclose, hmiss⟩
  · rintro ⟨out, t, hrun, u, hclose, hmiss⟩
    refine ⟨out, u, ⟨(), _, rfl, t, (), ?_, hclose⟩, hmiss⟩
    simp only [items, bind_eq_ok, get_eq_ok]
    exact ⟨_, _, ⟨rfl, rfl⟩,
      itemsWithin_of_run h.reaches (hahead ▸ hs) (Nat.le_refl _) hrun⟩

/-- A statement reports what its tree reports, or that its line does not end behind the tree. -/
theorem reports_statement {r : Reader Tree} : Reports r.statement s d ↔
    Reports (r.operand 0) s d ∨ ∃ tree t, r.operand 0 s = .ok tree t ∧
      ¬(t.done ∨ t.afterLineBreak) ∧ t.Misses r.source .newline d := by
  rw [statement, reports_bind]
  refine or_congr_right (exists_congr fun tree => exists_congr fun t => and_congr_right fun _ => ?_)
  rw [reports_look]
  split
  next hend => simp [hend]
  next hopen => simp [hopen]

/-- The statements of a block report what the first of them or the others do, or that the first starts too
far right. -/
theorem reports_statementsWithin_succ {r : Reader Tree} {level bound : Nat} :
    Reports (r.statementsWithin level (bound + 1)) s d ↔
      ∃ token, s.skipLineBreaks.current? = some token ∧
        (level < token.column ∧ d = ⟨.indentation level token.column, token.span.start⟩ ∨
          token.column = level ∧ (Reports r.statement s.skipLineBreaks d ∨ ∃ tree t,
            r.statement s.skipLineBreaks = .ok tree t ∧
              Reports (r.statementsWithin level bound) t d)) := by
  simp only [statementsWithin, reports_bind, reports_skipLineBreaks, skipLineBreaks_eq_ok, false_or,
    reports_get, get_eq_ok]
  constructor
  · rintro ⟨_, _, rfl, _, _, ⟨rfl, rfl⟩, h⟩
    cases htoken : s.skipLineBreaks.current? with
    | none => simp [htoken] at h
    | some token =>
      refine ⟨token, rfl, ?_⟩
      simp only [htoken] at h
      split at h
      next => exact absurd h (by simp)
      next hle =>
        split at h
        next hlt => exact .inl ⟨hlt, reports_fail.1 h⟩
        next hge => exact .inr ⟨by omega, by simpa using h⟩
  · rintro ⟨token, htoken, h⟩
    refine ⟨(), _, rfl, _, _, ⟨rfl, rfl⟩, ?_⟩
    simp only [htoken]
    rcases h with ⟨hlt, rfl⟩ | ⟨rfl, h⟩
    · rw [if_neg (by omega), if_pos hlt, reports_fail]
    · rw [if_neg (Nat.lt_irrefl _), if_neg (Nat.lt_irrefl _)]
      simpa using h

theorem reports_statementsWithin (h : Settles setup operand size) {level bound : Nat}
    (hg : s.groups ≠ []) (hs : s.ahead.length ≤ size) (hb : s.ahead.length ≤ bound) :
    Reports ((setup.reader operand).statementsWithin level bound) s d ↔
      Failure setup (.statements level) s d := by
  induction bound generalizing s with
  | zero =>
    have hnil : s.ahead = [] := List.eq_nil_of_length_eq_zero (by omega)
    have hnone : s.skipLineBreaks.current? = none := by
      simp [State.skipLineBreaks_of_ahead_eq_nil hnil, State.current?, hnil]
    refine iff_of_false (by simp [statementsWithin]) fun hfailure => ?_
    cases hfailure with
    | overindented htoken _ | statement htoken _ _ | line htoken _ _ _ _
    | laterStatement htoken _ _ _ _ => cases hnone.symm.trans htoken
    | refused hnone | operand hnone _ | inside hnone _ | unclosed hnone _ _ => cases hnone
  | succ bound ih =>
    have hskip := (State.passes_skipLineBreaks s).length_ahead
    have hsize : s.skipLineBreaks.ahead.length ≤ size := by omega
    have hlater : ∀ {tree : Tree} {t u : State},
        Run setup (.expression 0) s.skipLineBreaks [tree] t → t.EndsLine u →
        (Reports ((setup.reader operand).statementsWithin level bound) u d ↔
          Failure setup (.statements level) u d) := by
      intro tree t u htree hline
      obtain ⟨ks, hp⟩ := htree.passes
      obtain ⟨ls, _, hl⟩ := hline.passes
      have hlength := htree.length_ahead_lt
      have hlength' := hl.length_ahead
      exact ih ((hp.trans hl).groups.symm ▸ hg) (by omega) (by omega)
    rw [reports_statementsWithin_succ, reports_statement]
    constructor
    · rintro ⟨token, htoken, ⟨hlt, rfl⟩ | ⟨hcolumn, (htree | ⟨tree, t, ht, hopen, hline⟩) |
        ⟨tree, u, hu, h'⟩⟩⟩
      · exact .overindented htoken hlt
      · exact .statement htoken hcolumn ((h.reports 0 s.skipLineBreaks d hg hsize).1 htree)
      · exact .line htoken hcolumn ((h.eq_ok_iff hsize).1 ht) hopen hline
      · obtain ⟨t, ht, hline⟩ := statement_eq_ok.1 hu
        have htree := (h.eq_ok_iff hsize).1 ht
        exact .laterStatement htoken hcolumn htree hline ((hlater htree hline).1 h')
    · intro hfailure
      cases hfailure with
      | overindented htoken hcolumn => exact ⟨_, htoken, .inl ⟨hcolumn, rfl⟩⟩
      | statement htoken hcolumn htree =>
        exact ⟨_, htoken, .inr ⟨hcolumn, .inl (.inl
          ((h.reports 0 s.skipLineBreaks d hg hsize).2 htree))⟩⟩
      | line htoken hcolumn htree hopen hline =>
        exact ⟨_, htoken, .inr ⟨hcolumn, .inl (.inr
          ⟨_, _, (h.eq_ok_iff hsize).2 htree, hopen, hline⟩)⟩⟩
      | laterStatement htoken hcolumn htree hline htrees =>
        exact ⟨_, htoken, .inr ⟨hcolumn, .inr ⟨_, _,
          statement_eq_ok.2 ⟨_, (h.eq_ok_iff hsize).2 htree, hline⟩, (hlater htree hline).2 htrees⟩⟩⟩
      | refused hnone | operand hnone _ | inside hnone _ | unclosed hnone _ _ => cases hnone

theorem reports_block (h : Settles setup operand size) {level : Nat} (hg : s.groups ≠ [])
    (hs : s.ahead.length ≤ size) :
    Reports ((setup.reader operand).block level) s d ↔ Failure setup (.statements level) s d := by
  rw [block, reports_look]
  exact reports_statementsWithin h hg hs (Nat.le_refl _)

/-- The block of a body reports that it is missing or starts too far left, or what its statements report. -/
theorem reports_indentedBlock (h : Settles setup operand size) (hs : s.ahead.length ≤ size) :
    Reports (setup.reader operand).indentedBlock s d ↔
      s.current? = none ∧ d = ⟨.endOfInput, s.endPosition⟩ ∨
      ∃ token, s.current? = some token ∧
        (token.column < s.openBlock.indentation.current ∧
          d = ⟨.indentation s.openBlock.indentation.current token.column, token.span.start⟩ ∨
        s.openBlock.indentation.current ≤ token.column ∧
          Failure setup (.statements s.openBlock.indentation.current) s.openBlock d) := by
  have hlaw := restores setup
  have hrestores : ∀ level, Restores (current >>= fun token =>
      if token.column < level then fail (.indentation level token.column) token.span.start
      else (setup.reader operand).block level) := by
    intro level
    refine hlaw.bind hlaw.current fun token => ?_
    split
    · exact hlaw.fault _ _
    · exact hlaw.block h.restores level
  unfold indentedBlock
  rw [reports_blocked hrestores]
  simp only [reports_bind, reports_current, current_eq_ok]
  have hcurrent : s.openBlock.current? = s.current? := rfl
  have hend : s.openBlock.endPosition = s.endPosition := rfl
  rw [hcurrent, hend]
  refine or_congr_right ⟨?_, ?_⟩
  · rintro ⟨token, _, ⟨htoken, rfl⟩, h'⟩
    refine ⟨token, htoken, ?_⟩
    split at h'
    next hlt => exact .inl ⟨hlt, reports_fail.1 h'⟩
    next hge => exact .inr ⟨by omega,
      (reports_block (s := s.openBlock) h (List.cons_ne_nil _ _) hs).1 h'⟩
  · rintro ⟨token, htoken, h'⟩
    refine ⟨token, _, ⟨htoken, rfl⟩, ?_⟩
    rcases h' with ⟨hlt, rfl⟩ | ⟨hle, h'⟩
    · rw [if_pos hlt, reports_fail]
    · rw [if_neg (Nat.not_lt.2 hle)]
      exact (reports_block (s := s.openBlock) h (List.cons_ne_nil _ _) hs).2 h'

theorem reports_body_iff {r : Reader Tree} : Reports r.body s d ↔
    s.isNext .newline ∧ Reports r.indentedBlock s.skipLineBreaks d ∨
      ¬s.isNext .newline ∧ Reports (r.operand 0) s d := by
  simp only [body, reports_bind, reports_accept, false_or, accept_eq_ok]
  constructor
  · rintro ⟨broken, _, ⟨hbroken, rfl⟩, h⟩
    cases broken with
    | false => exact .inr ⟨State.isNext_eq_false_iff.1 hbroken, by simpa using h⟩
    | true =>
      simp only [if_true, reports_bind, reports_skipLineBreaks, false_or, skipLineBreaks_eq_ok,
        State.advance_skipLineBreaks hbroken] at h
      obtain ⟨_, _, rfl, h⟩ := h
      exact .inl ⟨hbroken, h⟩
  · rintro (⟨hbreak, h⟩ | ⟨hinline, h⟩)
    · refine ⟨true, _, ⟨hbreak, rfl⟩, ?_⟩
      simp only [if_true, reports_bind, reports_skipLineBreaks, false_or, skipLineBreaks_eq_ok,
        State.advance_skipLineBreaks hbreak]
      exact ⟨(), _, rfl, h⟩
    · exact ⟨false, _, ⟨State.isNext_eq_false_iff.2 hinline, rfl⟩, by simpa using h⟩

theorem reports_body (h : Settles setup operand size) (hg : s.groups ≠ [])
    (hs : s.ahead.length ≤ size) :
    Reports (setup.reader operand).body s d ↔ Failure setup .body s d := by
  have hskip := (State.passes_skipLineBreaks s).length_ahead
  have hsize : s.skipLineBreaks.ahead.length ≤ size := by omega
  have hinside : Reports ((setup.reader operand).operand 0) s d ↔ _ := h.reports 0 s d hg hs
  rw [reports_body_iff, reports_indentedBlock h hsize, hinside]
  constructor
  · rintro (⟨hbreak, ⟨hdone, rfl⟩ | ⟨token, htoken, ⟨hlt, rfl⟩ | ⟨hle, htrees⟩⟩⟩ | ⟨hinline, htree⟩)
    · exact .noBody hbreak hdone
    · exact .shallowBody hbreak htoken hlt
    · exact .indentedBody hbreak htoken hle htrees
    · exact .inlineBody hinline htree
  · intro hfailure
    cases hfailure with
    | inlineBody hinline htree => exact .inr ⟨hinline, htree⟩
    | noBody hbreak hdone => exact .inl ⟨hbreak, .inl ⟨hdone, rfl⟩⟩
    | shallowBody hbreak htoken hcolumn =>
      exact .inl ⟨hbreak, .inr ⟨_, htoken, .inl ⟨hcolumn, rfl⟩⟩⟩
    | indentedBody hbreak htoken hcolumn htrees =>
      exact .inl ⟨hbreak, .inr ⟨_, htoken, .inr ⟨hcolumn, htrees⟩⟩⟩
    | refused hnone | operand hnone _ | inside hnone _ | unclosed hnone _ _ => cases hnone

theorem sequence_eq_ok_iff (h : Settles setup operand size) (hs : s.ahead.length ≤ size) {close : Kind}
    {out : List Tree} {stop : Token} {t : State} :
    (setup.reader operand).sequence close s = .ok (out, stop) t ↔
      ∃ u, Run setup (.items close) s.openGroup out u ∧ u.Closes close stop t :=
  ⟨run_of_sequence h.covers, fun ⟨_, hitems, hstop⟩ => sequence_of_run h.reaches hs hitems hstop⟩

/-- Behind its closing parenthesis a sequence is a parameter list, one expression, or neither. -/
theorem reports_parenthesis {r : Reader Tree} {token : Token} : Reports (r.parenthesis token) s d ↔
    Reports (r.sequence .closeParen) s d ∨ ∃ items stop t,
      r.sequence .closeParen s = .ok (items, stop) t ∧
        (t.isNext .arrow ∧ Reports (parameterNames items) t d ∨
          ¬t.isNext .arrow ∧ (∀ item, items ≠ [item]) ∧
            ((∃ follower, t.current? = some follower ∧ d =
                ⟨.unexpected .arrow follower.kind (follower.text r.source), follower.span.start⟩) ∨
              t.current? = none ∧ d = ⟨.misplaced (stop.text r.source)
                "expected `->` after a parameter list", stop.span.start⟩)) := by
  simp only [parenthesis, reports_bind, Prod.exists, reports_isNext, false_or, isNext_eq_ok]
  refine or_congr_right (exists_congr fun items => exists_congr fun stop => exists_congr fun t =>
    and_congr_right fun _ => ⟨?_, ?_⟩)
  · rintro ⟨arrow, _, ⟨harrow, rfl⟩, h⟩
    cases arrow with
    | true => exact .inl ⟨harrow, by simpa using h⟩
    | false =>
      refine .inr ⟨State.isNext_eq_false_iff.1 harrow, ?_⟩
      simp only [Bool.false_eq_true, if_false] at h
      split at h
      next => exact absurd h (by simp)
      next hsingle =>
        rw [reports_look] at h
        refine ⟨hsingle, ?_⟩
        cases hcurrent : t.current? with
        | none => exact .inr ⟨rfl, by simpa [hcurrent, misplaced, text] using h⟩
        | some follower => exact .inl ⟨follower, rfl, by simpa [hcurrent, text] using h⟩
  · rintro (⟨harrow, h⟩ | ⟨harrow, hsingle, h⟩)
    · exact ⟨true, t, ⟨harrow, rfl⟩, by simpa using h⟩
    · refine ⟨false, t, ⟨State.isNext_eq_false_iff.2 harrow, rfl⟩, ?_⟩
      simp only [Bool.false_eq_true, if_false, reports_look]
      rcases h with ⟨follower, hcurrent, rfl⟩ | ⟨hcurrent, rfl⟩ <;>
        simp [hcurrent, misplaced, text]

end Reader

namespace Language

variable {setup : Setup PrefixRule InfixRule} {operand : Int → Reading Tree} {size : Nat}
  {s : State} {d : Diagnostic} {left : Tree}

open Reader (Settles)

theorem reports_parenthesisRule (h : Settles setup operand size) {token : Token} (hg : s.groups ≠ [])
    (hs : s.ahead.length ≤ size) : Reports ((setup.reader operand).parenthesis token) s d ↔
      Failure setup (.start .parenthesis token) s d := by
  rw [Reader.reports_parenthesis, Reader.reports_sequence h hg hs]
  constructor
  · rintro ((hitems | ⟨items, t, hitems, hstop⟩) | ⟨items, stop, u, hsequence, h'⟩)
    · exact .inside rfl hitems
    · exact .unclosed rfl hitems hstop
    · obtain ⟨t, hitems, hstop⟩ := (Reader.sequence_eq_ok_iff h hs).1 hsequence
      rcases h' with ⟨harrow, hnames⟩ | ⟨harrow, hsingle, ⟨follower, hcurrent, rfl⟩ | ⟨hcurrent, rfl⟩⟩
      · obtain ⟨item, hitem, rfl⟩ := Reader.parameterNames_reports.1 hnames
        exact .parameter hitems hstop harrow hitem
      · exact .noArrow hitems hstop hsingle hcurrent fun hkind =>
          harrow (State.isNext_iff.2 ⟨follower, hcurrent, hkind⟩)
      · exact .noFollower hitems hstop hsingle hcurrent
  · intro hfailure
    have hread : ∀ {items : List Tree} {stop : Token} {t u : State},
        Run setup (.items .closeParen) s.openGroup items t → t.Closes .closeParen stop u →
        (setup.reader operand).sequence .closeParen s = .ok (items, stop) u :=
      fun hitems hstop => (Reader.sequence_eq_ok_iff h hs).2 ⟨_, hitems, hstop⟩
    cases hfailure with
    | refused hrefusal => cases hrefusal
    | operand hreads _ => cases hreads
    | inside hclose hitems =>
      cases hclose
      exact .inl (.inl hitems)
    | unclosed hclose hitems hstop =>
      cases hclose
      exact .inl (.inr ⟨_, _, hitems, hstop⟩)
    | parameter hitems hstop harrow hitem =>
      exact .inr ⟨_, _, _, hread hitems hstop,
        .inl ⟨harrow, Reader.parameterNames_reports.2 ⟨_, hitem, rfl⟩⟩⟩
    | noArrow hitems hstop hsingle hfollower hkind =>
      refine .inr ⟨_, _, _, hread hitems hstop, .inr ⟨fun harrow => hkind ?_, hsingle,
        .inl ⟨_, hfollower, rfl⟩⟩⟩
      obtain ⟨token, htoken, hk⟩ := State.isNext_iff.1 harrow
      rw [Option.some.inj (hfollower.symm.trans htoken), hk]
    | noFollower hitems hstop hsingle hdone =>
      exact .inr ⟨_, _, _, hread hitems hstop,
        .inr ⟨by simp [State.isNext, hdone], hsingle, .inr ⟨hdone, rfl⟩⟩⟩

theorem reports_prefixRule (h : Settles setup operand size) {rule : PrefixRule} {token : Token}
    (hg : s.groups ≠ []) (hs : s.ahead.length ≤ size) :
    Reports (rule.read (setup.reader operand) token) s d ↔ Failure setup (.start rule token) s d := by
  have hoperand : ∀ least, Reports ((setup.reader operand).operand least) s d ↔
      Failure setup (.expression least) s d := fun least => h.reports least s d hg hs
  cases rule with
  | identifier | boolean =>
    rw [Failure.start_iff (by decide)]
    exact iff_of_false (not_reports_of_eq_ok rfl)
      (by simp [Failure.Plain, Task.refusal?, Task.operand?, Task.close?])
  | number =>
    rw [Failure.start_iff (by decide)]
    simp only [Failure.Plain, Task.refusal?, Task.operand?, Task.close?, PrefixRule.read,
      Reader.number, Reader.text, Setup.reader]
    cases Binary64.ofText? (token.text setup.source) <;> simp [eq_comm]
  | string =>
    rw [Failure.start_iff (by decide)]
    simp only [Failure.Plain, Task.refusal?, Task.operand?, Task.close?, PrefixRule.read,
      Reader.string, Reader.misplaced, Reader.text, Setup.reader]
    cases Reader.unquoted? (token.text setup.source).toList <;> simp [eq_comm]
  | unary =>
    rw [Failure.start_iff (by decide)]
    simp only [Failure.Plain, Task.refusal?, Task.operand?, Task.close?, PrefixRule.read,
      Reader.unary, Reader.misplaced, Reader.text, Setup.reader]
    cases Operator.unary? token.kind with
    | none => simp [eq_comm]
    | some operator => simpa [Setup.reader] using hoperand Level.unary.power
  | parenthesis => exact reports_parenthesisRule h hg hs
  | list =>
    rw [Failure.start_iff (by decide)]
    simpa [Failure.Plain, Task.refusal?, Task.operand?, Task.close?, PrefixRule.read, Reader.list] using
      Reader.reports_sequence h hg hs

theorem reports_index (h : Settles setup operand size) {token : Token} (hg : s.groups ≠ [])
    (hs : s.ahead.length ≤ size) : Reports ((setup.reader operand).index left) s d ↔
      Failure setup (.continuation .index left token) s d := by
  have hahead := s.ahead_openGroup
  have hitem : Reports ((setup.reader operand).operand 0) s.openGroup d ↔
      Failure setup (.expression 0) s.openGroup d :=
    h.reports 0 s.openGroup d (groups_openGroup hg) (hahead ▸ hs)
  have hread : ∀ {item : Tree} {t : State},
      (setup.reader operand).operand 0 s.openGroup = .ok item t ↔
        Run setup (.expression 0) s.openGroup [item] t := h.eq_ok_iff (hahead ▸ hs)
  have hrestores : Restores ((setup.reader operand).operand 0) := h.restores 0
  unfold Reader.index
  rw [← bind_assoc, reports_bind, reports_bracketedLines hg hrestores, hitem]
  simp only [bind_eq_ok, openGroup_eq_ok, finishing_eq_ok, seqRight_eq_ok, skipLineBreaks_eq_ok,
    closeGroup_eq_ok, reports_bind, reports_require, reports_pure, and_false, exists_false, or_false]
  constructor
  · rintro (hitem | ⟨item, u, ⟨_, _, rfl, t, _, hitem, _, _, rfl, hclose⟩, hmiss⟩)
    · exact .index hitem
    · exact .unclosedIndex (hread.1 hitem) ⟨u, hclose, hmiss⟩
  · intro hfailure
    cases hfailure with
    | refused hnone | operand hnone _ | inside hnone _ | unclosed hnone _ _ => cases hnone
    | index hitem => exact .inl hitem
    | unclosedIndex hitem hstop =>
      obtain ⟨u, hclose, hmiss⟩ := hstop
      exact .inr ⟨_, u, ⟨(), _, rfl, _, (), hread.2 hitem, (), _, rfl, hclose⟩, hmiss⟩

theorem reports_infixRule (h : Settles setup operand size) {rule : InfixRule} {token : Token}
    (hg : s.groups ≠ []) (hs : s.ahead.length ≤ size) :
    Reports (rule.read (setup.reader operand) left token) s d ↔
      Failure setup (.continuation rule left token) s d := by
  have hoperand : ∀ least, Reports ((setup.reader operand).operand least) s d ↔
      Failure setup (.expression least) s d := fun least => h.reports least s d hg hs
  have hbody := Reader.reports_body (d := d) h hg hs
  cases rule with
  | binary =>
    rw [Failure.continuation_iff (by decide)]
    simp only [Failure.Plain, Task.refusal?, Task.operand?, Task.close?, InfixRule.read,
      Reader.binary, Reader.misplaced, Reader.text]
    cases Operator.binary? token.kind with
    | none => simp [eq_comm, Setup.reader]
    | some operator => simpa [Setup.reader] using hoperand (setup.grammar.power token.kind)
  | assignment =>
    rw [Failure.continuation_iff (by decide)]
    simp only [Failure.Plain, Task.refusal?, Task.operand?, Task.close?, InfixRule.read,
      Reader.assignment, Reader.misplaced, Reader.text]
    cases left.isAssignable with
    | false => simp [eq_comm, Setup.reader]
    | true => simpa [Setup.reader] using hoperand (setup.grammar.power token.kind - 1)
  | conditional =>
    rw [Failure.continuation_iff (by decide)]
    simpa [Failure.Plain, Task.refusal?, Task.operand?, Task.close?, InfixRule.read,
      Reader.conditional] using hbody
  | function =>
    rw [Failure.continuation_iff (by decide)]
    simp only [Failure.Plain, Task.refusal?, Task.operand?, Task.close?, InfixRule.read,
      Reader.function, Reader.misplaced, Reader.text]
    cases Reader.parameters? left with
    | none => simp [eq_comm, Setup.reader]
    | some names => simpa using hbody
  | call =>
    rw [Failure.continuation_iff (by decide)]
    simpa [Failure.Plain, Task.refusal?, Task.operand?, Task.close?, InfixRule.read, Reader.call] using
      Reader.reports_sequence h hg hs
  | index => exact reports_index h hg hs

theorem reports_extend (h : Settles setup operand size) {least : Int} {rounds : Nat}
    (hg : s.groups ≠ []) (hs : s.ahead.length ≤ size + 1) (hb : s.ahead.length ≤ rounds) :
    Reports (Tree.language.extend setup operand least rounds left) s d ↔
      Failure setup (.extension least left) s d := by
  induction rounds generalizing s left with
  | zero =>
    have hdone : s.done := State.done_iff.2 (List.eq_nil_of_length_eq_zero (by omega))
    refine iff_of_false (by simp [extend]) fun hfailure => ?_
    cases hfailure with
    | noOperator htight _ | noInfix htight _ _ | continuation htight _ _ _ | next htight _ _ _ _ =>
      exact htight (.inl hdone)
    | refused hnone | operand hnone _ | inside hnone _ | unclosed hnone _ _ => cases hnone
  | succ rounds ih =>
    rw [reports_extend_succ, reports_next]
    have hrule : ∀ {token : Token} {rule : InfixRule} {t : State},
        s.skipGroupedLineBreaks.Takes token t →
        (Reports (rule.read (setup.reader operand) left token) t d ↔
          Failure setup (.continuation rule left token) t d) := by
      intro token rule t htoken
      obtain ⟨hlength, hgroups⟩ := length_lt_of_takes htoken
      exact reports_infixRule h (hgroups ▸ hg) (by omega)
    have hfurther : ∀ {token : Token} {rule : InfixRule} {longer : Tree} {t u : State},
        s.skipGroupedLineBreaks.Takes token t →
        Run setup (.continuation rule left token) t [longer] u →
        (Reports (Tree.language.extend setup operand least rounds longer) u d ↔
          Failure setup (.extension least longer) u d) := by
      intro token rule longer t u htoken hcontinuation
      obtain ⟨hlength, hgroups⟩ := length_lt_of_takes htoken
      obtain ⟨ks, hp⟩ := hcontinuation.passes
      have := hp.length_ahead
      exact ih (hp.groups.trans hgroups ▸ hg) (by omega) (by omega)
    constructor
    · rintro ⟨htight, (⟨hdone, rfl⟩ | ⟨token, t, htoken, ⟨hnone, rfl⟩ | ⟨rule, hsome, h'⟩⟩) |
        ⟨longer, u, hnext, h'⟩⟩
      · exact .noOperator htight hdone
      · exact .noInfix htight htoken.1 hnone
      · exact .continuation htight htoken hsome ((hrule htoken).1 h')
      · obtain ⟨token, t, rule, htoken, hsome, hread⟩ := next_eq_ok.1 hnext
        have hcontinuation := run_of_infixRule h.covers hread
        exact .next htight htoken hsome hcontinuation ((hfurther htoken hcontinuation).1 h')
    · intro hfailure
      cases hfailure with
      | noOperator htight hdone => exact ⟨htight, .inl (.inl ⟨hdone, rfl⟩)⟩
      | noInfix htight htoken hnone =>
        exact ⟨htight, .inl (.inr ⟨_, _, ⟨htoken, rfl⟩, .inl ⟨hnone, rfl⟩⟩)⟩
      | continuation htight htoken hsome hcontinuation =>
        exact ⟨htight, .inl (.inr ⟨_, _, htoken, .inr ⟨_, hsome, (hrule htoken).2 hcontinuation⟩⟩)⟩
      | next htight htoken hsome hcontinuation hextension =>
        obtain ⟨hlength, _⟩ := length_lt_of_takes htoken
        exact ⟨htight, .inr ⟨_, _, next_eq_ok.2 ⟨_, _, _, htoken, hsome,
          infixRule_of_run h.reaches (by omega) hcontinuation⟩,
          (hfurther htoken hcontinuation).2 hextension⟩⟩
      | refused hnone | operand hnone _ | inside hnone _ | unclosed hnone _ _ => cases hnone

theorem reports_climb (h : Settles setup operand size) {least : Int} (hg : s.groups ≠ [])
    (hs : s.ahead.length ≤ size + 1) :
    Reports (Tree.language.climb setup operand least) s d ↔ Failure setup (.climb least) s d := by
  rw [climb, reports_bind, reports_first]
  have hrule : ∀ {token : Token} {rule : PrefixRule} {t : State},
      s.skipGroupedLineBreaks.Takes token t →
      (Reports (rule.read (setup.reader operand) token) t d ↔
        Failure setup (.start rule token) t d) := by
    intro token rule t htoken
    obtain ⟨hlength, hgroups⟩ := length_lt_of_takes htoken
    exact reports_prefixRule h (hgroups ▸ hg) (by omega)
  have hfurther : ∀ {token : Token} {rule : PrefixRule} {left : Tree} {t u : State},
      s.skipGroupedLineBreaks.Takes token t → Run setup (.start rule token) t [left] u →
      (Reports (get >>= fun s => Tree.language.extend setup operand least s.ahead.length left) u d ↔
        Failure setup (.extension least left) u d) := by
    intro token rule left t u htoken hstart
    obtain ⟨hlength, hgroups⟩ := length_lt_of_takes htoken
    obtain ⟨ks, hp⟩ := hstart.passes
    have := hp.length_ahead
    rw [reports_look]
    exact reports_extend h (hp.groups.trans hgroups ▸ hg) (by omega) (Nat.le_refl _)
  constructor
  · rintro ((⟨hdone, rfl⟩ | ⟨token, t, htoken, ⟨hnone, rfl⟩ | ⟨rule, hsome, h'⟩⟩) |
      ⟨left, u, hfirst, h'⟩)
    · exact .noToken hdone
    · exact .noPrefix htoken.1 hnone
    · exact .start htoken hsome ((hrule htoken).1 h')
    · obtain ⟨token, t, rule, htoken, hsome, hread⟩ := first_eq_ok.1 hfirst
      have hstart := run_of_prefixRule h.covers hread
      exact .extension htoken hsome hstart ((hfurther htoken hstart).1 h')
  · intro hfailure
    cases hfailure with
    | noToken hdone => exact .inl (.inl ⟨hdone, rfl⟩)
    | noPrefix htoken hnone => exact .inl (.inr ⟨_, _, ⟨htoken, rfl⟩, .inl ⟨hnone, rfl⟩⟩)
    | start htoken hsome hstart =>
      exact .inl (.inr ⟨_, _, htoken, .inr ⟨_, hsome, (hrule htoken).2 hstart⟩⟩)
    | extension htoken hsome hstart hextension =>
      obtain ⟨hlength, _⟩ := length_lt_of_takes htoken
      exact .inr ⟨_, _, first_eq_ok.2 ⟨_, _, _, htoken, hsome,
        prefixRule_of_run h.reaches (by omega) hstart⟩, (hfurther htoken hstart).2 hextension⟩
    | refused hnone | operand hnone _ | inside hnone _ | unclosed hnone _ _ => cases hnone

theorem failure_expression_iff {least : Int} : Failure setup (.expression least) s d ↔
    setup.settings.maxDepth ≤ s.depth ∧
      d = ⟨.nestedTooDeeply setup.settings.maxDepth, s.currentPosition⟩ ∨
    s.depth < setup.settings.maxDepth ∧
      Failure setup (.climb least) { s with depth := s.depth + 1 } d := by
  constructor
  · intro hfailure
    cases hfailure with
    | limit hdepth => exact .inl ⟨hdepth, rfl⟩
    | nested hdepth hclimb => exact .inr ⟨hdepth, hclimb⟩
    | refused hnone | operand hnone _ | inside hnone _ | unclosed hnone _ _ => cases hnone
  · rintro (⟨hdepth, rfl⟩ | ⟨hdepth, hclimb⟩)
    · exact .limit hdepth
    · exact .nested hdepth hclimb

/-- Without a token ahead a climb can only report that. -/
theorem failure_climb_of_done {least : Int} (hs : s.ahead = []) :
    Failure setup (.climb least) s d ↔ d = ⟨.endOfInput, s.endPosition⟩ := by
  have hskip : s.skipGroupedLineBreaks = s := by
    unfold State.skipGroupedLineBreaks
    split
    · exact State.skipLineBreaks_of_ahead_eq_nil hs
    · rfl
  have hnone : s.skipGroupedLineBreaks.current? = none := by rw [hskip, State.current?, hs]; rfl
  constructor
  · intro hfailure
    cases hfailure with
    | noToken _ => rw [hskip]
    | noPrefix htoken _ => cases hnone.symm.trans htoken
    | start htoken _ _ | extension htoken _ _ _ => cases hnone.symm.trans htoken.1
    | refused hnone | operand hnone _ | inside hnone _ | unclosed hnone _ _ => cases hnone
  · rintro rfl
    have hfailure : Failure setup (.climb least) s ⟨.endOfInput, s.skipGroupedLineBreaks.endPosition⟩ :=
      .noToken hnone
    rwa [hskip] at hfailure

theorem settles_expressionWithin (setup : Setup PrefixRule InfixRule) (bound : Nat) :
    Settles setup (Tree.language.expressionWithin setup bound) bound := by
  induction bound with
  | zero =>
    refine ⟨covers_expressionWithin setup 0, reaches_expressionWithin setup 0,
      (restores setup).expressionWithin 0, fun least s d _ hs => ?_⟩
    have hnil : s.ahead = [] := List.eq_nil_of_length_eq_zero (Nat.le_zero.1 hs)
    rw [expressionWithin, reports_nested, reports_endOfInput, failure_expression_iff,
      failure_climb_of_done (s := { s with depth := s.depth + 1 }) hnil]
  | succ bound ih =>
    refine ⟨covers_expressionWithin setup _, reaches_expressionWithin setup _,
      (restores setup).expressionWithin _, fun least s d hg hs => ?_⟩
    rw [expressionWithin, reports_nested, failure_expression_iff,
      reports_climb (s := { s with depth := s.depth + 1 }) ih hg hs]

theorem settles_expression (setup : Setup PrefixRule InfixRule) (size : Nat) :
    Settles setup (Tree.language.expression setup) size := by
  refine ⟨covers_expression setup, reaches_expression setup size, (restores setup).expression,
    fun least s d hg _ => ?_⟩
  rw [expression, reports_look]
  exact (settles_expressionWithin setup _).reports least s d hg (Nat.le_refl _)

end Language

namespace Program

variable {source : String} {settings : Settings} {tokens : List Token}

/-- The statements of a block report exactly what they have a failure with. -/
theorem block_reports_iff {setup : Setup PrefixRule InfixRule} {level : Nat} {s : State}
    {d : Diagnostic} (hg : s.groups ≠ []) :
    Reports (setup.program.block level) s d ↔ Failure setup (.statements level) s d :=
  Reader.reports_block (Language.settles_expression setup _) hg (Nat.le_refl _)

/-- A program reports exactly what its statements have a failure with. -/
theorem parse_eq_reported_iff {d : Diagnostic} :
    parse source settings tokens = .error (.reported d) ↔ Failure (setup source settings)
      (.statements 0) (.start settings.indentWidth tokens) d := by
  rw [← block_reports_iff (List.cons_ne_nil _ _), Reports, parse]
  cases (setup source settings).program.block 0 (.start settings.indentWidth tokens) with
  | ok trees t => simp
  | error e t => simp

/-- A program is read or something is reported about it. -/
theorem parse_cases (source : String) (settings : Settings) (tokens : List Token) :
    (∃ trees, parse source settings tokens = .ok trees) ∨
      ∃ d, parse source settings tokens = .error (.reported d) := by
  have hlaw := restores (setup source settings)
  have hblock : Restored _ ((setup source settings).program.block 0
      (.start settings.indentWidth tokens)) :=
    hlaw.block hlaw.expression 0 _ (List.cons_ne_nil _ _)
  unfold parse
  cases hresult : (setup source settings).program.block 0 (.start settings.indentWidth tokens) with
  | ok trees t => exact .inl ⟨trees, rfl⟩
  | error e t =>
    cases e with
    | reported d => exact .inr ⟨d, rfl⟩
    | misused m =>
      rw [hresult] at hblock
      exact absurd hblock id

/-- The diagnostic that is reported about a program, if any is. -/
def reported? : Except Fault (List Tree) → Option Diagnostic
  | .error (.reported d) => some d
  | .error (.misused _) => none
  | .ok _ => none

theorem reported?_eq_some_iff {result : Except Fault (List Tree)} {d : Diagnostic} :
    reported? result = some d ↔ result = .error (.reported d) := by
  fun_cases reported? result <;> simp_all

end Program

end Offside
