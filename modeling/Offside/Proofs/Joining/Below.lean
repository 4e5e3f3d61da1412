import Offside.Program
import Offside.Proofs.Reading.Compositional
import Offside.Proofs.Reading.Steps

set_option autoImplicit false

/-!
# Tokens passed long ago

A reading looks back at the last token it has passed and at no other. With more tokens below those
already passed it gives the same tree or reports the same fault, at the same place.
-/
namespace Offside

namespace Reading

variable {α β : Type} {below : List Token} {s t : State}

namespace State

/-- The state with more tokens below those it has passed. -/
def under (s : State) (below : List Token) : State := { s with passed := s.passed ++ below }

theorem head?_passed_under (h : s.passed ≠ []) : (s.under below).passed.head? = s.passed.head? := by
  obtain ⟨k, ks, hk⟩ := List.exists_cons_of_ne_nil h
  simp [under, hk]

theorem looksLike_under (h : s.passed ≠ []) : s.LooksLike (s.under below) where
  ahead := rfl
  inGroup := rfl
  afterLineBreak := by simp only [afterLineBreak, head?_passed_under h]

theorem endPosition_under (h : s.passed ≠ [] ∨ s.ahead ≠ []) :
    (s.under below).endPosition = s.endPosition := by
  have hahead : (s.under below).ahead = s.ahead := rfl
  unfold endPosition
  rw [hahead]
  cases hlast : s.ahead.getLast? with
  | some k => rfl
  | none =>
    have hnil : s.ahead = [] := List.getLast?_eq_none_iff.1 hlast
    simp only [head?_passed_under (h.resolve_right (absurd hnil))]

theorem currentPosition_under (h : s.passed ≠ [] ∨ s.ahead ≠ []) :
    (s.under below).currentPosition = s.currentPosition := by
  have hcurrent : (s.under below).current? = s.current? := rfl
  simp only [currentPosition, hcurrent, endPosition_under h]

theorem advance_under : (s.under below).advance = s.advance.under below := by
  have hahead : (s.under below).ahead = s.ahead := rfl
  unfold advance
  rw [hahead]
  cases s.ahead <;> rfl

theorem passed_advance (h : s.passed ≠ []) : s.advance.passed ≠ [] := by
  unfold advance
  split
  · exact h
  · exact List.cons_ne_nil _ _

theorem skipLineBreaks_under : (s.under below).skipLineBreaks = s.skipLineBreaks.under below := by
  simp [skipLineBreaks, under]

theorem passed_skipLineBreaks (h : s.passed ≠ []) : s.skipLineBreaks.passed ≠ [] :=
  List.append_ne_nil_of_right_ne_nil _ h

theorem closeGroup?_under : (s.under below).closeGroup? = s.closeGroup?.map (·.under below) := by
  have hgroups : (s.under below).groups = s.groups := rfl
  unfold closeGroup?
  rw [hgroups]
  split <;> rfl

theorem passed_of_closeGroup? (h : s.closeGroup? = some t) : t.passed = s.passed := by
  unfold closeGroup? at h
  split at h
  · cases h
    rfl
  · cases h

theorem openGroup_under : (s.under below).openGroup = s.openGroup.under below := by
  have hgroups : (s.under below).groups = s.groups := rfl
  unfold openGroup
  rw [hgroups]
  split <;> rfl

theorem passed_openGroup : s.openGroup.passed = s.passed := by
  unfold openGroup
  split <;> rfl

end State

/-- The second result is the first one with the tokens below. -/
inductive Lifted (below : List Token) :
    EStateM.Result Fault State α → EStateM.Result Fault State α → Prop
  | value {a : α} {s : State} (h : s.passed ≠ []) : Lifted below (.ok a s) (.ok a (s.under below))
  | fault {e : Fault} {s : State} : Lifted below (.error e s) (.error e (s.under below))

/-- From the state the reading does the same with the tokens below. -/
def Agrees (below : List Token) (f : Reading α) (s : State) : Prop :=
  Lifted below (f s) (f (s.under below))

/-- Once a token was passed, the reading does not see those below. -/
def Blind (below : List Token) (f : Reading α) : Prop := ∀ s, s.passed ≠ [] → Agrees below f s

/-- What comes behind a reading goes on from both results alike. -/
theorem Agrees.bind {f : Reading α} {g : α → Reading β} (h : Agrees below f s)
    (hg : ∀ a, Blind below (g a)) : Agrees below (f >>= g) s := by
  unfold Agrees at h ⊢
  rw [bind_apply, bind_apply]
  generalize f s = r, f (s.under below) = r' at h
  cases h with
  | value hpassed => exact hg _ _ hpassed
  | fault => exact .fault

/-- The reading takes the tokens below along, whatever was passed. -/
def Carries (below : List Token) (f : Reading α) : Prop :=
  ∀ s, (∃ a t, f s = .ok a t ∧ f (s.under below) = .ok a (t.under below) ∧
      (s.passed ≠ [] → t.passed ≠ [])) ∨
    ∃ e t, f s = .error e t ∧ f (s.under below) = .error e (t.under below)

theorem carries_closeGroup : Carries below closeGroup := by
  intro s
  unfold closeGroup
  rw [State.closeGroup?_under]
  cases hclose : s.closeGroup? with
  | none => exact .inr ⟨_, s, rfl, rfl⟩
  | some t => exact .inl ⟨(), t, rfl, rfl, fun h => by rwa [State.passed_of_closeGroup? hclose]⟩

theorem carries_closeGroup_behind_lines : Carries below (Reading.skipLineBreaks *> closeGroup) := by
  intro s
  have hskip : ∀ t, (Reading.skipLineBreaks *> closeGroup) t = closeGroup t.skipLineBreaks :=
    fun _ => rfl
  rw [hskip, hskip, State.skipLineBreaks_under]
  have hclose : Carries below closeGroup := carries_closeGroup
  rcases hclose s.skipLineBreaks with ⟨a, t, ht, ht', hpassed⟩ | hfault
  · exact .inl ⟨a, t, ht, ht', fun h => hpassed (State.passed_skipLineBreaks h)⟩
  · exact .inr hfault

theorem carries_closeBlock : Carries below closeBlock := by
  intro s
  have hindentation : (s.under below).indentation = s.indentation := rfl
  unfold closeBlock State.closeBlock?
  rw [hindentation]
  cases s.indentation.decrease? with
  | none => exact .inr ⟨_, s, rfl, rfl⟩
  | some i => exact .inl ⟨_, _, rfl, rfl, id⟩

/-- What is closed behind a reading is closed with the tokens below as well. -/
theorem Agrees.finishing {f : Reading α} {finish : Reading β} (h : Agrees below f s)
    (hfinish : Carries below finish) : Agrees below (finishing f finish) s := by
  unfold Agrees at h ⊢
  unfold Reading.finishing
  generalize f s = r, f (s.under below) = r' at h
  cases h with
  | @value a t ht =>
    simp only [seqRight_eq_bind, bind_apply]
    rcases hfinish t with ⟨b, u, hu, hu', hpassed⟩ | ⟨e, u, hu, hu'⟩
    · rw [hu, hu']
      exact .value (hpassed ht)
    · rw [hu, hu']
      exact .fault
  | @fault e t =>
    cases e with
    | misused m => exact .fault
    | reported d =>
      simp only [seqRight_eq_bind, bind_apply]
      rcases hfinish t with ⟨b, u, hu, hu', _⟩ | ⟨e, u, hu, hu'⟩ <;> rw [hu, hu'] <;> exact .fault

theorem Agrees.nested {limit : Nat} {f : Reading α} (hs : s.passed ≠ [] ∨ s.ahead ≠ [])
    (h : Agrees below f { s with depth := s.depth + 1 }) : Agrees below (nested limit f) s := by
  have hdepth : (s.under below).depth = s.depth := rfl
  have hunder : { s.under below with depth := s.depth + 1 } =
      ({ s with depth := s.depth + 1 } : State).under below := rfl
  unfold Agrees at h ⊢
  unfold Reading.nested
  rw [hdepth, hunder]
  split
  · rw [State.currentPosition_under hs]
    exact .fault
  · generalize f _ = r, f (State.under _ below) = r' at h
    cases h with
    | value hpassed => exact .value hpassed
    | fault => exact .fault

/-- Every step of a reading is blind, and so is what is put together from readings that are. -/
theorem blind {P I : Type} (setup : Setup P I) (below : List Token) :
    Compositional setup (Blind below) where
  value a := fun s hs => .value hs
  bind hf hg := fun s hs => (hf s hs).bind hg
  fault cause position := fun s _ => .fault
  endOfInput := by
    intro α s hs
    unfold Agrees endOfInput
    rw [State.endPosition_under (.inl hs)]
    exact .fault
  current := by
    intro s hs
    have hcurrent : (s.under below).current? = s.current? := rfl
    unfold Agrees current endOfInput
    rw [hcurrent, State.endPosition_under (.inl hs)]
    split
    · exact .value hs
    · exact .fault
  consume := by
    intro s hs
    have hcurrent : (s.under below).current? = s.current? := rfl
    unfold Agrees consume endOfInput
    rw [hcurrent, State.endPosition_under (.inl hs), State.advance_under]
    split
    · exact .value (State.passed_advance hs)
    · exact .fault
  isNext kind := fun s hs => .value hs
  accept kind := by
    intro s hs
    have hnext : (s.under below).isNext kind = s.isNext kind := rfl
    unfold Agrees accept
    rw [hnext, State.advance_under]
    split
    · exact .value (State.passed_advance hs)
    · exact .value hs
  skipLineBreaks := by
    intro s hs
    change Lifted below (.ok () _) (.ok () (s.under below).skipLineBreaks)
    rw [State.skipLineBreaks_under]
    exact .value (State.passed_skipLineBreaks hs)
  skipGroupedLineBreaks := by
    intro s hs
    have hgroup : (s.under below).inGroup = s.inGroup := rfl
    change Lifted below (.ok () s.skipGroupedLineBreaks)
      (.ok () (s.under below).skipGroupedLineBreaks)
    unfold State.skipGroupedLineBreaks
    rw [hgroup, State.skipLineBreaks_under]
    split
    · exact .value (State.passed_skipLineBreaks hs)
    · exact .value hs
  look := by
    intro α f hsees h s hs
    change Lifted below (f s s) (f (s.under below) (s.under below))
    rw [← hsees s _ (State.looksLike_under hs)]
    exact h s s hs
  bracketed h := by
    intro s hs
    change Lifted below (finishing _ _ s.openGroup) (finishing _ _ (s.under below).openGroup)
    rw [State.openGroup_under]
    exact (h _ (State.passed_openGroup.symm ▸ hs)).finishing carries_closeGroup
  bracketedLines h := by
    intro s hs
    change Lifted below (finishing _ _ s.openGroup) (finishing _ _ (s.under below).openGroup)
    rw [State.openGroup_under]
    exact (h _ (State.passed_openGroup.symm ▸ hs)).finishing carries_closeGroup_behind_lines
  blocked h := fun s hs => (h _ s.openBlock hs).finishing carries_closeBlock
  nested h := fun s hs => .nested (.inl hs) (h _ hs)

/-- What a reading gives, without the state it stops in. -/
def outcome : EStateM.Result Fault State α → Except Fault α
  | .ok a _ => .ok a
  | .error e _ => .error e

theorem Lifted.outcome_eq {r r' : EStateM.Result Fault State α} (h : Lifted below r r') :
    outcome r' = outcome r := by
  cases h <;> rfl

end Reading

open Reading

namespace Reader

/-- What a block reads where its line breaks are passed, if `rest` reads what is behind a statement. -/
def lineThen (r : Reader Tree) (level : Nat) (rest : Reading (List Tree)) (s : State) :
    EStateM.Result Fault State (List Tree) :=
  match s.skipLineBreaks.current? with
  | none => .ok [] s.skipLineBreaks
  | some token =>
    if token.column < level then .ok [] s.skipLineBreaks
    else if level < token.column then
      .error (.reported ⟨.indentation level token.column, token.span.start⟩) s.skipLineBreaks
    else
      (r.statement >>= fun tree => rest >>= fun trees => pure (tree :: trees)) s.skipLineBreaks

theorem statementsWithin_succ (r : Reader Tree) (level bound : Nat) (s : State) :
    r.statementsWithin level (bound + 1) s = r.lineThen level (r.statementsWithin level bound) s := by
  have hlines : Reading.skipLineBreaks s = .ok () s.skipLineBreaks := rfl
  have hget : (get : Reading State) s.skipLineBreaks = .ok s.skipLineBreaks s.skipLineBreaks := rfl
  unfold lineThen
  cases hcurrent : s.skipLineBreaks.current? with
  | none =>
    simp only [statementsWithin, bind_apply, hlines, hget, hcurrent]
    rfl
  | some token =>
    simp only [statementsWithin, bind_apply, hlines, hget, hcurrent]
    split
    · rfl
    · split
      · rfl
      · simp only [bind_apply]

end Reader

section Opening

variable {setup : Setup PrefixRule InfixRule} {below : List Token} {s : State}

theorem agrees_first {operand : Int → Reading Tree} (hahead : s.ahead ≠ []) (hout : ¬s.inGroup)
    (hstarts : ∀ (rule : PrefixRule) token, Blind below (rule.read (setup.reader operand) token)) :
    Agrees below (Tree.language.first setup operand) s := by
  obtain ⟨k, ks, hs⟩ := List.exists_cons_of_ne_nil hahead
  obtain ⟨rest, hrest, hfirst⟩ : ∃ rest : Reading Tree, Blind below rest ∧
      ∀ t : State, t.ahead = k :: ks → ¬t.inGroup →
        Tree.language.first setup operand t = rest t.advance := by
    have htaken : ∀ t : State, t.ahead = k :: ks → ¬t.inGroup →
        skipGroupedLineBreaks t = .ok () t ∧ consume t = .ok k t.advance := by
      intro t ht hin
      constructor
      · change EStateM.Result.ok () t.skipGroupedLineBreaks = _
        rw [State.skipGroupedLineBreaks, if_neg hin]
      · simp [consume, State.current?, ht]
    cases hrule : setup.grammar.prefixRule? k.kind with
    | none =>
      refine ⟨fail (.noPrefixRule k.kind) k.span.start, fun t _ => .fault, fun t ht hin => ?_⟩
      simp only [Language.first, bind_apply, htaken t ht hin, hrule]
    | some rule =>
      refine ⟨_, hstarts rule k, fun t ht hin => ?_⟩
      simp only [Language.first, bind_apply, htaken t ht hin, hrule]
      rfl
  unfold Agrees
  rw [hfirst s hs hout, hfirst (s.under below) hs hout, State.advance_under]
  exact hrest _ (by simp [State.advance, hs])

/-- An expression passes its first token before it looks back. -/
theorem agrees_expression (hahead : s.ahead ≠ []) (hout : ¬s.inGroup) (least : Int) :
    Agrees below (Tree.language.expression setup least) s := by
  obtain ⟨bound, hbound⟩ := Nat.exists_eq_add_one.2 (List.length_pos_iff.2 hahead)
  have hlaw := blind setup below
  have hexpression : ∀ t : State, t.ahead.length = bound + 1 →
      Tree.language.expression setup least t =
        Tree.language.expressionWithin setup (bound + 1) least t := by
    intro t ht
    change Tree.language.expressionWithin setup t.ahead.length least t = _
    rw [ht]
  have hstarts := hlaw.prefixRule (hlaw.expressionWithin bound)
  have hcontinues : ∀ rule left token,
      Blind below (Tree.language.infixRule rule (setup.reader _) left token) :=
    hlaw.infixRule (hlaw.expressionWithin bound)
  have hbody : Agrees below (Tree.language.expressionWithin setup (bound + 1) least) s := by
    have hfirst : Agrees below (Tree.language.first setup _) { s with depth := s.depth + 1 } :=
      agrees_first hahead hout hstarts
    refine Agrees.nested (.inr hahead) (hfirst.bind fun left => ?_)
    exact hlaw.look (fun _ _ hst => by simp only [hst.ahead])
      fun s => hlaw.extend hcontinues least s.ahead.length left
  unfold Agrees
  rw [hexpression s hbound, hexpression (s.under below) hbound]
  exact hbody

theorem agrees_statement (hahead : s.ahead ≠ []) (hout : ¬s.inGroup) :
    Agrees below setup.program.statement s := by
  have hlaw := blind setup below
  refine (agrees_expression hahead hout 0).bind fun tree => hlaw.look (fun s t hst => ?_) fun s => ?_
  · simp only [hst.done, hst.afterLineBreak]
  · split
    · exact hlaw.value tree
    · exact hlaw.bind (hlaw.require _ _) fun _ => hlaw.value tree

/-- The statements of a block are the same with tokens below those passed, also if none was passed. -/
theorem outcome_block_under {level : Nat} (hskip : s.skipLineBreaks = s) (hout : ¬s.inGroup) :
    outcome (setup.program.block level (s.under below)) = outcome (setup.program.block level s) := by
  have hskip' : (s.under below).skipLineBreaks = s.under below := by
    rw [State.skipLineBreaks_under, hskip]
  have hcurrent : (s.under below).current? = s.current? := rfl
  change outcome (setup.program.statementsWithin level s.ahead.length (s.under below)) =
    outcome (setup.program.statementsWithin level s.ahead.length s)
  cases hs : s.ahead with
  | nil => rfl
  | cons k ks =>
    rw [List.length_cons, Reader.statementsWithin_succ, Reader.statementsWithin_succ, Reader.lineThen,
      Reader.lineThen, hskip', hskip, hcurrent, State.current?, hs, List.head?_cons]
    simp only
    split
    · rfl
    · split
      · rfl
      · have hlaw := blind setup below
        have hstatement : Agrees below setup.program.statement s :=
          agrees_statement (hs ▸ List.cons_ne_nil k ks) hout
        have hrest := hlaw.statementsWithin hlaw.expression level ks.length
        exact (hstatement.bind fun tree => hlaw.bind hrest fun trees =>
          hlaw.value (tree :: trees)).outcome_eq

end Opening

end Offside
