import Offside.Program.Session
import Offside.Proofs.Reading.Bracketing
import Offside.Proofs.Reading.Restoring

set_option autoImplicit false

/-!
# What commands keep

Commands may open brackets and blocks and leave them open, read by any grammar, and go on behind a reported
fault. Each keeps a count of brackets for every level, the levels one step apart and no expression open, comes
to a place no further back, and is misused only if it closes what is not open.
-/
namespace Offside

open Reading

/-- The session goes on in the other one: the play replied there or reported a fault. -/
def Play.GoesTo {P I N : Type} (play : Play P I N) (session next : Session P I) : Prop :=
  (∃ reply, play session = .ok reply next) ∨ ∃ d, play session = .error (.reported d) next

namespace Program

/-- There is a count of brackets for each open block, and one for the level below all blocks. -/
def Counted (s : State) : Prop := s.groups.length = s.indentation.depth + 1

namespace Counted

variable {s t : State}

theorem groups_ne_nil (h : Counted s) : s.groups ≠ [] :=
  List.ne_nil_of_length_pos (by rw [h]; exact Nat.succ_pos _)

theorem of_sameFrame (h : Counted s) (ht : s.SameFrame t) : Counted t := by
  unfold Counted
  rw [ht.groups, ht.indentation]
  exact h

theorem openGroup (h : Counted s) : Counted s.openGroup := by
  unfold State.openGroup
  split
  · exact h
  next n outer hg =>
    unfold Counted at h ⊢
    rw [hg] at h
    exact h

theorem closeGroup? (h : Counted s) (ht : s.closeGroup? = some t) : Counted t := by
  unfold State.closeGroup? at ht
  split at ht
  next n outer hg =>
    cases ht
    unfold Counted at h ⊢
    rw [hg] at h
    exact h
  next => cases ht

theorem openBlock (h : Counted s) : Counted s.openBlock := congrArg (· + 1) h

theorem closeBlock? (h : Counted s) (ht : s.closeBlock? = some t) : Counted t := by
  obtain ⟨i, hi, rfl⟩ := Option.map_eq_some_iff.1 ht
  unfold Indentation.decrease? at hi
  split at hi
  next => cases hi
  next level outer hlevels =>
    cases hi
    unfold Counted Indentation.depth at h ⊢
    rw [hlevels, List.length_cons] at h
    rw [List.length_tail, h, Nat.add_sub_cancel]

end Counted

end Program

namespace Reading

variable {s t : State} {e : Fault}

/-- A bracket cannot be closed exactly where none is open in the innermost block. -/
theorem closeGroup_eq_error : closeGroup s = .error e t ↔
    s.closeGroup? = none ∧ e = .misused .noOpenGroup ∧ t = s := by
  unfold closeGroup
  cases s.closeGroup? <;> simp [eq_comm]

/-- A block cannot be closed exactly where none is open. -/
theorem closeBlock_eq_error : closeBlock s = .error e t ↔
    s.closeBlock? = none ∧ e = .misused .noOpenBlock ∧ t = s := by
  unfold closeBlock
  cases s.closeBlock? <;> simp [eq_comm]

end Reading

namespace Reading.State

variable {s t : State} {tokens : List Token} {width : Nat}

/-- The levels of the open blocks, from column zero below them all to the innermost one. -/
def levels (s : State) : List Nat := 0 :: s.indentation.levels.reverse

/-- What commands keep of a state: the tokens, a count of brackets for each level, each level one step deeper
than the one around it, and no expression that is left open. -/
structure Kept (tokens : List Token) (width : Nat) (s : State) : Prop where
  tokens : s.tokens = tokens
  counted : Program.Counted s
  levels : s.levels = (List.range (s.indentation.depth + 1)).map (· * width)
  step : s.indentation.step = width
  depth : s.depth = 0

namespace Kept

theorem start (tokens : List Token) (width : Nat) : (start width tokens).Kept tokens width :=
  ⟨rfl, rfl, by simp [State.levels, State.start, Indentation.base, Indentation.depth], rfl, rfl⟩

theorem of_sameFrame (h : s.Kept tokens width) (hframe : s.SameFrame t) (honward : s.Onward t) :
    t.Kept tokens width := by
  refine ⟨honward.tokens.trans h.tokens, h.counted.of_sameFrame hframe, ?_, ?_, hframe.depth.trans h.depth⟩
  · rw [State.levels, hframe.indentation]
    exact h.levels
  · rw [hframe.indentation]
    exact h.step

theorem openGroup (h : s.Kept tokens width) : s.openGroup.Kept tokens width := by
  have hcounted := h.counted.openGroup
  unfold State.openGroup at hcounted ⊢
  split
  · exact h
  next hgroups => 
    rw [hgroups] at hcounted
    exact ⟨h.tokens, hcounted, h.levels, h.step, h.depth⟩

theorem closeGroup? (h : s.Kept tokens width) (ht : s.closeGroup? = some t) : t.Kept tokens width := by
  have hcounted := h.counted.closeGroup? ht
  unfold State.closeGroup? at ht
  split at ht
  · cases ht
    exact ⟨h.tokens, hcounted, h.levels, h.step, h.depth⟩
  · cases ht

/-- The innermost block is as many steps deep as blocks are open. -/
theorem current (h : s.Kept tokens width) : s.indentation.current = s.indentation.depth * width := by
  have hlast := congrArg List.getLast? h.levels
  rw [List.range_succ, List.map_append, List.map_singleton, List.getLast?_concat, State.levels,
    List.getLast?_cons, List.getLast?_reverse] at hlast
  rw [← Option.some.inj hlast, Indentation.current]
  cases s.indentation.levels <;> rfl

/-- The new level is one step deeper than the last one. -/
theorem openBlock (h : s.Kept tokens width) : s.openBlock.Kept tokens width := by
  refine ⟨h.tokens, h.counted.openBlock, ?_, h.step, h.depth⟩
  have hlevels : s.openBlock.levels = s.levels ++ [s.indentation.current + s.indentation.step] := by
    simp [State.levels, State.openBlock, Indentation.increase]
  have hdepth : s.openBlock.indentation.depth = s.indentation.depth + 1 := rfl
  rw [hlevels, h.levels, h.current, h.step, hdepth, ← Nat.succ_mul,
    List.range_succ (n := s.indentation.depth + 1), List.map_append, List.map_singleton]

theorem closeBlock? (h : s.Kept tokens width) (ht : s.closeBlock? = some t) : t.Kept tokens width := by
  have hcounted := h.counted.closeBlock? ht
  have hlevels := h.levels
  obtain ⟨i, hi, rfl⟩ := Option.map_eq_some_iff.1 ht
  unfold Indentation.decrease? at hi
  split at hi
  next => cases hi
  next level outer hs =>
    cases hi
    have hdepth : s.indentation.depth = outer.length + 1 := congrArg List.length hs
    have hsplit : s.levels = (0 :: outer.reverse) ++ [level] := by simp [State.levels, hs]
    rw [hsplit, hdepth, List.range_succ, List.map_append, List.map_singleton] at hlevels
    exact ⟨h.tokens, hcounted, (List.append_inj' hlevels rfl).1, h.step, h.depth⟩

end Kept

end Reading.State

/-! ### Commands -/

/-- Whatever the setup, the expressions of the language restore what they open and never go back. -/
structure Language.Sound {P I N : Type} (language : Language P I N) : Prop where
  restores (setup : Setup P I) (least : Int) : Restores (language.expression setup least)
  advances (setup : Setup P I) (least : Int) : Advances (language.expression setup least)

theorem Tree.sound_language : Tree.language.Sound :=
  ⟨fun setup => (restores setup).expression, fun setup => (advances setup).expression⟩

theorem Bracketing.sound_language : Bracketing.language.Sound :=
  ⟨fun setup => law_expression (Reading.restores setup) fun h s hs => h s s hs,
    fun setup => law_expression (Reading.advances setup) fun h s => h s s⟩

section Commands

variable {P I N α : Type} {tokens : List Token} {width : Nat} {session next : Session P I}

/-- A play comes to a session that is kept too, no further back. -/
def Play.Keeps (play : Play P I N) : Prop :=
  ∀ {tokens width session next}, session.state.Kept tokens width → play.GoesTo session next →
    next.state.Kept tokens width ∧ session.state.position ≤ next.state.position

namespace Play

/-- Wherever a play goes that makes a reading, there the reading has come. -/
theorem cases_of_read {reading : Setup P I → Reading α} {reply : α → Reply N}
    (h : (read reading reply).GoesTo session next) :
    (∃ a, reading session.setup session.state = .ok a next.state) ∨
      ∃ d, reading session.setup session.state = .error (.reported d) next.state := by
  unfold GoesTo read at h
  cases hr : reading session.setup session.state with
  | ok a t =>
    simp only [hr, EStateM.Result.ok.injEq, reduceCtorEq, exists_false, or_false] at h
    obtain ⟨_, _, rfl⟩ := h
    exact .inl ⟨a, rfl⟩
  | error e t =>
    simp only [hr, EStateM.Result.error.injEq, reduceCtorEq, exists_false, false_or] at h
    obtain ⟨d, rfl, rfl⟩ := h
    exact .inr ⟨d, rfl⟩

theorem keeps_regrammar (change : Grammar P I → Grammar P I) : (regrammar change : Play P I N).Keeps := by
  rintro tokens width session next hs (⟨_, h⟩ | ⟨_, h⟩) <;> cases h
  exact ⟨hs, Nat.le_refl _⟩

theorem keeps_ask (answer : Session P I → Reply N) : (ask answer).Keeps := by
  rintro tokens width session next hs (⟨_, h⟩ | ⟨_, h⟩) <;> cases h
  exact ⟨hs, Nat.le_refl _⟩

theorem keeps_read {reading : Setup P I → Reading α} (reply : α → Reply N)
    (hrestores : ∀ setup, Restores (reading setup)) (hadvances : ∀ setup, Advances (reading setup)) :
    (read reading reply).Keeps := by
  intro tokens width session next hs h
  have hr := hrestores session.setup session.state hs.counted.groups_ne_nil
  rcases cases_of_read h with ⟨a, ht⟩ | ⟨d, ht⟩
  · rw [ht] at hr
    have honward := (hadvances _).of_eq_ok ht
    exact ⟨hs.of_sameFrame hr honward, honward.position⟩
  · rw [ht] at hr
    have honward := (hadvances _).of_eq_error ht
    exact ⟨hs.of_sameFrame hr honward, honward.position⟩

/-- A step that opens or closes something is kept if the states are that it can come to. -/
theorem keeps_step {reading : Reading α} (reply : α → Reply N)
    (hok : ∀ tokens width s a t, s.Kept tokens width → reading s = .ok a t →
      t.Kept tokens width ∧ s.Onward t)
    (herror : ∀ s d t, reading s ≠ .error (.reported d) t) :
    (read (fun _ : Setup P I => reading) reply).Keeps := by
  intro tokens width session next hs h
  rcases cases_of_read h with ⟨a, ht⟩ | ⟨d, ht⟩
  · obtain ⟨hkept, honward⟩ := hok _ _ _ _ _ hs ht
    exact ⟨hkept, honward.position⟩
  · exact absurd ht (herror _ _ _)

end Play

namespace Command

variable {language : Language P I N}

/-- Every command of a session keeps it, by whatever language it reads. -/
theorem keeps (hlanguage : language.Sound) (command : Command P I) : (command.play language).Keeps := by
  cases command <;> simp only [play]
  case setPower | setPrefix | setInfix | setOperator => exact Play.keeps_regrammar _
  case isNext | hasIndentation | powerOf | textOf | settings => exact Play.keeps_ask _
  case openGroup =>
    refine Play.keeps_step _ (fun _ _ s _ _ hs ht => ?_) fun _ _ _ ht => ?_
    · obtain rfl := openGroup_eq_ok.1 ht
      exact ⟨hs.openGroup, s.onward_openGroup⟩
    · cases ht
  case closeGroup =>
    refine Play.keeps_step _ (fun _ _ s _ _ hs ht => ?_) fun _ _ _ ht => ?_
    · have hclose := closeGroup_eq_ok.1 ht
      exact ⟨hs.closeGroup? hclose, State.onward_closeGroup? hclose⟩
    · cases (closeGroup_eq_error.1 ht).2.1
  case openBlock =>
    refine Play.keeps_step _ (fun _ _ s _ _ hs ht => ?_) fun _ _ _ ht => ?_
    · obtain rfl := (openBlock_eq_ok.1 ht).2
      exact ⟨hs.openBlock, s.onward_openBlock⟩
    · cases ht
  case closeBlock =>
    refine Play.keeps_step _ (fun _ _ s _ _ hs ht => ?_) fun _ _ _ ht => ?_
    · have hclose := (closeBlock_eq_ok.1 ht).1
      exact ⟨hs.closeBlock? hclose, State.onward_closeBlock? hclose⟩
    · cases (closeBlock_eq_error.1 ht).2.1
  case current =>
    exact Play.keeps_read _ (fun setup => (restores setup).current) fun setup => (advances setup).current
  case consume =>
    exact Play.keeps_read _ (fun setup => (restores setup).consume) fun setup => (advances setup).consume
  case require kind =>
    exact Play.keeps_read _ (fun setup => (restores setup).require _ kind)
      fun setup => (advances setup).require _ kind
  case accept kind =>
    exact Play.keeps_read _ (fun setup => (restores setup).accept kind)
      fun setup => (advances setup).accept kind
  case expression least =>
    exact Play.keeps_read _ (hlanguage.restores · least) (hlanguage.advances · least)

end Command

end Commands

/-! ### Commands of the language -/

namespace Program.Command

variable {tokens : List Token} {width : Nat} {session next : Session PrefixRule InfixRule}

theorem keeps (command : Command) : command.play.Keeps := by
  cases command <;> simp only [play]
  case engine command => exact command.keeps Tree.sound_language
  case useGrammar => exact Play.keeps_regrammar _
  case statement =>
    exact Play.keeps_read _ (fun setup => (restores setup).statement (restores setup).expression)
      fun setup => (advances setup).statement (advances setup).expression
  case body =>
    exact Play.keeps_read _ (fun setup => (restores setup).body (restores setup).expression)
      fun setup => (advances setup).body (advances setup).expression
  case block level =>
    exact Play.keeps_read _ (fun setup => (restores setup).block (restores setup).expression level)
      fun setup => (advances setup).block (advances setup).expression level

end Program.Command

end Offside
