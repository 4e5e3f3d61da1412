import Offside.Program
import Offside.Proofs.Reading.Compositional
import Offside.Proofs.Reading.Steps

set_option autoImplicit false

/-!
# Watched readings

Columns are computed from the level of a block in two places: one step is added to it where a block is opened
inside, and the column behind it is looked for where a line starts. A watch says in which states that is
allowed. A program is read under a watch as it is without one, or it is stopped at the first thing that is not
allowed. So what is done while a program is read is what makes a difference if it is forbidden.
-/
namespace Offside

open Reading

/-- What is allowed where a column is computed from a level. -/
structure Watch where
  /-- Whether a block may be opened inside the innermost one of the state. -/
  opens : State → Bool
  /-- Whether the column behind the level may be looked for in the state. -/
  looks : Nat → State → Bool

namespace Watch

/-- No reading of the language misuses a step, so one that ends like this has been stopped. -/
def stopped : Fault := .misused .noOpenBlock

def stopUnless (allowed : State → Bool) : Reading Unit := fun s =>
  if allowed s then .ok () s else .error stopped s

theorem stopUnless_of_allowed {allowed : State → Bool} {s : State} (h : allowed s = true) :
    stopUnless allowed s = .ok () s := if_pos h

section Readers

variable (w : Watch) (r : Reader Tree)

def statementsWithin (level : Nat) : Nat → Reading (List Tree)
  | 0 => pure []
  | bound + 1 => do
    skipLineBreaks
    let s ← get
    match s.current? with
    | none => pure []
    | some token =>
      if token.column < level then pure []
      else do
        stopUnless (w.looks level)
        if level < token.column then fail (.indentation level token.column) token.span.start
        else do
          let tree ← r.statement
          let trees ← statementsWithin level bound
          pure (tree :: trees)

def block (level : Nat) : Reading (List Tree) := do
  let s ← get
  w.statementsWithin r level s.ahead.length

def indentedBlock : Reading (List Tree) := do
  stopUnless w.opens
  let level ← openBlock
  finishing
    (do
      let token ← current
      if token.column < level then fail (.indentation level token.column) token.span.start
      else w.block r level)
    closeBlock

def body : Reading (List Tree) := do
  if ← accept .newline then do
    skipLineBreaks
    w.indentedBlock r
  else do
    let tree ← r.operand 0
    pure [tree]

end Readers

/-- The language, with its bodies read under the watch. -/
def language (w : Watch) : Language PrefixRule InfixRule Tree :=
  ⟨PrefixRule.read, fun rule r => rule.readWith (w.body r) r⟩

def program (w : Watch) (setup : Setup PrefixRule InfixRule) : Reader Tree :=
  setup.reader (w.language.expression setup)

/-- The statements of a program that is read under the watch. -/
def parse (w : Watch) (source : String) (settings : Settings) (tokens : List Token) :
    Except Fault (List Tree) :=
  match w.block (w.program (Program.setup source settings)) 0 (.start settings.indentWidth tokens) with
  | .ok trees _ => .ok trees
  | .error fault _ => .error fault

/-- The second reading does as the first one, or is stopped. -/
def Follows {α : Type} (f f' : Reading α) : Prop := ∀ s, f' s = f s ∨ ∃ t, f' s = .error stopped t

namespace Follows

variable {α β : Type} {f f' : Reading α}

theorem refl (f : Reading α) : Follows f f := fun _ => .inl rfl

theorem bind {g g' : α → Reading β} (hf : Follows f f') (hg : ∀ a, Follows (g a) (g' a)) :
    Follows (f >>= g) (f' >>= g') := by
  intro s
  rcases hf s with hsame | ⟨t, hstop⟩
  · simp only [bind_apply, hsame]
    cases f s with
    | ok a t => exact hg a t
    | error e t => exact .inl rfl
  · exact .inr ⟨t, by rw [bind_apply, hstop]⟩

theorem stopUnless {allowed : State → Bool} (hf : Follows f f') :
    Follows f (Watch.stopUnless allowed >>= fun _ => f') := by
  intro s
  by_cases h : allowed s = true
  · have hs := stopUnless_of_allowed h
    simp only [bind_apply, hs]
    exact hf s
  · exact .inr ⟨s, by rw [bind_apply, Watch.stopUnless, if_neg h]⟩

theorem finishing (hf : Follows f f') (finish : Reading β) :
    Follows (finishing f finish) (finishing f' finish) := by
  intro s
  unfold Reading.finishing
  rcases hf s with hsame | ⟨t, hstop⟩
  · exact .inl (by rw [hsame])
  · exact .inr ⟨t, by rw [hstop]; rfl⟩

theorem nested (hf : Follows f f') (limit : Nat) : Follows (nested limit f) (nested limit f') := by
  intro s
  unfold Reading.nested
  split
  · exact .inl rfl
  · rcases hf { s with depth := s.depth + 1 } with hsame | ⟨t, hstop⟩
    · exact .inl (by rw [hsame])
    · exact .inr ⟨_, by rw [hstop]⟩

end Follows

theorem follows {P I : Type} (setup : Setup P I) : Relational setup @Follows where
  value _ := .refl _
  bind := .bind
  fault _ _ := .refl _
  endOfInput := .refl _
  current := .refl _
  consume := .refl _
  isNext _ := .refl _
  accept _ := .refl _
  skipLineBreaks := .refl _
  skipGroupedLineBreaks := .refl _
  look _ h := fun s => h s s
  bracketed h := .bind (.refl _) fun _ => h.finishing _
  bracketedLines h := .bind (.refl _) fun _ => h.finishing _
  nested h := h.nested _

section Follows

variable {setup : Setup PrefixRule InfixRule} {operand operand' : Int → Reading Tree} (w : Watch)

theorem follows_statementsWithin (hoperand : ∀ least, Follows (operand least) (operand' least))
    (level bound : Nat) : Follows ((setup.reader operand).statementsWithin level bound)
      (w.statementsWithin (setup.reader operand') level bound) := by
  have h := follows setup
  induction bound with
  | zero => exact h.value []
  | succ bound ih =>
    refine h.bind h.skipLineBreaks fun _ => h.look (fun s t hst => ?_) fun s => ?_
    · exact ⟨by simp only [hst.current?], by simp only [hst.current?]⟩
    · cases s.current? with
      | none => exact h.value []
      | some token =>
        by_cases hleft : token.column < level
        · simp only [hleft, if_true]
          exact h.value []
        simp only [hleft, if_false]
        refine .stopUnless ?_
        split
        · exact h.fault _ _
        · exact h.bind (h.statement hoperand) fun tree => h.bind ih fun trees => h.value (tree :: trees)

theorem follows_block (hoperand : ∀ least, Follows (operand least) (operand' least)) (level : Nat) :
    Follows ((setup.reader operand).block level) (w.block (setup.reader operand') level) :=
  (follows setup).look (fun _ _ hst => by simp only [hst.ahead, and_self])
    fun s => w.follows_statementsWithin hoperand level s.ahead.length

theorem follows_body (hoperand : ∀ least, Follows (operand least) (operand' least)) :
    Follows (setup.reader operand).body (w.body (setup.reader operand')) := by
  have h := follows setup
  refine h.bind (h.accept _) fun broken => ?_
  cases broken with
  | true =>
    refine h.bind h.skipLineBreaks fun _ => .stopUnless ?_
    refine .bind (.refl _) fun level => .finishing (h.bind h.current fun token => ?_) _
    split
    · exact h.fault _ _
    · exact w.follows_block hoperand level
  | false => exact h.bind (hoperand 0) fun tree => h.value [tree]

theorem follows_expressionWithin (bound : Nat) (least : Int) :
    Follows (Tree.language.expressionWithin setup bound least)
      (w.language.expressionWithin setup bound least) := by
  have h := follows setup
  induction bound generalizing least with
  | zero => exact .refl _
  | succ bound ih =>
    refine h.nested (h.climb (h.prefixRule ih) (fun rule left token => ?_) least)
    change Follows (rule.read _ left token) (rule.readWith _ _ left token)
    rw [← rule.readWith_body]
    exact h.infixRule ih (w.follows_body ih) rule left token

theorem follows_program (setup : Setup PrefixRule InfixRule) (level : Nat) :
    Follows (setup.program.block level) (w.block (w.program setup) level) := by
  refine w.follows_block (fun least => ?_) level
  exact (follows setup).look (fun _ _ hst => by simp only [hst.ahead, and_self])
    fun s => w.follows_expressionWithin s.ahead.length least

end Follows

/-- A program is read under a watch as it is without one, or it is stopped. -/
theorem parse_eq_or_stopped (w : Watch) (source : String) (settings : Settings) (tokens : List Token) :
    w.parse source settings tokens = Program.parse source settings tokens ∨
      w.parse source settings tokens = .error stopped := by
  have h := w.follows_program (Program.setup source settings) 0 (.start settings.indentWidth tokens)
  unfold parse Program.parse
  rcases h with hsame | ⟨t, hstop⟩
  · rw [hsame]
    exact .inl rfl
  · rw [hstop]
    exact .inr rfl

theorem parse_ne_iff (w : Watch) (source : String) (settings : Settings) (tokens : List Token) :
    w.parse source settings tokens ≠ Program.parse source settings tokens ↔
      w.parse source settings tokens = .error stopped ∧
        Program.parse source settings tokens ≠ .error stopped := by
  constructor
  · intro hne
    have hstop := (w.parse_eq_or_stopped source settings tokens).resolve_left hne
    exact ⟨hstop, fun hparse => hne (hstop.trans hparse.symm)⟩
  · rintro ⟨hstop, hparse⟩ heq
    exact hparse (heq.symm.trans hstop)

instance (read : Except Fault (List Tree)) : Decidable (read = .error stopped) :=
  match read with
  | .ok _ => isFalse nofun
  | .error fault => decidable_of_iff (fault = stopped) ⟨congrArg _, Except.error.inj⟩

end Watch

namespace Program

/-- A block is opened in the state: the program is read otherwise if that is forbidden. -/
def OpensAt (source : String) (settings : Settings) (tokens : List Token) (s : State) : Prop :=
  Watch.parse ⟨fun t => t ≠ s, fun _ _ => true⟩ source settings tokens ≠ parse source settings tokens

/-- The column behind the level is looked for in the state: the program is read otherwise if that is
forbidden. -/
def LooksAt (source : String) (settings : Settings) (tokens : List Token) (level : Nat) (s : State) :
    Prop :=
  Watch.parse ⟨fun _ => true, fun l t => ¬(l = level ∧ t = s)⟩ source settings tokens ≠
    parse source settings tokens

instance (source : String) (settings : Settings) (tokens : List Token) (s : State) :
    Decidable (OpensAt source settings tokens s) :=
  decidable_of_iff _ (Watch.parse_ne_iff _ source settings tokens).symm

instance (source : String) (settings : Settings) (tokens : List Token) (level : Nat) (s : State) :
    Decidable (LooksAt source settings tokens level s) :=
  decidable_of_iff _ (Watch.parse_ne_iff _ source settings tokens).symm

end Program

end Offside
