import Offside.Proofs.DefaultGrammar
import Offside.Proofs.Run.LineStarts

set_option autoImplicit false

/-!
# Finished trees

A parameter list is a tree only as long as its arrow is next. What is read in front of an arrow that binds
too loosely may hold such a list, but then no reading gets past the arrow; so every tree that is given in
the end is finished, at every depth.
-/
namespace Offside

open Reading

namespace Operator

/-- The operators that stand between two operands. -/
def binaries : List Operator :=
  [.add, .subtract, .multiply, .divide, .modulo, .equal, .notEqual, .less, .lessEqual, .greater,
    .greaterEqual]

/-- The operators that stand before their operand. -/
def unaries : List Operator := [.negate, .not]

theorem mem_binaries {kind : Kind} {operator : Operator} (h : binary? kind = some operator) :
    operator ∈ binaries := by
  cases kind <;> cases h <;> decide

theorem mem_unaries {kind : Kind} {operator : Operator} (h : unary? kind = some operator) :
    operator ∈ unaries := by
  cases kind <;> cases h <;> decide

end Operator

namespace Tree

/-- What is true of every node of a finished tree by itself. -/
def Finished : Tree → Prop
  | .parameters _ _ => False
  | .function _ _ body => body ≠ []
  | .binary _ operator _ _ => operator ∈ Operator.binaries
  | .unary _ operator _ => operator ∈ Operator.unaries
  | .assign _ target _ => target.isAssignable
  | .conditional _ _ body => body ≠ []
  | _ => True

/-- Every node of the tree is finished. -/
inductive AllFinished : Tree → Prop
  | node {t : Tree} (h : t.Finished) (hchildren : ∀ c ∈ t.children, AllFinished c) : AllFinished t

theorem preorder_eq (depth : Nat) (t : Tree) :
    t.preorder depth = (depth, t) :: preorderAll (depth + 1) t.children := by
  cases t <;> simp [preorder, preorderAll, children]

theorem mem_preorderAll {depth : Nat} {q : Nat × Tree} {ts : List Tree} :
    q ∈ preorderAll depth ts ↔ ∃ t ∈ ts, q ∈ t.preorder depth := by
  induction ts with
  | nil => simp [preorderAll]
  | cons t ts ih => simp [preorderAll, ih]

/-- The tree and every node in it have the property. -/
inductive Everywhere (P : Tree → Prop) : Tree → Prop
  | node {t : Tree} (h : P t) (hchildren : ∀ c ∈ t.children, Everywhere P c) : Everywhere P t

theorem Everywhere.children {P : Tree → Prop} {t : Tree} (h : t.Everywhere P) :
    ∀ c ∈ t.children, c.Everywhere P := by
  cases h with
  | node _ hchildren => exact hchildren

theorem Everywhere.imp {P Q : Tree → Prop} {t : Tree} (h : t.Everywhere P) (hPQ : ∀ n, P n → Q n) :
    t.Everywhere Q := by
  induction h with
  | node h _ ih => exact .node (hPQ _ h) ih

theorem Everywhere.preorder {P : Tree → Prop} {t : Tree} (h : t.Everywhere P) (depth : Nat) :
    ∀ q ∈ t.preorder depth, P q.2 := by
  induction h generalizing depth with
  | node h _ ih =>
    intro q hq
    rw [preorder_eq] at hq
    rcases List.mem_cons.1 hq with rfl | hq
    · exact h
    · obtain ⟨c, hc, hq⟩ := mem_preorderAll.1 hq
      exact ih c hc _ q hq

theorem AllFinished.finished {t : Tree} (h : t.AllFinished) : t.Finished := by
  cases h with
  | node h _ => exact h

theorem AllFinished.children {t : Tree} (h : t.AllFinished) : ∀ c ∈ t.children, c.AllFinished := by
  cases h with
  | node _ hchildren => exact hchildren

theorem AllFinished.everywhere {t : Tree} (h : t.AllFinished) : t.Everywhere AllFinished := by
  induction h with
  | node h hchildren ih => exact .node (.node h hchildren) ih

theorem AllFinished.preorder {t : Tree} (h : t.AllFinished) (depth : Nat) :
    ∀ q ∈ t.preorder depth, q.2.Finished :=
  fun q hq => (h.everywhere.preorder depth q hq).finished

theorem AllFinished.withSpan {t : Tree} (h : t.AllFinished) (span : Span) :
    (t.withSpan span).AllFinished := by
  cases h with
  | node h hchildren => cases t <;> exact .node h hchildren

end Tree

namespace Reading.State

/-- An arrow is next, on the line of the token before it. -/
def BeforeArrow (s : State) : Prop := s.isNext .arrow ∧ ¬s.afterLineBreak

variable {s t u : State} {stop token : Token}

theorem Closes.not_afterLineBreak {close : Kind} (h : t.Closes close stop u) (hclose : close ≠ .newline) :
    ¬u.afterLineBreak := by
  obtain ⟨_, _, htakes, rfl⟩ := h
  exact not_afterLineBreak_of_behind? (behind?_of_takes htakes) hclose

theorem BeforeArrow.power (h : s.BeforeArrow) (source : String) (settings : Settings) :
    (Program.setup source settings).power s = Level.function.power := by
  obtain ⟨token, htoken, hkind⟩ := isNext_iff.1 h.1
  obtain ⟨rest, hahead⟩ := current?_eq_some_iff.1 htoken
  have harrow : Program.power .arrow = Level.function.power := rfl
  simp [Setup.power, State.power, h.2, htoken, hahead, hkind, harrow]

theorem BeforeArrow.not_done (h : s.BeforeArrow) : ¬s.done := by
  obtain ⟨token, htoken, _⟩ := isNext_iff.1 h.1
  obtain ⟨rest, hahead⟩ := current?_eq_some_iff.1 htoken
  simp [done, hahead]

theorem BeforeArrow.kind_eq (h : s.BeforeArrow) (htakes : s.skipGroupedLineBreaks.Takes token t) :
    token.kind = .arrow := by
  rw [skipGroupedLineBreaks_of_isNext h.1 (by decide)] at htakes
  exact kind_eq_of_isNext htakes.isNext h.1

end Reading.State

namespace Run

variable {source : String} {settings : Settings} {task : Task} {s t : State} {out : List Tree}

/-- What a task is given: a tree that is not finished is only given in front of an arrow, and only to the
rule of the arrow behind it. -/
def GivenFinished (s : State) : Task → Prop
  | .extension _ left => left.AllFinished ∨ s.BeforeArrow
  | .continuation rule left _ => rule = .function ∨ left.AllFinished
  | _ => True

/-- What a task gives: a tree that is not finished stands in front of an arrow that the task leaves to its
caller. -/
def GivesFinished (out : List Tree) (t : State) : Task → Prop
  | .expression least | .climb least | .extension least _ =>
    ∀ n ∈ out, n.AllFinished ∨ t.BeforeArrow ∧ Level.function.power ≤ least
  | .start _ _ | .continuation _ _ _ => ∀ n ∈ out, n.AllFinished ∨ t.BeforeArrow
  | .items _ | .statements _ | .body => ∀ n ∈ out, n.AllFinished

theorem finished_of_expression {n : Tree}
    (h : GivesFinished [n] t (.expression 0)) : n.AllFinished :=
  (h n (List.mem_singleton_self n)).resolve_right fun ⟨_, hpower⟩ => absurd hpower (by decide)

theorem gives_finished (h : Run (Program.setup source settings) task s out t) (hs : GivenFinished s task) :
    GivesFinished out t task := by
  induction h with
  | nested _ _ ih => exact ih trivial
  | first _ _ _ _ ih ih' =>
    have hleft := List.forall_mem_singleton.1 (ih trivial)
    exact ih' hleft
  | stop hloose =>
    refine List.forall_mem_singleton.2 (hs.imp_right fun harrow => ⟨harrow, ?_⟩)
    rw [← harrow.power source settings]
    exact hloose.resolve_left harrow.not_done
  | @next _ _ _ _ _ left _ _ token rule _ htoken hrule _ _ ih ih' =>
    have hgiven : rule = .function ∨ left.AllFinished := by
      refine hs.symm.imp_left fun harrow => ?_
      have hfits : Program.Fits (.continuation rule left token) := Program.fits_continuation hrule
      rw [Program.Fits, harrow.kind_eq htoken] at hfits
      exact (Option.some.inj hfits).symm
    have hlonger := List.forall_mem_singleton.1 (ih hgiven)
    exact ih' hlonger
  | identifier | number | string | boolean =>
    exact List.forall_mem_singleton.2 (.inl (.node trivial nofun))
  | unary hoperator _ ih =>
    refine List.forall_mem_singleton.2
      ((List.forall_mem_singleton.1 (ih trivial)).imp (fun hoperand => ?_) And.left)
    exact .node (Operator.mem_unaries hoperator) (by simpa [Tree.children] using hoperand)
  | parameters _ hstop harrow _ _ =>
    exact fun _ _ => .inr ⟨harrow, hstop.not_afterLineBreak (by decide)⟩
  | grouping _ _ _ ih =>
    exact List.forall_mem_singleton.2 (.inl ((List.forall_mem_singleton.1 (ih trivial)).withSpan _))
  | list _ _ ih =>
    exact List.forall_mem_singleton.2 (.inl (.node trivial (ih trivial)))
  | binary hoperator _ ih =>
    have hleft := hs.resolve_left (by decide)
    refine List.forall_mem_singleton.2
      ((List.forall_mem_singleton.1 (ih trivial)).imp (fun hright => ?_) And.left)
    exact .node (Operator.mem_binaries hoperator) (by simp [Tree.children, hleft, hright])
  | assignment htarget _ ih =>
    have hleft := hs.resolve_left (by decide)
    refine List.forall_mem_singleton.2
      ((List.forall_mem_singleton.1 (ih trivial)).imp (fun hvalue => ?_) And.left)
    exact .node htarget (by simp [Tree.children, hleft, hvalue])
  | conditional hbody ih =>
    have hleft := hs.resolve_left (by decide)
    exact List.forall_mem_singleton.2
      (.inl (.node hbody.body_ne_nil (List.forall_mem_cons.2 ⟨hleft, ih trivial⟩)))
  | function _ hbody ih =>
    exact List.forall_mem_singleton.2 (.inl (.node hbody.body_ne_nil (ih trivial)))
  | call _ _ ih =>
    have hleft := hs.resolve_left (by decide)
    exact List.forall_mem_singleton.2
      (.inl (.node trivial (List.forall_mem_cons.2 ⟨hleft, ih trivial⟩)))
  | index _ _ ih =>
    have hleft := hs.resolve_left (by decide)
    have hitem := finished_of_expression (ih trivial)
    exact List.forall_mem_singleton.2 (.inl (.node trivial (by simp [Tree.children, hleft, hitem])))
  | noItems | noTokens | outdent => exact List.forall_mem_nil _
  | lastItem _ _ _ ih => exact List.forall_mem_singleton.2 (finished_of_expression (ih trivial))
  | item _ _ _ _ _ ih ih' | statement _ _ _ _ _ ih ih' =>
    exact List.forall_mem_cons.2 ⟨finished_of_expression (ih trivial), ih' trivial⟩
  | inlineBody _ _ ih => exact List.forall_mem_singleton.2 (finished_of_expression (ih trivial))
  | indentedBody _ _ _ _ _ ih => exact ih trivial

end Run

namespace Program

variable {source : String} {settings : Settings} {tokens : List Token} {trees : List Tree}

/-- The trees of a program are finished at every depth: no parameter list is left, operators stand where
they belong, only names and index expressions are assigned to, and no body is empty. -/
theorem parse_finished (h : parse source settings tokens = .ok trees) :
    ∀ q ∈ Tree.preorderAll 0 trees, q.2.Finished := by
  intro q hq
  obtain ⟨t, hrun⟩ := parse_eq_ok_iff.1 h
  obtain ⟨n, hn, hq⟩ := Tree.mem_preorderAll.1 hq
  have hall : n.AllFinished := hrun.gives_finished trivial n hn
  exact hall.preorder 0 q hq

/-- A function with parameters assigns to an index expression, behind a conditional with a block. -/
theorem parse_finished_of_function : ∃ tokens trees,
    Tokens.ofSource "a ?\n  -b\n(f, i) -> f[i] = i + 1" = .ok tokens ∧
    parse "a ?\n  -b\n(f, i) -> f[i] = i + 1" {} tokens = .ok trees ∧
    trees.map Tree.render = ["(? a (- b))", "(fn (f i) (= (index f i) (+ i 1)))"] ∧
    ∀ q ∈ Tree.preorderAll 0 trees, q.2.Finished := by
  obtain ⟨tokens, trees, htokens, hparse, htrees⟩ : ∃ tokens trees,
      Tokens.ofSource "a ?\n  -b\n(f, i) -> f[i] = i + 1" = .ok tokens ∧
      parse "a ?\n  -b\n(f, i) -> f[i] = i + 1" {} tokens = .ok trees ∧
      trees.map Tree.render = ["(? a (- b))", "(fn (f i) (= (index f i) (+ i 1)))"] :=
    exists_of_parse (by decide +kernel)
  exact ⟨tokens, trees, htokens, hparse, htrees, parse_finished hparse⟩

end Program

end Offside
