import Offside.Proofs.Reading.Passing
import Offside.Rule

set_option autoImplicit false

/-!
# Runs

A run is a reading that gave trees, told without the bounds that end its loops: which rule was used at
each place, and from which state to which. What every successful reading does is proved by induction on
its run.
-/
namespace Offside

open Reading

/-- The name that a tree consists of. -/
def Tree.name? : Tree → Option String
  | .identifier _ name => some name
  | _ => none

/-- What is read: an expression, the part of one that a rule reads, the rest of a bracketed sequence,
of a block, or the body of a function or a conditional. -/
inductive Task
  | expression (least : Int)
  | climb (least : Int)
  | extension (least : Int) (left : Tree)
  | start (rule : PrefixRule) (token : Token)
  | continuation (rule : InfixRule) (left : Tree) (token : Token)
  | items (close : Kind)
  | statements (level : Nat)
  | body

/-- The task is carried out from one state to the other and gives the trees; all but sequences, blocks
and bodies give one tree. -/
inductive Run (setup : Setup PrefixRule InfixRule) : Task → State → List Tree → State → Prop
  | nested {least : Int} {s t : State} {n : Tree} (hdepth : s.depth < setup.settings.maxDepth)
      (hclimb : Run setup (.climb least) { s with depth := s.depth + 1 } [n] t) :
      Run setup (.expression least) s [n] { t with depth := t.depth - 1 }
  | first {least : Int} {s t u v : State} {token : Token} {rule : PrefixRule} {left n : Tree}
      (htoken : s.skipGroupedLineBreaks.Takes token t)
      (hrule : setup.grammar.prefixRule? token.kind = some rule)
      (hstart : Run setup (.start rule token) t [left] u)
      (hextension : Run setup (.extension least left) u [n] v) :
      Run setup (.climb least) s [n] v
  | stop {least : Int} {left : Tree} {s : State} (hloose : s.done ∨ setup.power s ≤ least) :
      Run setup (.extension least left) s [left] s
  | next {least : Int} {s t u v : State} {left longer n : Tree} {token : Token} {rule : InfixRule}
      (htight : ¬(s.done ∨ setup.power s ≤ least))
      (htoken : s.skipGroupedLineBreaks.Takes token t)
      (hrule : setup.grammar.infixRule? token.kind = some rule)
      (hcontinuation : Run setup (.continuation rule left token) t [longer] u)
      (hextension : Run setup (.extension least longer) u [n] v) :
      Run setup (.extension least left) s [n] v
  | identifier {token : Token} {s : State} :
      Run setup (.start .identifier token) s [.identifier token.span (token.text setup.source)] s
  | number {token : Token} {s : State} {value : Binary64}
      (hvalue : Binary64.ofText? (token.text setup.source) = some value) :
      Run setup (.start .number token) s [.number token.span value] s
  | string {token : Token} {s : State} {cs : List Char}
      (hinside : Reader.unquoted? (token.text setup.source).toList = some cs) :
      Run setup (.start .string token) s
        [.string token.span (Text.unescape (String.ofList cs))] s
  | boolean {token : Token} {s : State} :
      Run setup (.start .boolean token) s [.boolean token.span (token.kind = .trueWord)] s
  | unary {token : Token} {s t : State} {operator : Operator} {operand : Tree}
      (hoperator : Operator.unary? token.kind = some operator)
      (hoperand : Run setup (.expression Level.unary.power) s [operand] t) :
      Run setup (.start .unary token) s
        [.unary (token.span.through operand.span) operator operand] t
  | parameters {token stop : Token} {s t u : State} {items : List Tree} {names : List String}
      (hitems : Run setup (.items .closeParen) s.openGroup items t)
      (hstop : t.Closes .closeParen stop u) (harrow : u.isNext .arrow)
      (hnames : items.map Tree.name? = names.map some) :
      Run setup (.start .parenthesis token) s
        [.parameters (token.span.through stop.span) names] u
  | grouping {token stop : Token} {s t u : State} {item : Tree}
      (hitem : Run setup (.items .closeParen) s.openGroup [item] t)
      (hstop : t.Closes .closeParen stop u) (harrow : ¬u.isNext .arrow) :
      Run setup (.start .parenthesis token) s [item.withSpan (token.span.through stop.span)] u
  | list {token stop : Token} {s t u : State} {items : List Tree}
      (hitems : Run setup (.items .closeBracket) s.openGroup items t)
      (hstop : t.Closes .closeBracket stop u) :
      Run setup (.start .list token) s [.list (token.span.through stop.span) items] u
  | binary {token : Token} {s t : State} {operator : Operator} {left right : Tree}
      (hoperator : Operator.binary? token.kind = some operator)
      (hright : Run setup (.expression (setup.grammar.power token.kind)) s [right] t) :
      Run setup (.continuation .binary left token) s
        [.binary (left.span.through right.span) operator left right] t
  | assignment {token : Token} {s t : State} {left value : Tree} (htarget : left.isAssignable)
      (hvalue : Run setup (.expression (setup.grammar.power token.kind - 1)) s [value] t) :
      Run setup (.continuation .assignment left token) s
        [.assign (left.span.through value.span) left value] t
  | conditional {token : Token} {s t : State} {left : Tree} {trees : List Tree}
      (hbody : Run setup .body s trees t) :
      Run setup (.continuation .conditional left token) s
        [.conditional (Reader.spanThrough left.span trees) left trees] t
  | function {token : Token} {s t : State} {left : Tree} {names : List String}
      {trees : List Tree} (hnames : Reader.parameters? left = some names)
      (hbody : Run setup .body s trees t) :
      Run setup (.continuation .function left token) s
        [.function (Reader.spanThrough left.span trees) names trees] t
  | call {token stop : Token} {s t u : State} {left : Tree} {items : List Tree}
      (hitems : Run setup (.items .closeParen) s.openGroup items t)
      (hstop : t.Closes .closeParen stop u) :
      Run setup (.continuation .call left token) s
        [.call (left.span.through stop.span) left items] u
  | index {token stop : Token} {s t u : State} {left item : Tree}
      (hitem : Run setup (.expression 0) s.openGroup [item] t)
      (hstop : t.skipLineBreaks.Closes .closeBracket stop u) :
      Run setup (.continuation .index left token) s
        [.index (left.span.through stop.span) left item] u
  | noItems {close : Kind} {s : State} (hclosed : s.skipLineBreaks.isNext close) :
      Run setup (.items close) s [] s.skipLineBreaks
  | lastItem {close : Kind} {s t : State} {item : Tree} (hopen : ¬s.skipLineBreaks.isNext close)
      (hitem : Run setup (.expression 0) s.skipLineBreaks [item] t)
      (hlast : ¬t.skipLineBreaks.isNext .comma) :
      Run setup (.items close) s [item] t.skipLineBreaks
  | item {close : Kind} {s t u v : State} {item : Tree} {items : List Tree} {comma : Token}
      (hopen : ¬s.skipLineBreaks.isNext close)
      (hitem : Run setup (.expression 0) s.skipLineBreaks [item] t)
      (hcomma : t.skipLineBreaks.Takes comma u) (hkind : comma.kind = .comma)
      (hitems : Run setup (.items close) u items v) :
      Run setup (.items close) s (item :: items) v
  | noTokens {level : Nat} {s : State} (hdone : s.skipLineBreaks.current? = none) :
      Run setup (.statements level) s [] s.skipLineBreaks
  | outdent {level : Nat} {s : State} {token : Token}
      (htoken : s.skipLineBreaks.current? = some token) (hcolumn : token.column < level) :
      Run setup (.statements level) s [] s.skipLineBreaks
  | statement {level : Nat} {s t u v : State} {token : Token} {tree : Tree} {trees : List Tree}
      (htoken : s.skipLineBreaks.current? = some token) (hcolumn : token.column = level)
      (htree : Run setup (.expression 0) s.skipLineBreaks [tree] t) (hline : t.EndsLine u)
      (htrees : Run setup (.statements level) u trees v) :
      Run setup (.statements level) s (tree :: trees) v
  | inlineBody {s t : State} {tree : Tree} (hinline : ¬s.isNext .newline)
      (htree : Run setup (.expression 0) s [tree] t) :
      Run setup .body s [tree] t
  | indentedBody {s t u : State} {token : Token} {trees : List Tree}
      (hbreak : s.isNext .newline)
      (htoken : s.skipLineBreaks.current? = some token)
      (hcolumn : s.skipLineBreaks.openBlock.indentation.current ≤ token.column)
      (htrees : Run setup (.statements s.skipLineBreaks.openBlock.indentation.current)
        s.skipLineBreaks.openBlock trees t)
      (hclose : t.closeBlock? = some u) :
      Run setup .body s trees u

namespace Run

/-- A climb that starts at `s` reads `left` up to `t`, and goes on to extend it. -/
def Starts (setup : Setup PrefixRule InfixRule) (least : Int) (s : State) (left : Tree) (t : State) :
    Prop :=
  ∀ u n, Run setup (.extension least left) t [n] u → Run setup (.climb least) s [n] u

/-- An extension of `left` at `s` makes it `longer` up to `t`, and goes on to extend that. -/
def Extends (setup : Setup PrefixRule InfixRule) (least : Int) (s : State) (left longer : Tree)
    (t : State) : Prop :=
  ∀ u n, Run setup (.extension least longer) t [n] u → Run setup (.extension least left) s [n] u

variable {setup : Setup PrefixRule InfixRule} {task : Task} {s t : State} {out : List Tree}

/-- A run passes tokens and leaves everything else as it was. -/
theorem passes (h : Run setup task s out t) : ∃ ks, s.Passes ks t := by
  induction h with
  | nested _ _ ih =>
    obtain ⟨ks, h⟩ := ih
    exact ⟨ks, h.ahead, h.passed, h.indentation, h.groups, by simp [h.depth]⟩
  | first htoken _ _ _ ih ih' | next _ htoken _ _ _ ih ih' =>
    obtain ⟨ks, h⟩ := ih
    obtain ⟨ls, h'⟩ := ih'
    exact ⟨_, (((State.passes_skipGroupedLineBreaks _).trans htoken.passes).trans h).trans h'⟩
  | stop _ | identifier | number _ | string _ | boolean => exact ⟨[], .refl _⟩
  | unary _ _ ih | binary _ _ ih | assignment _ _ ih | conditional _ ih | function _ _ ih
  | inlineBody _ _ ih => exact ih
  | parameters _ hstop _ _ ih | grouping _ hstop _ ih | list _ hstop ih | call _ hstop ih =>
    obtain ⟨ks, h⟩ := ih
    exact ⟨_, hstop.passes h⟩
  | index _ hstop ih =>
    obtain ⟨ks, h⟩ := ih
    exact ⟨_, hstop.passes (h.trans (State.passes_skipLineBreaks _))⟩
  | noItems _ | noTokens _ | outdent _ _ => exact ⟨_, State.passes_skipLineBreaks _⟩
  | lastItem _ _ _ ih =>
    obtain ⟨ks, h⟩ := ih
    exact ⟨_, ((State.passes_skipLineBreaks _).trans h).trans (State.passes_skipLineBreaks _)⟩
  | item _ _ hcomma _ _ ih ih' =>
    obtain ⟨ks, h⟩ := ih
    obtain ⟨ls, h'⟩ := ih'
    exact ⟨_, ((((State.passes_skipLineBreaks _).trans h).trans
      (State.passes_skipLineBreaks _)).trans hcomma.passes).trans h'⟩
  | statement _ _ _ hline _ ih ih' =>
    obtain ⟨ks, h⟩ := ih
    obtain ⟨ls, h'⟩ := ih'
    obtain ⟨ms, _, hm⟩ := hline.passes
    exact ⟨_, (((State.passes_skipLineBreaks _).trans h).trans hm).trans h'⟩
  | indentedBody _ _ _ _ hclose ih =>
    obtain ⟨ks, h⟩ := ih
    exact ⟨_, (State.passes_skipLineBreaks _).trans (State.passes_of_closeBlock? h hclose)⟩

/-- The tokens ahead of the end of a run are those that it leaves. -/
theorem suffix (h : Run setup task s out t) : t.ahead <:+ s.ahead := by
  obtain ⟨ks, hpasses⟩ := h.passes
  exact hpasses.suffix

/-- An expression starts with the token that a rule is put on. -/
theorem first_token {least : Int} (h : Run setup (.expression least) s out t) :
    ∃ token rule, s.skipGroupedLineBreaks.current? = some token ∧
      setup.grammar.prefixRule? token.kind = some rule := by
  cases h with
  | nested _ hclimb =>
    cases hclimb with
    | @first _ _ _ _ _ token rule _ _ htoken hrule _ _ =>
      refine ⟨token, rule, ?_, hrule⟩
      rw [← htoken.1]
      unfold State.skipGroupedLineBreaks
      by_cases hin : s.inGroup
      · rw [if_pos hin, if_pos (show State.inGroup { s with depth := s.depth + 1 } from hin)]
        rfl
      · rw [if_neg hin, if_neg (show ¬State.inGroup { s with depth := s.depth + 1 } from hin)]
        rfl

/-- Before an expression stands no token without a rule that starts one. -/
theorem not_isNext {least : Int} {kind : Kind} (h : Run setup (.expression least) s out t)
    (hk : kind ≠ .newline) (hrule : setup.grammar.prefixRule? kind = none) : ¬s.isNext kind := by
  intro hnext
  obtain ⟨token, rule, htoken, hstart⟩ := h.first_token
  rw [State.skipGroupedLineBreaks_of_isNext hnext hk] at htoken
  obtain ⟨_, hcurrent, rfl⟩ := State.isNext_iff.1 hnext
  obtain rfl := Option.some.inj (hcurrent.symm.trans htoken)
  rw [hrule] at hstart
  cases hstart

/-- The number of tokens ahead does not grow. -/
theorem length_ahead_le (h : Run setup task s out t) : t.ahead.length ≤ s.ahead.length := by
  obtain ⟨ks, h⟩ := h.passes
  have := h.length_ahead
  omega

theorem length_ahead_lt_of_climb {least : Int} (h : Run setup (.climb least) s out t) :
    t.ahead.length < s.ahead.length := by
  cases h with
  | first htoken _ hstart hextension =>
    have := hstart.length_ahead_le
    have := hextension.length_ahead_le
    have := ((State.passes_skipGroupedLineBreaks _).trans htoken.passes).length_ahead
    simp only [List.length_append, List.length_singleton] at this
    omega

/-- An expression passes a token. -/
theorem length_ahead_lt {least : Int} (h : Run setup (.expression least) s out t) :
    t.ahead.length < s.ahead.length := by
  cases h with
  | nested _ hclimb => exact hclimb.length_ahead_lt_of_climb

/-- A block whose first token reaches its level has a statement. -/
theorem statements_ne_nil {level : Nat} {token : Token} (h : Run setup (.statements level) s out t)
    (htoken : s.skipLineBreaks.current? = some token) (hcolumn : level ≤ token.column) : out ≠ [] := by
  cases h with
  | noTokens hdone => cases hdone.symm.trans htoken
  | outdent htoken' hlt =>
    obtain rfl := Option.some.inj (htoken'.symm.trans htoken)
    omega
  | statement => exact List.cons_ne_nil _ _

/-- A body has a statement. -/
theorem body_ne_nil (h : Run setup .body s out t) : out ≠ [] := by
  cases h with
  | inlineBody => exact List.cons_ne_nil _ _
  | @indentedBody _ _ _ token _ _ htoken hcolumn htrees _ =>
    refine htrees.statements_ne_nil ?_ hcolumn
    rwa [State.skipLineBreaks_openBlock]

/-- The statements at column zero take all tokens. -/
theorem ahead_of_statements (h : Run setup task s out t) (ht : task = .statements 0) : t.ahead = [] := by
  induction h with
  | @noTokens _ s hdone => simpa [State.current?] using hdone
  | outdent _ hcolumn =>
    cases ht
    exact absurd hcolumn (Nat.not_lt_zero _)
  | statement _ _ _ _ _ _ ih => exact ih ht
  | _ => cases ht

end Run

end Offside
