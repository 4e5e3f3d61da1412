import Offside.Program
import Offside.Proofs.Reading.Steps
import Offside.Proofs.Run

set_option autoImplicit false

/-!
# Readings that succeed are runs

A reading gives trees exactly if there is a run that gives them. The bounds of the reading never matter:
every bound that the tokens ahead do not exceed gives the same trees.
-/
namespace Offside

open Reading

namespace Reading.State

variable {s : State} {kind : Kind}

theorem takes_of_isNext (h : s.isNext kind) : ∃ t, s.Takes t s.advance ∧ t.kind = kind := by
  obtain ⟨t, ht, hk⟩ := isNext_iff.1 h
  exact ⟨t, ⟨ht, rfl⟩, hk⟩

theorem done_iff : s.done ↔ s.ahead = [] := by simp [done]

theorem skipLineBreaks_of_ahead_eq_nil (h : s.ahead = []) : s.skipLineBreaks = s := by
  cases s
  simp_all [skipLineBreaks]

theorem advance_skipLineBreaks (h : s.isNext .newline) :
    s.advance.skipLineBreaks = s.skipLineBreaks := by
  obtain ⟨t, ht, hk⟩ := isNext_iff.1 h
  obtain ⟨rest, hs⟩ := current?_eq_some_iff.1 ht
  simp [skipLineBreaks, advance, hs, hk]

end Reading.State

namespace Reader

variable {setup : Setup PrefixRule InfixRule} {operand : Int → Reading Tree}
  {s t : State} {out : List Tree} {n : Tree}

theorem parameterNames_eq_ok {items : List Tree} {names : List String} :
    parameterNames items s = .ok names t ↔ items.map Tree.name? = names.map some ∧ s = t := by
  induction items generalizing names s t with
  | nil => cases names <;> simp [parameterNames, pure_eq_ok]
  | cons item items ih =>
    cases item with
    | identifier span name =>
      simp only [parameterNames, bind_eq_ok, pure_eq_ok, ih, List.map_cons, Tree.name?]
      constructor
      · rintro ⟨ns, u, ⟨h, rfl⟩, rfl, rfl⟩
        simp [h]
      · rintro ⟨h, rfl⟩
        cases names with
        | nil => simp at h
        | cons a ns =>
          simp only [List.map_cons, List.cons.injEq, Option.some.injEq] at h
          exact ⟨ns, s, ⟨h.2, rfl⟩, by rw [h.1], rfl⟩
    | _ => cases names <;> simp [parameterNames, fail_eq_ok, Tree.name?]

/-- Whatever `operand` reads has a run. -/
def Covers (setup : Setup PrefixRule InfixRule) (operand : Int → Reading Tree) : Prop :=
  ∀ least s n t, operand least s = .ok n t → Run setup (.expression least) s [n] t

theorem run_of_itemsWithin (h : Covers setup operand) {close : Kind} {bound : Nat}
    (hb : s.ahead.length ≤ bound)
    (hr : (setup.reader operand).itemsWithin close bound s = .ok out t) :
    Run setup (.items close) s out t := by
  induction bound generalizing s out with
  | zero =>
    simp only [itemsWithin, bind_eq_ok] at hr
    obtain ⟨item, u, hi, _⟩ := hr
    have := (h _ _ _ _ hi).length_ahead_lt
    omega
  | succ bound ih =>
    simp only [itemsWithin, bind_eq_ok, skipLineBreaks_eq_ok, isNext_eq_ok] at hr
    obtain ⟨_, _, rfl, b, _, ⟨hb', rfl⟩, hr⟩ := hr
    split at hr
    next hclosed =>
      obtain ⟨rfl, rfl⟩ := pure_eq_ok.1 hr
      exact .noItems (hb'.trans hclosed)
    next hopen =>
      simp only [bind_eq_ok, skipLineBreaks_eq_ok, accept_eq_ok] at hr
      obtain ⟨item, u, hi, _, _, rfl, c, v, ⟨hc, hv⟩, hr⟩ := hr
      have hopen' : ¬s.skipLineBreaks.isNext close := by rwa [hb']
      have hitem := h _ _ _ _ hi
      cases c with
      | false =>
        obtain ⟨rfl, rfl⟩ := pure_eq_ok.1 hr
        subst hv
        exact .lastItem hopen' hitem (State.isNext_eq_false_iff.1 hc)
      | true =>
        obtain ⟨items, w, hw, hr⟩ := bind_eq_ok.1 hr
        obtain ⟨rfl, rfl⟩ := pure_eq_ok.1 hr
        obtain ⟨comma, hcomma, hk⟩ := State.takes_of_isNext hc
        subst hv
        refine .item hopen' hitem hcomma hk (ih ?_ hw)
        have h₁ := (State.passes_skipLineBreaks s).length_ahead
        have h₂ := hitem.length_ahead_lt
        have h₃ := (State.passes_skipLineBreaks u).length_ahead
        have h₄ := hcomma.passes.length_ahead
        omega

theorem run_of_sequence (h : Covers setup operand) {close : Kind} {stop : Token}
    (hr : (setup.reader operand).sequence close s = .ok (out, stop) t) :
    ∃ u, Run setup (.items close) s.openGroup out u ∧ u.Closes close stop t := by
  simp only [sequence, items, bind_eq_ok, openGroup_eq_ok, finishing_eq_ok, closeGroup_eq_ok,
    require_eq_ok, pure_eq_ok, get_eq_ok, Prod.mk.injEq] at hr
  obtain ⟨_, _, rfl, items, u, ⟨v, _, ⟨_, _, ⟨rfl, rfl⟩, hi⟩, hu⟩, stop', w, hw, ⟨rfl, rfl⟩, rfl⟩ := hr
  exact ⟨v, run_of_itemsWithin h (Nat.le_refl _) hi, u, hu, ⟨hw.1, hw.2.2⟩, hw.2.1⟩

/-- A statement is an operand that ends its line. -/
theorem statement_eq_ok {r : Reader Tree} :
    r.statement s = .ok n t ↔ ∃ u, r.operand 0 s = .ok n u ∧ u.EndsLine t := by
  simp only [statement, bind_eq_ok, get_eq_ok, State.EndsLine]
  constructor
  · rintro ⟨m, u, hu, _, _, ⟨rfl, rfl⟩, ht⟩
    split at ht
    next hd =>
      obtain ⟨rfl, rfl⟩ := pure_eq_ok.1 ht
      exact ⟨u, hu, by rw [if_pos hd]⟩
    next hd =>
      simp only [bind_eq_ok, require_eq_ok, pure_eq_ok] at ht
      obtain ⟨stop, _, ⟨hs, hk, rfl⟩, rfl, rfl⟩ := ht
      exact ⟨u, hu, by rw [if_neg hd]; exact ⟨stop, ⟨hs, rfl⟩, hk⟩⟩
  · rintro ⟨u, hu, hline⟩
    refine ⟨n, u, hu, _, _, ⟨rfl, rfl⟩, ?_⟩
    split at hline
    next hd =>
      rw [if_pos hd, hline]
      exact pure_eq_ok.2 ⟨rfl, rfl⟩
    next hd =>
      obtain ⟨stop, ⟨htoken, rfl⟩, hk⟩ := hline
      simp only [if_neg hd, bind_eq_ok, require_eq_ok, pure_eq_ok]
      exact ⟨stop, _, ⟨htoken, hk, rfl⟩, trivial, rfl⟩

theorem run_of_statementsWithin (h : Covers setup operand) {level bound : Nat}
    (hb : s.ahead.length ≤ bound)
    (hr : (setup.reader operand).statementsWithin level bound s = .ok out t) :
    Run setup (.statements level) s out t := by
  induction bound generalizing s out with
  | zero =>
    obtain ⟨rfl, rfl⟩ := pure_eq_ok.1 hr
    have hs : s.ahead = [] := List.eq_nil_of_length_eq_zero (by omega)
    have := @Run.noTokens setup level s
    rw [State.skipLineBreaks_of_ahead_eq_nil hs] at this
    exact this (by simp [State.current?, hs])
  | succ bound ih =>
    simp only [statementsWithin, bind_eq_ok, skipLineBreaks_eq_ok, get_eq_ok] at hr
    obtain ⟨_, _, rfl, _, _, ⟨rfl, rfl⟩, hr⟩ := hr
    cases htoken : s.skipLineBreaks.current? with
    | none =>
      rw [htoken] at hr
      obtain ⟨rfl, rfl⟩ := pure_eq_ok.1 hr
      exact .noTokens htoken
    | some token =>
      simp only [htoken] at hr
      split at hr
      next hlt =>
        obtain ⟨rfl, rfl⟩ := pure_eq_ok.1 hr
        exact .outdent htoken hlt
      next hlt =>
        split at hr
        next => exact absurd hr (by simp [fail_eq_ok])
        next hle =>
          simp only [bind_eq_ok, statement_eq_ok, pure_eq_ok] at hr
          obtain ⟨tree, u, ⟨v, hv, hline⟩, trees, w, hw, rfl, rfl⟩ := hr
          have htree := h _ _ _ _ hv
          refine .statement htoken (by omega) htree hline (ih ?_ hw)
          obtain ⟨ks, _, hks⟩ := hline.passes
          have h₁ := (State.passes_skipLineBreaks s).length_ahead
          have h₂ := htree.length_ahead_lt
          have h₃ := hks.length_ahead
          omega

theorem run_of_block (h : Covers setup operand) {level : Nat}
    (hr : (setup.reader operand).block level s = .ok out t) :
    Run setup (.statements level) s out t := by
  simp only [block, bind_eq_ok, get_eq_ok] at hr
  obtain ⟨_, _, ⟨rfl, rfl⟩, hr⟩ := hr
  exact run_of_statementsWithin h (Nat.le_refl _) hr

theorem run_of_body (h : Covers setup operand)
    (hr : (setup.reader operand).body s = .ok out t) : Run setup .body s out t := by
  simp only [body, bind_eq_ok, accept_eq_ok] at hr
  obtain ⟨b, u, ⟨hb, rfl⟩, hr⟩ := hr
  cases b with
  | true =>
    simp only [if_true, indentedBlock, bind_eq_ok, skipLineBreaks_eq_ok, openBlock_eq_ok,
      finishing_eq_ok, closeBlock_eq_ok, current_eq_ok] at hr
    obtain ⟨_, _, rfl, level, _, ⟨rfl, rfl⟩, v, _, ⟨token, _, ⟨htoken, rfl⟩, hr⟩, hv, _⟩ := hr
    rw [State.advance_skipLineBreaks hb] at htoken hr
    split at hr
    next => exact absurd hr (by simp [fail_eq_ok])
    next hlt => exact .indentedBody hb htoken (by omega) (run_of_block h hr) hv
  | false =>
    simp only [Bool.false_eq_true, if_false, bind_eq_ok, pure_eq_ok] at hr
    obtain ⟨tree, u, ht, rfl, rfl⟩ := hr
    exact .inlineBody (State.isNext_eq_false_iff.1 hb) (h _ _ _ _ ht)

theorem run_of_parenthesis (h : Covers setup operand) {token : Token}
    (hr : (setup.reader operand).parenthesis token s = .ok n t) :
    Run setup (.start .parenthesis token) s [n] t := by
  simp only [parenthesis, bind_eq_ok, Prod.exists, isNext_eq_ok] at hr
  obtain ⟨items, stop, u, hs, b, _, ⟨hb, rfl⟩, hr⟩ := hr
  obtain ⟨v, hitems, hstop⟩ := run_of_sequence h hs
  cases b with
  | true =>
    simp only [if_true, bind_eq_ok, parameterNames_eq_ok, pure_eq_ok] at hr
    obtain ⟨names, _, ⟨hnames, rfl⟩, rfl, rfl⟩ := hr
    exact .parameters hitems hstop hb hnames
  | false =>
    simp only [Bool.false_eq_true, if_false] at hr
    split at hr
    next item =>
      obtain ⟨rfl, rfl⟩ := pure_eq_ok.1 hr
      exact .grouping hitems hstop (State.isNext_eq_false_iff.1 hb)
    next =>
      obtain ⟨u', _, ⟨rfl, rfl⟩, hr⟩ := (by simpa only [bind_eq_ok, get_eq_ok] using hr :
        ∃ a t', (u = a ∧ u = t') ∧ _)
      cases hc : u.current? with
      | none => simp [hc, misplaced, fail_eq_ok] at hr
      | some follower => simp [hc, fail_eq_ok] at hr

end Reader

namespace Language

variable {setup : Setup PrefixRule InfixRule} {operand : Int → Reading Tree}
  {s t : State} {n left : Tree}

open Reader (Covers)

theorem run_of_prefixRule (h : Covers setup operand) {rule : PrefixRule} {token : Token}
    (hr : rule.read (setup.reader operand) token s = .ok n t) :
    Run setup (.start rule token) s [n] t := by
  cases rule with
  | identifier =>
    obtain ⟨rfl, rfl⟩ := pure_eq_ok.1 hr
    exact .identifier
  | number =>
    simp only [PrefixRule.read, Reader.number] at hr
    cases hvalue : Binary64.ofText? ((setup.reader operand).text token) with
    | none => simp [hvalue, fail_eq_ok] at hr
    | some value =>
      rw [hvalue] at hr
      obtain ⟨rfl, rfl⟩ := pure_eq_ok.1 hr
      exact .number hvalue
  | string =>
    simp only [PrefixRule.read, Reader.string] at hr
    cases hinside : Reader.unquoted? ((setup.reader operand).text token).toList with
    | none => simp [hinside, Reader.misplaced, fail_eq_ok] at hr
    | some cs =>
      rw [hinside] at hr
      obtain ⟨rfl, rfl⟩ := pure_eq_ok.1 hr
      exact .string hinside
  | boolean =>
    obtain ⟨rfl, rfl⟩ := pure_eq_ok.1 hr
    exact .boolean
  | unary =>
    simp only [PrefixRule.read, Reader.unary] at hr
    cases hoperator : Operator.unary? token.kind with
    | none => simp [hoperator, Reader.misplaced, fail_eq_ok] at hr
    | some operator =>
      rw [hoperator] at hr
      obtain ⟨operand', u, hu, hr⟩ := bind_eq_ok.1 hr
      obtain ⟨rfl, rfl⟩ := pure_eq_ok.1 hr
      exact .unary hoperator (h _ _ _ _ hu)
  | parenthesis => exact Reader.run_of_parenthesis h hr
  | list =>
    simp only [PrefixRule.read, Reader.list, bind_eq_ok, Prod.exists] at hr
    obtain ⟨items, stop, u, hs, hr⟩ := hr
    obtain ⟨rfl, rfl⟩ := pure_eq_ok.1 hr
    obtain ⟨v, hitems, hstop⟩ := Reader.run_of_sequence h hs
    exact .list hitems hstop

theorem run_of_infixRule (h : Covers setup operand) {rule : InfixRule} {token : Token}
    (hr : rule.read (setup.reader operand) left token s = .ok n t) :
    Run setup (.continuation rule left token) s [n] t := by
  cases rule with
  | binary =>
    simp only [InfixRule.read, Reader.binary] at hr
    cases hoperator : Operator.binary? token.kind with
    | none => simp [hoperator, Reader.misplaced, fail_eq_ok] at hr
    | some operator =>
      rw [hoperator] at hr
      obtain ⟨right, u, hu, hr⟩ := bind_eq_ok.1 hr
      obtain ⟨rfl, rfl⟩ := pure_eq_ok.1 hr
      exact .binary hoperator (h _ _ _ _ hu)
  | assignment =>
    simp only [InfixRule.read, Reader.assignment] at hr
    split at hr
    next htarget =>
      obtain ⟨value, u, hu, hr⟩ := bind_eq_ok.1 hr
      obtain ⟨rfl, rfl⟩ := pure_eq_ok.1 hr
      exact .assignment htarget (h _ _ _ _ hu)
    next => exact absurd hr (by simp [Reader.misplaced, fail_eq_ok])
  | conditional =>
    obtain ⟨trees, u, hu, hr⟩ := bind_eq_ok.1 hr
    obtain ⟨rfl, rfl⟩ := pure_eq_ok.1 hr
    exact .conditional (Reader.run_of_body h hu)
  | function =>
    simp only [InfixRule.read, Reader.function] at hr
    cases hnames : Reader.parameters? left with
    | none => simp [hnames, Reader.misplaced, fail_eq_ok] at hr
    | some names =>
      rw [hnames] at hr
      obtain ⟨trees, u, hu, hr⟩ := bind_eq_ok.1 hr
      obtain ⟨rfl, rfl⟩ := pure_eq_ok.1 hr
      exact .function hnames (Reader.run_of_body h hu)
  | call =>
    simp only [InfixRule.read, Reader.call, bind_eq_ok, Prod.exists] at hr
    obtain ⟨items, stop, u, hs, hr⟩ := hr
    obtain ⟨rfl, rfl⟩ := pure_eq_ok.1 hr
    obtain ⟨v, hitems, hstop⟩ := Reader.run_of_sequence h hs
    exact .call hitems hstop
  | index =>
    simp only [InfixRule.read, Reader.index, bind_eq_ok, openGroup_eq_ok, finishing_eq_ok,
      seqRight_eq_ok, skipLineBreaks_eq_ok, closeGroup_eq_ok, require_eq_ok] at hr
    obtain ⟨_, _, rfl, item, u, ⟨v, _, hv, _, _, rfl, hu⟩, stop, w, ⟨hw, hk, rfl⟩, hr⟩ := hr
    obtain ⟨rfl, rfl⟩ := pure_eq_ok.1 hr
    exact .index (h _ _ _ _ hv) ⟨u, hu, ⟨hw, rfl⟩, hk⟩

theorem run_of_extend (h : Covers setup operand) {least : Int} {rounds : Nat}
    (hb : s.ahead.length ≤ rounds)
    (hr : Tree.language.extend setup operand least rounds left s = .ok n t) :
    Run setup (.extension least left) s [n] t := by
  induction rounds generalizing s left with
  | zero =>
    obtain ⟨rfl, rfl⟩ := pure_eq_ok.1 hr
    exact .stop (.inl (State.done_iff.2 (List.eq_nil_of_length_eq_zero (by omega))))
  | succ rounds ih =>
    simp only [extend, bind_eq_ok, get_eq_ok] at hr
    obtain ⟨_, _, ⟨rfl, rfl⟩, hr⟩ := hr
    split at hr
    next hloose =>
      obtain ⟨rfl, rfl⟩ := pure_eq_ok.1 hr
      exact .stop hloose
    next htight =>
      simp only [next, bind_eq_ok, skipGroupedLineBreaks_eq_ok, consume_eq_ok] at hr
      obtain ⟨longer, u, ⟨_, _, rfl, token, v, ⟨htoken, rfl⟩, hrule⟩, hr⟩ := hr
      cases hk : setup.grammar.infixRule? token.kind with
      | none => simp [hk, fail_eq_ok] at hrule
      | some rule =>
        rw [hk] at hrule
        have hcont := run_of_infixRule h (show rule.read _ left token _ = _ from hrule)
        refine .next htight ⟨htoken, rfl⟩ hk hcont (ih ?_ hr)
        have h₁ := ((State.passes_skipGroupedLineBreaks s).trans
          (State.takes_iff.1 ⟨htoken, rfl⟩)).length_ahead
        have h₂ := hcont.length_ahead_le
        simp only [List.length_append, List.length_singleton] at h₁
        omega

theorem run_of_climb (h : Covers setup operand) {least : Int}
    (hr : Tree.language.climb setup operand least s = .ok n t) :
    Run setup (.climb least) s [n] t := by
  simp only [climb, first, bind_eq_ok, skipGroupedLineBreaks_eq_ok, consume_eq_ok, get_eq_ok] at hr
  obtain ⟨left, u, ⟨_, _, rfl, token, v, ⟨htoken, rfl⟩, hrule⟩, _, _, ⟨rfl, rfl⟩, hr⟩ := hr
  cases hk : setup.grammar.prefixRule? token.kind with
  | none => simp [hk, fail_eq_ok] at hrule
  | some rule =>
    rw [hk] at hrule
    have hstart := run_of_prefixRule h (show rule.read _ token _ = _ from hrule)
    exact .first ⟨htoken, rfl⟩ hk hstart (run_of_extend h (Nat.le_refl _) hr)

theorem covers_expressionWithin (setup : Setup PrefixRule InfixRule) (bound : Nat) :
    Covers setup (Tree.language.expressionWithin setup bound) := by
  induction bound with
  | zero =>
    intro least s n t hr
    obtain ⟨_, u, hu, _⟩ := nested_eq_ok.1 hr
    exact absurd hu (by simp [endOfInput_eq_ok])
  | succ bound ih =>
    intro least s n t hr
    obtain ⟨hdepth, u, hu, rfl⟩ := nested_eq_ok.1 hr
    exact .nested hdepth (run_of_climb ih hu)

end Language

/-! ### From runs to readings -/

namespace Reader

variable {setup : Setup PrefixRule InfixRule} {operand : Int → Reading Tree}
  {s t : State} {out : List Tree} {n : Tree} {size : Nat}

/-- With at most `size` tokens ahead, `operand` reads whatever has a run. -/
def Reaches (setup : Setup PrefixRule InfixRule) (operand : Int → Reading Tree) (size : Nat) :
    Prop :=
  ∀ least s n t, s.ahead.length ≤ size → Run setup (.expression least) s [n] t →
    operand least s = .ok n t

theorem itemsWithin_of_run (h : Reaches setup operand size) {close : Kind} {bound : Nat}
    (hs : s.ahead.length ≤ size) (hb : s.ahead.length ≤ bound)
    (hr : Run setup (.items close) s out t) :
    (setup.reader operand).itemsWithin close bound s = .ok out t := by
  have hskip := (State.passes_skipLineBreaks s).length_ahead
  induction bound generalizing s out with
  | zero =>
    exfalso
    have hn : s.skipLineBreaks.ahead = [] := List.eq_nil_of_length_eq_zero (by omega)
    cases hr with
    | noItems hclosed => simp [State.isNext, State.current?, hn] at hclosed
    | lastItem _ hitem _ | item _ hitem _ _ _ =>
      have := hitem.length_ahead_lt
      omega
  | succ bound ih =>
    simp only [itemsWithin, bind_eq_ok, skipLineBreaks_eq_ok, isNext_eq_ok]
    refine ⟨(), _, rfl, _, _, ⟨rfl, rfl⟩, ?_⟩
    cases hr with
    | noItems hclosed => rw [if_pos hclosed, pure_eq_ok]; exact ⟨rfl, rfl⟩
    | @lastItem _ _ u item hopen hitem hlast =>
      rw [if_neg hopen]
      simp only [bind_eq_ok, skipLineBreaks_eq_ok, accept_eq_ok]
      refine ⟨item, u, h _ _ _ _ (by omega) hitem, (), _, rfl, false, _,
        ⟨State.isNext_eq_false_iff.2 hlast, rfl⟩, pure_eq_ok.2 ⟨rfl, rfl⟩⟩
    | @item _ _ u v _ item items comma hopen hitem hcomma hkind hitems =>
      rw [if_neg hopen]
      simp only [bind_eq_ok, skipLineBreaks_eq_ok, accept_eq_ok]
      have hnext : u.skipLineBreaks.isNext .comma = true :=
        State.isNext_iff.2 ⟨comma, hcomma.1, hkind⟩
      have h₂ := hitem.length_ahead_lt
      have h₃ := ((State.passes_skipLineBreaks u).trans hcomma.passes).length_ahead
      simp only [List.length_append, List.length_singleton] at h₃
      refine ⟨item, u, h _ _ _ _ (by omega) hitem, (), _, rfl, true, v,
        ⟨hnext, hcomma.2⟩, ?_⟩
      simp only [if_true, bind_eq_ok, pure_eq_ok]
      exact ⟨items, t, ih (by omega) (by omega) hitems (State.passes_skipLineBreaks v).length_ahead,
        rfl, rfl⟩

theorem sequence_of_run (h : Reaches setup operand size) {close : Kind} {stop : Token} {u : State}
    (hs : s.ahead.length ≤ size) (hr : Run setup (.items close) s.openGroup out u)
    (hstop : u.Closes close stop t) :
    (setup.reader operand).sequence close s = .ok (out, stop) t := by
  obtain ⟨v, hv, ⟨hw, rfl⟩, hk⟩ := hstop
  have ho := s.ahead_openGroup
  simp only [sequence, items, bind_eq_ok, openGroup_eq_ok, finishing_eq_ok, closeGroup_eq_ok,
    require_eq_ok, pure_eq_ok, get_eq_ok]
  exact ⟨(), _, rfl, out, v, ⟨u, (), ⟨_, _, ⟨rfl, rfl⟩,
    itemsWithin_of_run h (ho ▸ hs) (Nat.le_refl _) hr⟩, hv⟩, stop, _, ⟨hw, hk, rfl⟩, rfl, rfl⟩

theorem statementsWithin_of_run (h : Reaches setup operand size) {level bound : Nat}
    (hs : s.ahead.length ≤ size) (hb : s.ahead.length ≤ bound)
    (hr : Run setup (.statements level) s out t) :
    (setup.reader operand).statementsWithin level bound s = .ok out t := by
  have hskip := (State.passes_skipLineBreaks s).length_ahead
  induction bound generalizing s out with
  | zero =>
    have hn : s.ahead = [] := List.eq_nil_of_length_eq_zero (by omega)
    cases hr with
    | noTokens hdone => exact pure_eq_ok.2 ⟨rfl, (State.skipLineBreaks_of_ahead_eq_nil hn).symm⟩
    | outdent htoken hcolumn =>
      rw [State.skipLineBreaks_of_ahead_eq_nil hn] at htoken
      simp [State.current?, hn] at htoken
    | statement _ _ htree _ _ =>
      have := htree.length_ahead_lt
      omega
  | succ bound ih =>
    simp only [statementsWithin, bind_eq_ok, skipLineBreaks_eq_ok, get_eq_ok]
    refine ⟨(), _, rfl, _, _, ⟨rfl, rfl⟩, ?_⟩
    cases hr with
    | noTokens hdone =>
      rw [hdone]
      exact pure_eq_ok.2 ⟨rfl, rfl⟩
    | outdent htoken hcolumn =>
      simp only [htoken, if_pos hcolumn]
      exact pure_eq_ok.2 ⟨rfl, rfl⟩
    | @statement _ _ u v _ token tree trees htoken hcolumn htree hline htrees =>
      simp only [htoken, if_neg (Nat.not_lt.2 (Nat.le_of_eq hcolumn.symm)),
        if_neg (Nat.not_lt.2 (Nat.le_of_eq hcolumn)), bind_eq_ok, pure_eq_ok]
      obtain ⟨ks, _, hks⟩ := hline.passes
      have h₁ := htree.length_ahead_lt
      have h₂ := hks.length_ahead
      exact ⟨tree, v, statement_eq_ok.2 ⟨_, h _ _ _ _ (by omega) htree, hline⟩, trees, t,
        ih (by omega) (by omega) htrees (State.passes_skipLineBreaks v).length_ahead, rfl, rfl⟩

theorem body_of_run (h : Reaches setup operand size) (hs : s.ahead.length ≤ size)
    (hr : Run setup .body s out t) : (setup.reader operand).body s = .ok out t := by
  simp only [body, bind_eq_ok, accept_eq_ok]
  cases hr with
  | @inlineBody _ _ tree hinline htree =>
    refine ⟨false, s, ⟨State.isNext_eq_false_iff.2 hinline, rfl⟩, ?_⟩
    simp only [Bool.false_eq_true, if_false, bind_eq_ok, pure_eq_ok]
    exact ⟨tree, t, h _ _ _ _ hs htree, rfl, rfl⟩
  | @indentedBody _ u _ token trees hbreak htoken hcolumn htrees hclose =>
    refine ⟨true, s.advance, ⟨hbreak, rfl⟩, ?_⟩
    simp only [if_true, indentedBlock, bind_eq_ok, skipLineBreaks_eq_ok, openBlock_eq_ok,
      finishing_eq_ok, closeBlock_eq_ok, current_eq_ok, State.advance_skipLineBreaks hbreak]
    refine ⟨(), _, rfl, _, _, ⟨rfl, rfl⟩, u, _, ⟨token, _, ⟨htoken, rfl⟩, ?_⟩, hclose, rfl⟩
    rw [if_neg (Nat.not_lt.2 hcolumn)]
    simp only [block, bind_eq_ok, get_eq_ok]
    refine ⟨_, _, ⟨rfl, rfl⟩, statementsWithin_of_run h ?_ (Nat.le_refl _) htrees⟩
    have h₁ := (State.passes_skipLineBreaks s).length_ahead
    exact le_trans (show s.skipLineBreaks.ahead.length ≤ _ by omega) hs

end Reader

namespace Language

variable {setup : Setup PrefixRule InfixRule} {operand : Int → Reading Tree}
  {s t : State} {n left : Tree} {size : Nat}

open Reader (Reaches)

theorem prefixRule_of_run (h : Reaches setup operand size) {rule : PrefixRule} {token : Token}
    (hs : s.ahead.length ≤ size) (hr : Run setup (.start rule token) s [n] t) :
    rule.read (setup.reader operand) token s = .ok n t := by
  cases hr with
  | identifier | boolean => rfl
  | number hvalue =>
    simp only [PrefixRule.read, Reader.number, Reader.text, Setup.reader, hvalue]
    rfl
  | string hinside =>
    simp only [PrefixRule.read, Reader.string, Reader.text, Setup.reader, hinside]
    rfl
  | unary hoperator hoperand =>
    simp only [PrefixRule.read, Reader.unary, hoperator, bind_eq_ok, pure_eq_ok]
    exact ⟨_, t, h _ _ _ _ hs hoperand, rfl, rfl⟩
  | @parameters _ stop _ _ _ items names hitems hstop harrow hnames =>
    simp only [PrefixRule.read, Reader.parenthesis, bind_eq_ok, isNext_eq_ok]
    refine ⟨(items, stop), t, Reader.sequence_of_run h hs hitems hstop, true, t, ⟨harrow, rfl⟩, ?_⟩
    simp only [if_true, bind_eq_ok, Reader.parameterNames_eq_ok, pure_eq_ok]
    exact ⟨names, t, ⟨hnames, rfl⟩, rfl, rfl⟩
  | @grouping _ stop _ _ _ item hitem hstop harrow =>
    simp only [PrefixRule.read, Reader.parenthesis, bind_eq_ok, isNext_eq_ok]
    exact ⟨([item], stop), t, Reader.sequence_of_run h hs hitem hstop, false, t,
      ⟨State.isNext_eq_false_iff.2 harrow, rfl⟩, rfl⟩
  | @list _ stop _ _ _ items hitems hstop =>
    simp only [PrefixRule.read, Reader.list, bind_eq_ok, pure_eq_ok]
    exact ⟨(items, stop), t, Reader.sequence_of_run h hs hitems hstop, rfl, rfl⟩

theorem infixRule_of_run (h : Reaches setup operand size) {rule : InfixRule} {token : Token}
    (hs : s.ahead.length ≤ size) (hr : Run setup (.continuation rule left token) s [n] t) :
    rule.read (setup.reader operand) left token s = .ok n t := by
  cases hr with
  | binary hoperator hright =>
    simp only [InfixRule.read, Reader.binary, hoperator, bind_eq_ok, pure_eq_ok]
    exact ⟨_, t, h _ _ _ _ hs hright, rfl, rfl⟩
  | assignment htarget hvalue =>
    simp only [InfixRule.read, Reader.assignment, if_pos htarget, bind_eq_ok, pure_eq_ok]
    exact ⟨_, t, h _ _ _ _ hs hvalue, rfl, rfl⟩
  | conditional hbody =>
    simp only [InfixRule.read, Reader.conditional, bind_eq_ok, pure_eq_ok]
    exact ⟨_, t, Reader.body_of_run h hs hbody, rfl, rfl⟩
  | function hnames hbody =>
    simp only [InfixRule.read, Reader.function, hnames, bind_eq_ok, pure_eq_ok]
    exact ⟨_, t, Reader.body_of_run h hs hbody, rfl, rfl⟩
  | @call _ stop _ _ _ _ items hitems hstop =>
    simp only [InfixRule.read, Reader.call, bind_eq_ok, pure_eq_ok]
    exact ⟨(items, stop), t, Reader.sequence_of_run h hs hitems hstop, rfl, rfl⟩
  | @index _ stop _ u _ _ item hitem hstop =>
    obtain ⟨v, hv, ⟨hw, rfl⟩, hk⟩ := hstop
    have ho := s.ahead_openGroup
    simp only [InfixRule.read, Reader.index, bind_eq_ok, openGroup_eq_ok, finishing_eq_ok,
      seqRight_eq_ok, skipLineBreaks_eq_ok, closeGroup_eq_ok, require_eq_ok, pure_eq_ok]
    exact ⟨(), _, rfl, item, v, ⟨u, (), h _ _ _ _ (ho ▸ hs) hitem, (), _, rfl, hv⟩, stop, _,
      ⟨hw, hk, rfl⟩, rfl, rfl⟩

theorem extend_of_run (h : Reaches setup operand size) {least : Int} {rounds : Nat}
    (hs : s.ahead.length ≤ size + 1) (hb : s.ahead.length ≤ rounds)
    (hr : Run setup (.extension least left) s [n] t) :
    Tree.language.extend setup operand least rounds left s = .ok n t := by
  induction rounds generalizing s left with
  | zero =>
    cases hr with
    | stop _ => rfl
    | next htight _ _ _ _ =>
      exact absurd (.inl (State.done_iff.2 (List.eq_nil_of_length_eq_zero (by omega)))) htight
  | succ rounds ih =>
    simp only [extend, bind_eq_ok, get_eq_ok]
    refine ⟨_, _, ⟨rfl, rfl⟩, ?_⟩
    cases hr with
    | stop hloose =>
      rw [if_pos hloose]
      rfl
    | @next _ _ u v _ _ longer _ token rule htight htoken hrule hcontinuation hextension =>
      have h₁ := ((State.passes_skipGroupedLineBreaks s).trans htoken.passes).length_ahead
      have h₂ := hcontinuation.length_ahead_le
      simp only [List.length_append, List.length_singleton] at h₁
      rw [if_neg htight]
      simp only [next, bind_eq_ok, skipGroupedLineBreaks_eq_ok, consume_eq_ok]
      refine ⟨longer, v, ⟨(), _, rfl, token, u, htoken, ?_⟩, ih (by omega) (by omega) hextension⟩
      simp only [hrule]
      exact infixRule_of_run h (by omega) hcontinuation

theorem climb_of_run (h : Reaches setup operand size) {least : Int}
    (hs : s.ahead.length ≤ size + 1) (hr : Run setup (.climb least) s [n] t) :
    Tree.language.climb setup operand least s = .ok n t := by
  cases hr with
  | @first _ _ u v _ token rule left _ htoken hrule hstart hextension =>
    have h₁ := ((State.passes_skipGroupedLineBreaks s).trans htoken.passes).length_ahead
    have h₂ := hstart.length_ahead_le
    simp only [List.length_append, List.length_singleton] at h₁
    simp only [climb, first, bind_eq_ok, skipGroupedLineBreaks_eq_ok, consume_eq_ok, get_eq_ok]
    refine ⟨left, v, ⟨(), _, rfl, token, u, htoken, ?_⟩, _, _, ⟨rfl, rfl⟩,
      extend_of_run h (by omega) (Nat.le_refl _) hextension⟩
    simp only [hrule]
    exact prefixRule_of_run h (by omega) hstart

theorem reaches_expressionWithin (setup : Setup PrefixRule InfixRule) (bound : Nat) :
    Reaches setup (Tree.language.expressionWithin setup bound) bound := by
  induction bound with
  | zero =>
    intro least s n t hs hr
    have := hr.length_ahead_lt
    omega
  | succ bound ih =>
    intro least s n t hs hr
    cases hr with
    | nested hdepth hclimb =>
      exact nested_eq_ok.2 ⟨hdepth, _, climb_of_run ih hs hclimb, rfl⟩

theorem covers_expression (setup : Setup PrefixRule InfixRule) :
    Reader.Covers setup (Tree.language.expression setup) := by
  intro least s n t hr
  simp only [expression, bind_eq_ok, get_eq_ok] at hr
  obtain ⟨_, _, ⟨rfl, rfl⟩, hr⟩ := hr
  exact covers_expressionWithin setup _ _ _ _ _ hr

theorem reaches_expression (setup : Setup PrefixRule InfixRule) (size : Nat) :
    Reaches setup (Tree.language.expression setup) size := by
  intro least s n t _ hr
  simp only [expression, bind_eq_ok, get_eq_ok]
  exact ⟨_, _, ⟨rfl, rfl⟩, reaches_expressionWithin setup _ _ _ _ _ (Nat.le_refl _) hr⟩

/-- An expression is read exactly if it has a run. -/
theorem expression_eq_ok_iff {least : Int} :
    Tree.language.expression setup least s = .ok n t ↔ Run setup (.expression least) s [n] t :=
  ⟨covers_expression setup _ _ _ _, reaches_expression setup _ _ _ _ _ (Nat.le_refl _)⟩

end Language

/-- An expression is read in one way only. -/
theorem Run.det {setup : Setup PrefixRule InfixRule} {least : Int} {s t u : State} {m n : Tree}
    (h : Run setup (.expression least) s [m] t) (h' : Run setup (.expression least) s [n] u) :
    m = n ∧ t = u := by
  have he := (Language.expression_eq_ok_iff.2 h).symm.trans (Language.expression_eq_ok_iff.2 h')
  cases he
  exact ⟨rfl, rfl⟩

namespace Program

/-- The statements of a block are read exactly if they have a run. -/
theorem block_eq_ok_iff {setup : Setup PrefixRule InfixRule} {level : Nat} {s t : State}
    {trees : List Tree} :
    setup.program.block level s = .ok trees t ↔ Run setup (.statements level) s trees t := by
  refine ⟨Reader.run_of_block (Language.covers_expression setup), fun h => ?_⟩
  simp only [Reader.block, bind_eq_ok, get_eq_ok]
  exact ⟨_, _, ⟨rfl, rfl⟩, Reader.statementsWithin_of_run (Language.reaches_expression setup _)
    (Nat.le_refl _) (Nat.le_refl _) h⟩

theorem ofSource_eq_parse {source : String} {settings : Settings} {tokens : List Token}
    (h : Tokens.ofSource source = .ok tokens) :
    ofSource source settings = parse source settings tokens := by
  rw [ofSource, h]

/-- What running a program shows: its tokens, its trees, and what was computed from them. -/
theorem exists_of_parse {β : Type} {source : String} {settings : Settings}
    {f : List Token → List Tree → β} {b : β}
    (h : ((Tokens.ofSource source).toOption.bind fun tokens =>
      (parse source settings tokens).toOption.map (f tokens)) = some b) :
    ∃ tokens trees, Tokens.ofSource source = .ok tokens ∧
      parse source settings tokens = .ok trees ∧ f tokens trees = b := by
  cases htokens : Tokens.ofSource source with
  | error d => simp [htokens, Except.toOption] at h
  | ok tokens =>
    cases hparse : parse source settings tokens with
    | error e => simp [htokens, hparse, Except.toOption] at h
    | ok trees => exact ⟨tokens, trees, rfl, hparse, by simpa [htokens, hparse, Except.toOption] using h⟩

/-- A program is read exactly if its statements have a run. -/
theorem parse_eq_ok_iff {source : String} {settings : Settings} {tokens : List Token}
    {trees : List Tree} :
    parse source settings tokens = .ok trees ↔ ∃ t, Run (setup source settings) (.statements 0)
      (.start settings.indentWidth tokens) trees t := by
  simp only [← block_eq_ok_iff, parse]
  cases (setup source settings).program.block 0 (.start settings.indentWidth tokens) with
  | ok trees' t => simp
  | error e t => simp

/-- A program is read if its source is cut into tokens and these are read. -/
theorem exists_tokens {source : String} {settings : Settings} {trees : List Tree}
    (h : ofSource source settings = .ok trees) :
    ∃ tokens, Tokens.ofSource source = .ok tokens ∧ parse source settings tokens = .ok trees := by
  rw [ofSource] at h
  split at h
  next tokens htokens => exact ⟨tokens, htokens, h⟩
  next => cases h

/-- A program whose tokens are those of one expression is the tree of that. -/
theorem parse_of_climb {source : String} {settings : Settings} {token : Token} {rest : List Token}
    {t : State} {n : Tree} (hkind : token.kind ≠ .newline) (hcolumn : token.column = 0)
    (hdepth : 0 < settings.maxDepth)
    (h : Run (setup source settings) (.climb 0)
      { State.start settings.indentWidth (token :: rest) with depth := 1 } [n] t)
    (ht : t.ahead = []) : parse source settings (token :: rest) = .ok [n] := by
  have hskip : (State.start settings.indentWidth (token :: rest)).skipLineBreaks =
      .start settings.indentWidth (token :: rest) := by
    simp [State.start, State.skipLineBreaks, hkind]
  have hexpression : Run (setup source settings) (.expression 0)
      (State.start settings.indentWidth (token :: rest)).skipLineBreaks [n]
      { t with depth := t.depth - 1 } := by
    rw [hskip]
    exact .nested hdepth h
  have htoken : (State.start settings.indentWidth (token :: rest)).skipLineBreaks.current? = some token := by
    rw [hskip]
    rfl
  refine parse_eq_ok_iff.2 ⟨State.skipLineBreaks { t with depth := t.depth - 1 }, ?_⟩
  refine .statement htoken hcolumn hexpression (State.endsLine_of_done (State.done_iff.2 ht)) (.noTokens ?_)
  simp [State.skipLineBreaks, State.current?, ht]

end Program

end Offside
