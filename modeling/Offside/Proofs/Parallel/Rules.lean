import Offside.Proofs.Parallel.Agreeing

set_option autoImplicit false

/-!
# Rules that agree

The rules of the language copy texts and spans of the tokens they pass and look at nothing else of them but
their kinds and, where a line starts, their columns. So they read corresponding trees out of corresponding
tokens as soon as their operands agree.
-/
namespace Offside

open Reading

theorem Reader.parameterNames_cons (item : Tree) (items : List Tree) :
    parameterNames (item :: items) = match item.name? with
      | some name => do
        let names ← parameterNames items
        pure (name :: names)
      | none => fail (.misplaced item.render "parameters must be identifiers") item.span.start := by
  cases item <;> rfl

namespace Parallel

variable {c : Parallel}

/-! ### Corresponding trees -/

/-- The trees are the same in all that is kept of their positions. -/
def Same (c : Parallel) (n n' : Tree) : Prop := n'.map c.place = n.map c.place

def SameAll (c : Parallel) (ns ns' : List Tree) : Prop :=
  ns'.map (Tree.map c.place) = ns.map (Tree.map c.place)

section Trees

variable {n n' : Tree} {ns ns' : List Tree} {place place' : Span} {k k' : Token}

namespace Same

theorem bare (h : c.Same n n') : n'.bare = n.bare := by
  rw [← Tree.bare_map c.place n', h, Tree.bare_map]

theorem span (h : c.Same n n') : n'.span.map c.place = n.span.map c.place := by
  rw [← Tree.span_map, h, Tree.span_map]

theorem start (h : c.Same n n') : c.mark n'.span.start = c.mark n.span.start :=
  c.mark_eq (congrArg Span.start h.span)

theorem withSpan (h : c.Same n n') (hspan : place'.map c.place = place.map c.place) :
    c.Same (n.withSpan place) (n'.withSpan place') := by
  rw [Same, Tree.map_withSpan, Tree.map_withSpan, h, hspan]

end Same

namespace SameAll

theorem nil : c.SameAll [] [] := rfl

theorem bare (h : c.SameAll ns ns') : ns'.map Tree.bare = ns.map Tree.bare := by
  have hmap : ∀ ms : List Tree, ms.map Tree.bare = (ms.map (Tree.map c.place)).map Tree.bare :=
    fun ms => by simp
  rw [hmap, h, ← hmap]

theorem cons (hn : c.Same n n') (h : c.SameAll ns ns') : c.SameAll (n :: ns) (n' :: ns') := by
  rw [SameAll, List.map_cons, List.map_cons, hn, h]

theorem mapAll (h : c.SameAll ns ns') : Tree.mapAll c.place ns' = Tree.mapAll c.place ns := by
  rw [Tree.mapAll_eq_map, Tree.mapAll_eq_map, h]

theorem exists_of_cons (h : c.SameAll (n :: ns) ns') :
    ∃ m ms, ns' = m :: ms ∧ c.Same n m ∧ c.SameAll ns ms :=
  List.map_eq_cons_iff.1 h

theorem eq_nil (h : c.SameAll [] ns') : ns' = [] := List.map_eq_nil_iff.1 h

/-- A span from the same start to the end of the same last tree is the same. -/
theorem spanThrough (h : c.SameAll ns ns') (hspan : place'.map c.place = place.map c.place) :
    (Reader.spanThrough place' ns').map c.place = (Reader.spanThrough place ns).map c.place := by
  have hlast := congrArg List.getLast? h
  rw [List.getLast?_map, List.getLast?_map] at hlast
  unfold Reader.spanThrough
  cases hn : ns.getLast? with
  | none =>
    rw [hn, Option.map_none, Option.map_eq_none_iff] at hlast
    rw [hlast]
    exact hspan
  | some n =>
    rw [hn, Option.map_some, Option.map_eq_some_iff] at hlast
    obtain ⟨n', hn', hsame⟩ := hlast
    rw [hn', Span.map_through, Span.map_through, hspan, Same.span hsame]

end SameAll

theorem column_of_alike (h : c.Alike k k') (hk : k.kind ≠ .newline) : k'.column = k.column :=
  c.column_eq (congrArg Span.start (c.span_eq h (c.whole_of_ne_newline hk)))

end Trees

/-! ### Statements and blocks -/

/-- The operands that are read at corresponding tokens agree. -/
def Operands (c : Parallel) (operand operand' : Int → Reading Tree) : Prop :=
  ∀ least, c.Agree c.Same (operand least) (operand' least)

namespace Operands

variable {operand operand' : Int → Reading Tree} {s s' : State}

theorem statement (h : c.Operands operand operand') :
    c.Agree c.Same (c.setup.reader operand).statement (c.setup'.reader operand').statement := by
  refine .bind (h 0) fun tree tree' htree => .look fun s s' hpast hs => ?_
  simp only [hs.done, hs.afterLineBreak]
  split
  · exact Agree.value htree s s' hpast hs
  · exact Agree.bind (.require _) (fun _ _ _ => .value htree) s s' hpast hs

theorem statementsWithin (h : c.Operands operand operand') (level bound : Nat) :
    c.Agree c.SameAll ((c.setup.reader operand).statementsWithin level bound)
      ((c.setup'.reader operand').statementsWithin level bound) := by
  induction bound with
  | zero => exact .value .nil
  | succ bound ih =>
    refine .behindLineBreaks fun s s' hpast hs hline => ?_
    simp only [look_apply]
    obtain ⟨hk, hk'⟩ | ⟨k, k', hk, hk', halike⟩ := hs.current?
    · rw [hk, hk']
      exact Agree.value SameAll.nil s s' hpast hs
    · simp only [hk, hk', column_of_alike halike (hline k hk)]
      split
      · exact Agree.value SameAll.nil s s' hpast hs
      split
      · exact Agree.fault _ (c.start_eq halike) s s' hpast hs
      · exact Agree.bind h.statement (fun _ _ htree => .bind ih fun _ _ htrees =>
          .value (htrees.cons htree)) s s' hpast hs

theorem block (h : c.Operands operand operand') (level : Nat) :
    c.Agree c.SameAll ((c.setup.reader operand).block level) ((c.setup'.reader operand').block level) :=
  .look fun s s' hpast hs => by
    rw [hs.length_ahead]
    exact h.statementsWithin level s.ahead.length s s' hpast hs

/-- The column of the first token counts, so that must not be a line break. -/
theorem indentedBlock (h : c.Operands operand operand') (hpast : c.Past s) (hs : c.Beside s s')
    (hline : ∀ token, s.current? = some token → token.kind ≠ .newline) :
    c.Agreed c.SameAll s ((c.setup.reader operand).indentedBlock s)
      ((c.setup'.reader operand').indentedBlock s') := by
  have hpast' := c.onward hpast s.onward_openBlock
  have hlevel : s'.openBlock.indentation.current = s.openBlock.indentation.current :=
    congrArg Indentation.current hs.openBlock.indentation
  simp only [Reader.indentedBlock, bind_apply, openBlock, hlevel]
  refine .trans s.onward_openBlock (.finishing hpast' ?_ .closeBlock)
  simp only [bind_apply, current]
  obtain ⟨hk, hk'⟩ | ⟨k, k', hk, hk', halike⟩ := hs.openBlock.current?
  · rw [hk, hk']
    exact Agree.endOfInput s.openBlock s'.openBlock hpast' hs.openBlock
  · simp only [hk, hk', column_of_alike halike (hline k hk)]
    split
    · exact Agree.fault _ (c.start_eq halike) s.openBlock s'.openBlock hpast' hs.openBlock
    · exact h.block _ s.openBlock s'.openBlock hpast' hs.openBlock

theorem body (h : c.Operands operand operand') :
    c.Agree c.SameAll (c.setup.reader operand).body (c.setup'.reader operand').body := by
  refine .bind (.accept _) fun broken _ hbroken => ?_
  subst hbroken
  cases broken with
  | true => exact .behindLineBreaks fun s s' hpast hs hline => h.indentedBlock hpast hs hline
  | false => exact .bind (h 0) fun _ _ htree => .value (.cons htree .nil)

/-! ### Bracketed sequences -/

theorem itemsWithin (h : c.Operands operand operand') (close : Kind) (bound : Nat) :
    c.Agree c.SameAll ((c.setup.reader operand).itemsWithin close bound)
      ((c.setup'.reader operand').itemsWithin close bound) := by
  induction bound with
  | zero => exact .bind (h 0) fun _ _ hitem => .value (.cons hitem .nil)
  | succ bound ih =>
    refine .bind .skipLineBreaks fun _ _ _ => .bind (.isNext close) fun closed _ hclosed => ?_
    subst hclosed
    cases closed with
    | true => exact .value .nil
    | false =>
      refine .bind (h 0) fun _ _ hitem => .bind .skipLineBreaks fun _ _ _ =>
        .bind (.accept _) fun more _ hmore => ?_
      subst hmore
      cases more with
      | true => exact .bind ih fun _ _ hitems => .value (hitems.cons hitem)
      | false => exact .value (.cons hitem .nil)

/-- The trees correspond, and so do the brackets that close the sequences. -/
def Sequences (c : Parallel) (close : Kind) (p p' : List Tree × Token) : Prop :=
  c.SameAll p.1 p'.1 ∧ c.Alike p.2 p'.2 ∧ p.2.kind = close

theorem sequence (h : c.Operands operand operand') (close : Kind) :
    c.Agree (Sequences c close) ((c.setup.reader operand).sequence close)
      ((c.setup'.reader operand').sequence close) := by
  refine .bind .openGroup fun _ _ _ => .bind (.finishing ?_ .closeGroup) fun _ _ hitems =>
    .bind (.require close) fun _ _ hstop => .value ⟨hitems, hstop⟩
  refine .look fun s s' hpast hs => ?_
  rw [hs.length_ahead]
  exact h.itemsWithin close s.ahead.length s s' hpast hs

/-! ### Rules -/

theorem parameterNames {items items' : List Tree} (h : c.SameAll items items') :
    c.Agree Eq (Reader.parameterNames items) (Reader.parameterNames items') := by
  induction items generalizing items' with
  | nil =>
    obtain rfl := h.eq_nil
    exact .value rfl
  | cons item items ih =>
    obtain ⟨item', items', rfl, hitem, hitems⟩ := h.exists_of_cons
    rw [Reader.parameterNames_cons, Reader.parameterNames_cons, Tree.name?_congr hitem.bare,
      Tree.render_congr hitem.bare]
    cases item.name? with
    | none => exact .fault _ hitem.start
    | some name => exact .bind (ih hitems) fun _ _ hnames => .value (congrArg _ hnames)

theorem misplaced {α α' : Type} {R : α → α' → Prop} {token token' : Token} (h : c.Alike token token')
    (message : String) : c.Agree R ((c.setup.reader operand).misplaced token message)
      ((c.setup'.reader operand').misplaced token' message) := by
  have htext : (c.setup'.reader operand').text token' = (c.setup.reader operand).text token := c.text_eq h
  unfold Reader.misplaced
  rw [htext]
  exact .fault _ (c.start_eq h)

/-- Trees in parentheses that are neither one expression nor parameters are reported with what follows. -/
theorem noParameters {stop stop' : Token} (hstop : c.Alike stop stop') :
    c.Agree c.Same
      (get >>= fun s => match s.current? with
        | some follower => fail
          (.unexpected .arrow follower.kind ((c.setup.reader operand).text follower)) follower.span.start
        | none => (c.setup.reader operand).misplaced stop "expected `->` after a parameter list")
      (get >>= fun s => match s.current? with
        | some follower => fail
          (.unexpected .arrow follower.kind ((c.setup'.reader operand').text follower)) follower.span.start
        | none => (c.setup'.reader operand').misplaced stop' "expected `->` after a parameter list") := by
  refine .look fun s s' hpast hs => ?_
  obtain ⟨hk, hk'⟩ | ⟨k, k', hk, hk', halike⟩ := hs.current?
  · rw [hk, hk']
    exact misplaced hstop _ s s' hpast hs
  · simp only [hk, hk', Reader.text, Setup.reader, setup, setup', c.kind_eq halike, c.text_eq halike]
    exact Agree.fault _ (c.start_eq halike) s s' hpast hs

theorem parenthesis (h : c.Operands operand operand') {token token' : Token}
    (hspan : token'.span.map c.place = token.span.map c.place) :
    c.Agree c.Same ((c.setup.reader operand).parenthesis token)
      ((c.setup'.reader operand').parenthesis token') := by
  refine .bind (h.sequence _) fun p p' hp => .bind (.isNext _) fun arrow _ harrow => ?_
  obtain ⟨items, stop⟩ := p
  obtain ⟨items', stop'⟩ := p'
  obtain ⟨hitems, hstop, hkind⟩ := hp
  subst harrow
  have hthrough : (token'.span.through stop'.span).map c.place =
      (token.span.through stop.span).map c.place := by
    have hend := c.span_eq hstop (c.whole_of_ne_newline (hkind.trans_ne (by decide)))
    rw [Span.map_through, Span.map_through, hspan, hend]
  cases arrow with
  | true =>
    refine .bind (parameterNames hitems) fun names _ hnames => .value ?_
    subst hnames
    simp only [Same, Tree.map, hthrough]
  | false =>
    cases items with
    | nil =>
      obtain rfl := hitems.eq_nil
      exact noParameters hstop
    | cons item items =>
      obtain ⟨item', items', rfl, hitem, hrest⟩ := hitems.exists_of_cons
      cases items with
      | nil =>
        obtain rfl := hrest.eq_nil
        exact .value (hitem.withSpan hthrough)
      | cons second items =>
        obtain ⟨second', items', rfl, _, _⟩ := hrest.exists_of_cons
        exact noParameters hstop

theorem index (h : c.Operands operand operand') {left left' : Tree} (hleft : c.Same left left') :
    c.Agree c.Same ((c.setup.reader operand).index left) ((c.setup'.reader operand').index left') := by
  refine .bind .openGroup fun _ _ _ => .bind (.finishing (h 0) ?_) fun item item' hitem =>
    .bind (.require _) fun stop stop' hclosed => .value ?_
  · rw [seqRight_eq_bind]
    exact .bind .skipLineBreaks fun _ _ _ => .closeGroup
  · have hend := c.span_eq hclosed.1 (c.whole_of_ne_newline (hclosed.2.trans_ne (by decide)))
    simp only [Same, Tree.map, Span.map_through, hleft.span, hend]
    rw [hleft, hitem]

theorem prefixRule (h : c.Operands operand operand') (rule : PrefixRule) {token token' : Token}
    (halike : c.Alike token token') (hwhole : c.Whole token.kind) :
    c.Agree c.Same (rule.read (c.setup.reader operand) token)
      (rule.read (c.setup'.reader operand') token') := by
  have hspan := c.span_eq halike hwhole
  have htext : (c.setup'.reader operand').text token' = (c.setup.reader operand).text token :=
    c.text_eq halike
  cases rule with
  | identifier =>
    refine .value ?_
    simp only [Same, Tree.map, hspan, htext]
  | boolean =>
    refine .value ?_
    simp only [Same, Tree.map, hspan, c.kind_eq halike]
  | number =>
    simp only [PrefixRule.read, Reader.number, htext]
    cases Binary64.ofText? ((c.setup.reader operand).text token) with
    | none => exact .fault _ (c.start_eq halike)
    | some value => exact .value (by simp only [Same, Tree.map, hspan])
  | string =>
    simp only [PrefixRule.read, Reader.string, htext]
    cases Reader.unquoted? ((c.setup.reader operand).text token).toList with
    | none => exact misplaced halike _
    | some cs => exact .value (by simp only [Same, Tree.map, hspan])
  | unary =>
    simp only [PrefixRule.read, Reader.unary, c.kind_eq halike]
    cases Operator.unary? token.kind with
    | none => exact misplaced halike _
    | some operator =>
      refine .bind (h _) fun n n' hn => .value ?_
      simp only [Same, Tree.map, Span.map_through, hspan, hn.span]
      rw [hn]
  | parenthesis => exact h.parenthesis hspan
  | list =>
    refine .bind (h.sequence _) fun p p' hp => .value ?_
    obtain ⟨hitems, hstop, hkind⟩ := hp
    have hend := c.span_eq hstop (c.whole_of_ne_newline (hkind.trans_ne (by decide)))
    simp only [Same, Tree.map, Span.map_through, hspan, hend, hitems.mapAll]

theorem infixRule (h : c.Operands operand operand') (rule : InfixRule) {left left' : Tree}
    {token token' : Token} (hleft : c.Same left left') (halike : c.Alike token token')
    (hwhole : c.Whole token.kind) :
    c.Agree c.Same (rule.read (c.setup.reader operand) left token)
      (rule.read (c.setup'.reader operand') left' token') := by
  have hspan := c.span_eq halike hwhole
  have hpower : (c.setup'.reader operand').power token'.kind =
      (c.setup.reader operand).power token.kind := congrArg c.grammar.power (c.kind_eq halike)
  cases rule with
  | binary =>
    simp only [InfixRule.read, Reader.binary, c.kind_eq halike]
    cases Operator.binary? token.kind with
    | none => exact misplaced halike _
    | some operator =>
      refine .bind (h _) fun n n' hn => .value ?_
      simp only [Same, Tree.map, Span.map_through, hleft.span, hn.span]
      rw [hleft, hn]
  | assignment =>
    simp only [InfixRule.read, Reader.assignment, Tree.isAssignable_congr hleft.bare, hpower]
    split
    · refine .bind (h _) fun n n' hn => .value ?_
      simp only [Same, Tree.map, Span.map_through, hleft.span, hn.span]
      rw [hleft, hn]
    · exact misplaced halike _
  | conditional =>
    refine .bind h.body fun _ _ hbody => .value ?_
    simp only [Same, Tree.map, hbody.mapAll, hbody.spanThrough hleft.span]
    rw [hleft]
  | function =>
    simp only [InfixRule.read, Reader.function, Tree.parameters?_congr hleft.bare]
    cases Reader.parameters? left with
    | none => exact misplaced halike _
    | some names =>
      refine .bind h.body fun _ _ hbody => .value ?_
      simp only [Same, Tree.map, hbody.mapAll, hbody.spanThrough hleft.span]
  | call =>
    refine .bind (h.sequence _) fun p p' hp => .value ?_
    obtain ⟨hitems, hstop, hkind⟩ := hp
    have hend := c.span_eq hstop (c.whole_of_ne_newline (hkind.trans_ne (by decide)))
    simp only [Same, Tree.map, Span.map_through, hleft.span, hend, hitems.mapAll]
    rw [hleft]
  | index => exact h.index hleft

/-! ### Climbing -/

theorem first (h : c.Operands operand operand') :
    c.Agree c.Same (Tree.language.first c.setup operand) (Tree.language.first c.setup' operand') := by
  refine .bind .skipGroupedLineBreaks fun _ _ _ => .bind .consume fun token token' halike => ?_
  have hrules : c.setup'.grammar.prefixRule? token'.kind = c.setup.grammar.prefixRule? token.kind :=
    congrArg c.grammar.prefixRule? (c.kind_eq halike)
  rw [hrules, c.kind_eq halike]
  cases hrule : c.setup.grammar.prefixRule? token.kind with
  | none => exact .fault _ (c.start_eq halike)
  | some rule => exact h.prefixRule rule halike (c.whole_of_prefixRule hrule)

theorem next (h : c.Operands operand operand') {left left' : Tree} (hleft : c.Same left left') :
    c.Agree c.Same (Tree.language.next c.setup operand left) (Tree.language.next c.setup' operand' left') := by
  refine .bind .skipGroupedLineBreaks fun _ _ _ => .bind .consume fun token token' halike => ?_
  have hrules : c.setup'.grammar.infixRule? token'.kind = c.setup.grammar.infixRule? token.kind :=
    congrArg c.grammar.infixRule? (c.kind_eq halike)
  rw [hrules, c.kind_eq halike]
  cases hrule : c.setup.grammar.infixRule? token.kind with
  | none => exact .fault _ (c.start_eq halike)
  | some rule => exact h.infixRule rule hleft halike (c.whole_of_infixRule hrule)

theorem extend (h : c.Operands operand operand') (least : Int) (rounds : Nat) {left left' : Tree}
    (hleft : c.Same left left') :
    c.Agree c.Same (Tree.language.extend c.setup operand least rounds left)
      (Tree.language.extend c.setup' operand' least rounds left') := by
  induction rounds generalizing left left' with
  | zero => exact .value hleft
  | succ rounds ih =>
    refine .look fun s s' hpast hs => ?_
    simp only [hs.done, hs.power]
    split
    · exact Agree.value hleft s s' hpast hs
    · exact Agree.bind (h.next hleft) (fun _ _ hlonger => ih hlonger) s s' hpast hs

theorem climb (h : c.Operands operand operand') (least : Int) :
    c.Agree c.Same (Tree.language.climb c.setup operand least)
      (Tree.language.climb c.setup' operand' least) :=
  .bind h.first fun left left' hleft => .look fun s s' hpast hs => by
    rw [hs.length_ahead]
    exact h.extend least s.ahead.length hleft s s' hpast hs

end Operands

theorem expressionWithin (c : Parallel) (bound : Nat) :
    c.Operands (Tree.language.expressionWithin c.setup bound)
      (Tree.language.expressionWithin c.setup' bound) := by
  induction bound with
  | zero => exact fun _ => .nested .endOfInput
  | succ bound ih => exact fun least => .nested (ih.climb least)

/-- Expressions of corresponding tokens agree. -/
theorem expression (c : Parallel) :
    c.Operands (Tree.language.expression c.setup) (Tree.language.expression c.setup') :=
  fun least => .look fun s s' hpast hs => by
    rw [hs.length_ahead]
    exact c.expressionWithin s.ahead.length least s s' hpast hs

end Parallel

end Offside
