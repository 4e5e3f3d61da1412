import Offside.Proofs.Bare
import Offside.Proofs.Relayout.Beside
import Offside.Proofs.Run.Failure

set_option autoImplicit false

/-!
# Runs and failures of two layouts

What is read of one layout of a text is read of the other one, with the same trees but for their spans, and
what is reported of the one is reported of the other, with the columns that correspond.
-/
namespace Offside

open Reading

namespace Relayout

def setup (c : Relayout) (settings : Settings) : Setup PrefixRule InfixRule :=
  Program.setup c.source { settings with indentWidth := c.width }

def setup' (c : Relayout) (settings : Settings) : Setup PrefixRule InfixRule :=
  Program.setup c.source' { settings with indentWidth := c.width' }

/-- What is read of the second layout where the task is carried out on the first one. -/
inductive Corresponds (c : Relayout) : Task → Task → Prop
  | extension {least : Int} {left left' : Tree} (hleft : left'.bare = left.bare) :
      Corresponds c (.extension least left) (.extension least left')
  | start {rule : PrefixRule} {token token' : Token} (htoken : c.Alike token token') :
      Corresponds c (.start rule token) (.start rule token')
  | continuation {rule : InfixRule} {left left' : Tree} {token token' : Token}
      (hleft : left'.bare = left.bare) (htoken : c.Alike token token') :
      Corresponds c (.continuation rule left token) (.continuation rule left' token')
  | expression {least : Int} : Corresponds c (.expression least) (.expression least)
  | climb {least : Int} : Corresponds c (.climb least) (.climb least)
  | items {close : Kind} : Corresponds c (.items close) (.items close)
  | statements {level : Nat} : Corresponds c (.statements level) (.statements (c.column level))
  | body : Corresponds c .body .body

/-- The task can be carried out on both layouts alike. Statements skip line breaks first, and start where a
line does. -/
def Ready (c : Relayout) (s s' : State) : Task → Prop
  | .statements _ => c.Beside s.skipLineBreaks s'.skipLineBreaks ∧
      ∀ token, s.skipLineBreaks.current? = some token → s.skipLineBreaks.atLineStart
  | _ => c.Beside s s'

variable {c : Relayout} {settings : Settings} {task task' : Task} {s s' t u : State} {out : List Tree}
  {least : Int} {n : Tree} {token stop : Token} {close : Kind} {items : List Tree}

/-- The task is carried out on the second layout too, with the same trees but for their spans. -/
def Follows (c : Relayout) (settings : Settings) (s : State) (out : List Tree) (t : State)
    (task : Task) : Prop :=
  ∀ task' s', c.Corresponds task task' → c.Ready s s' task →
    ∃ out' t', Run (c.setup' settings) task' s' out' t' ∧ out'.map Tree.bare = out.map Tree.bare ∧
      c.Beside t t'

namespace Follows

/-- A task that gives one tree is carried out if it gives one with the same nodes. -/
theorem of_one (h : ∀ task' s', c.Corresponds task task' → c.Ready s s' task →
    ∃ n' t', Run (c.setup' settings) task' s' [n'] t' ∧ n'.bare = n.bare ∧ c.Beside t t') :
    c.Follows settings s [n] t task := by
  intro task' s' htask hs
  obtain ⟨n', t', hrun, hn, ht⟩ := h task' s' htask hs
  exact ⟨[n'], t', hrun, congrArg ([·]) hn, ht⟩

theorem one (h : c.Follows settings s [n] t task) (htask : c.Corresponds task task')
    (hs : c.Ready s s' task) :
    ∃ n' t', Run (c.setup' settings) task' s' [n'] t' ∧ n'.bare = n.bare ∧ c.Beside t t' := by
  obtain ⟨out', t', hrun, hbare, ht⟩ := h task' s' htask hs
  obtain ⟨n', rfl, hn⟩ := List.map_eq_singleton_iff.1 hbare
  exact ⟨n', t', hrun, hn, ht⟩

/-- What stands between brackets is read up to the bracket that corresponds. -/
theorem bracketed (h : c.Follows settings s.openGroup items t (.items close)) (hs : c.Beside s s')
    (hclose : close ≠ .newline) (hstop : t.Closes close stop u) :
    ∃ items' stop' t' u', Run (c.setup' settings) (.items close) s'.openGroup items' t' ∧
      t'.Closes close stop' u' ∧ c.Alike stop stop' ∧ items'.map Tree.bare = items.map Tree.bare ∧
      c.Beside u u' := by
  obtain ⟨items', t', hitems, hbare, ht⟩ := h _ _ .items hs.openGroup
  obtain ⟨stop', u', hstop', halike, hu⟩ := ht.closes hclose hstop
  exact ⟨items', stop', t', u', hitems, hstop', halike, hbare, hu⟩

end Follows

/-! ### Steps of the tasks -/

/-- A token that starts an expression is no line break, so it is taken of the second layout too. -/
theorem takes_prefix {rule : PrefixRule} (h : c.Beside s s')
    (htoken : s.skipGroupedLineBreaks.Takes token t)
    (hrule : (c.setup settings).grammar.prefixRule? token.kind = some rule) :
    ∃ token' t', s'.skipGroupedLineBreaks.Takes token' t' ∧
      (c.setup' settings).grammar.prefixRule? token'.kind = some rule ∧
      c.Alike token token' ∧ c.Beside t t' := by
  have hkind : token.kind ≠ .newline := by
    intro hk
    rw [hk] at hrule
    cases hrule
  obtain ⟨token', t', htoken', halike, ht⟩ := h.skipGroupedLineBreaks.takes htoken hkind
  exact ⟨token', t', htoken', halike.1 ▸ hrule, halike, ht⟩

/-- So is a token that continues one. -/
theorem takes_infix {rule : InfixRule} (h : c.Beside s s')
    (htoken : s.skipGroupedLineBreaks.Takes token t)
    (hrule : (c.setup settings).grammar.infixRule? token.kind = some rule) :
    ∃ token' t', s'.skipGroupedLineBreaks.Takes token' t' ∧
      (c.setup' settings).grammar.infixRule? token'.kind = some rule ∧
      c.Alike token token' ∧ c.Beside t t' := by
  have hkind : token.kind ≠ .newline := by
    intro hk
    rw [hk] at hrule
    cases hrule
  obtain ⟨token', t', htoken', halike, ht⟩ := h.skipGroupedLineBreaks.takes htoken hkind
  exact ⟨token', t', htoken', halike.1 ▸ hrule, halike, ht⟩

theorem loose_iff (h : c.Beside s s') : (s'.done ∨ (c.setup' settings).power s' ≤ least) ↔
    (s.done ∨ (c.setup settings).power s ≤ least) := by
  have hpower : (c.setup' settings).power s' = (c.setup settings).power s := h.power _ _
  rw [h.done, hpower]

/-- The first token of statements stands in the column that corresponds. -/
theorem first_of_ready {level : Nat} (h : c.Ready s s' (.statements level))
    (htoken : s.skipLineBreaks.current? = some token) :
    ∃ token', s'.skipLineBreaks.current? = some token' ∧ token'.column = c.column token.column := by
  obtain ⟨token', htoken', _, hcolumn⟩ := h.1.current? htoken
  exact ⟨token', htoken', hcolumn (h.2 token htoken)⟩

/-- So does the first token of a block. -/
theorem first_of_isNext (h : c.Beside s s') (hbreak : s.isNext .newline)
    (htoken : s.skipLineBreaks.current? = some token) :
    ∃ token', s'.skipLineBreaks.current? = some token' ∧ token'.column = c.column token.column := by
  obtain ⟨token', htoken', _, hcolumn⟩ := h.skipLineBreaks.current? htoken
  exact ⟨token', htoken', hcolumn (State.atLineStart_skipLineBreaks (.inr hbreak))⟩

theorem ready_of_endsLine {level : Nat} (h : c.Beside s s') (hline : s.EndsLine t) :
    ∃ t', s'.EndsLine t' ∧ c.Ready t t' (.statements level) := by
  obtain ⟨t', hline'⟩ := h.endsLine hline
  refine ⟨t', hline', ?_, fun token htoken => hline.atLineStart htoken⟩
  rw [hline.skipLineBreaks, hline'.skipLineBreaks]
  exact h.skipLineBreaks

theorem ready_of_openBlock {level : Nat} (h : c.Beside s s') (hbreak : s.isNext .newline) :
    c.Ready s.skipLineBreaks.openBlock s'.skipLineBreaks.openBlock (.statements level) := by
  refine ⟨h.skipLineBreaks.openBlock.skipLineBreaks, fun _ _ => ?_⟩
  refine State.atLineStart_skipLineBreaks (.inl ?_)
  have hafter : s.skipLineBreaks.openBlock.behind? = some .newline := State.behind?_skipLineBreaks hbreak
  rw [State.afterLineBreak_eq, hafter]
  rfl

theorem follows_of_run (h : Run (c.setup settings) task s out t) : c.Follows settings s out t task := by
  induction h with
  | nested hdepth _ ih =>
    refine .of_one ?_
    rintro task' s' ⟨⟩ hs
    obtain ⟨n', t', hrun, hn, ht⟩ := ih.one .climb (Beside.withDepth hs (· + 1))
    exact ⟨n', _, .nested (by rw [Beside.depth hs]; exact hdepth) hrun, hn, ht.withDepth (· - 1)⟩
  | first htoken hrule _ _ ih ih' =>
    refine .of_one ?_
    rintro task' s' ⟨⟩ hs
    obtain ⟨token', t', htoken', hrule', halike, ht⟩ := takes_prefix hs htoken hrule
    obtain ⟨left', u', hstart', hleft, hu⟩ := ih.one (.start halike) ht
    obtain ⟨n', v', hextension', hn, hv⟩ := ih'.one (.extension hleft) hu
    exact ⟨n', v', .first htoken' hrule' hstart' hextension', hn, hv⟩
  | stop hloose =>
    refine .of_one ?_
    rintro task' s' ⟨hleft⟩ hs
    exact ⟨_, s', .stop ((loose_iff hs).2 hloose), hleft, hs⟩
  | next htight htoken hrule _ _ ih ih' =>
    refine .of_one ?_
    rintro task' s' ⟨hleft⟩ hs
    obtain ⟨token', t', htoken', hrule', halike, ht⟩ := takes_infix hs htoken hrule
    obtain ⟨longer', u', hcontinuation', hlonger, hu⟩ := ih.one (.continuation hleft halike) ht
    obtain ⟨n', v', hextension', hn, hv⟩ := ih'.one (.extension hlonger) hu
    exact ⟨n', v', .next (htight ∘ (loose_iff hs).1) htoken' hrule' hcontinuation'
      hextension', hn, hv⟩
  | identifier =>
    refine .of_one ?_
    rintro task' s' (_ | halike) hs
    exact ⟨_, s', .identifier, congrArg (Tree.identifier default) halike.2, hs⟩
  | number hvalue =>
    refine .of_one ?_
    rintro task' s' (_ | halike) hs
    exact ⟨_, s', .number ((congrArg Binary64.ofText? halike.2).trans hvalue), rfl, hs⟩
  | string hinside =>
    refine .of_one ?_
    rintro task' s' (_ | halike) hs
    have hinside' := (congrArg (fun text : String => Reader.unquoted? text.toList) halike.2).trans hinside
    exact ⟨_, s', .string hinside', rfl, hs⟩
  | boolean =>
    refine .of_one ?_
    rintro task' s' (_ | halike) hs
    exact ⟨_, s', .boolean, by simp only [Tree.bare, halike.1], hs⟩
  | unary hoperator _ ih =>
    refine .of_one ?_
    rintro task' s' (_ | halike) hs
    obtain ⟨operand', t', hoperand', hbare, ht⟩ := ih.one .expression hs
    exact ⟨_, t', .unary ((congrArg Operator.unary? halike.1).trans hoperator) hoperand',
      by simp only [Tree.bare, hbare], ht⟩
  | parameters _ hstop harrow hnames ih =>
    refine .of_one ?_
    rintro task' s' (_ | halike) hs
    obtain ⟨items', stop', t', u', hitems', hstop', _, hbare, hu⟩ := ih.bracketed hs (by decide) hstop
    exact ⟨_, u', .parameters hitems' hstop' (by rwa [hu.isNext]) (by rw [Tree.map_name?_congr hbare, hnames]),
      rfl, hu⟩
  | grouping _ hstop harrow ih =>
    refine .of_one ?_
    rintro task' s' (_ | halike) hs
    obtain ⟨items', stop', t', u', hitems', hstop', _, hbare, hu⟩ := ih.bracketed hs (by decide) hstop
    obtain ⟨item', rfl, hitem⟩ := List.map_eq_singleton_iff.1 hbare
    exact ⟨_, u', .grouping hitems' hstop' (by rwa [hu.isNext]), by simpa using hitem, hu⟩
  | list _ hstop ih =>
    refine .of_one ?_
    rintro task' s' (_ | halike) hs
    obtain ⟨items', stop', t', u', hitems', hstop', _, hbare, hu⟩ := ih.bracketed hs (by decide) hstop
    exact ⟨_, u', .list hitems' hstop', by simp only [Tree.bare, Tree.bareAll_eq_map, hbare], hu⟩
  | binary hoperator _ ih =>
    refine .of_one ?_
    rintro task' s' (_ | _ | ⟨hleft, halike⟩) hs
    obtain ⟨right', t', hright', hbare, ht⟩ := ih.one .expression hs
    rw [← halike.1] at hright'
    exact ⟨_, t', .binary ((congrArg Operator.binary? halike.1).trans hoperator) hright',
      by simp only [Tree.bare, hleft, hbare], ht⟩
  | assignment htarget _ ih =>
    refine .of_one ?_
    rintro task' s' (_ | _ | ⟨hleft, halike⟩) hs
    obtain ⟨value', t', hvalue', hbare, ht⟩ := ih.one .expression hs
    rw [← halike.1] at hvalue'
    exact ⟨_, t', .assignment (by rwa [Tree.isAssignable_congr hleft]) hvalue',
      by simp only [Tree.bare, hleft, hbare], ht⟩
  | conditional _ ih =>
    refine .of_one ?_
    rintro task' s' (_ | _ | ⟨hleft, halike⟩) hs
    obtain ⟨trees', t', hbody', hbare, ht⟩ := ih _ _ .body hs
    exact ⟨_, t', .conditional hbody',
      by simp only [Tree.bare, Tree.bareAll_eq_map, hleft, hbare], ht⟩
  | function hnames _ ih =>
    refine .of_one ?_
    rintro task' s' (_ | _ | ⟨hleft, halike⟩) hs
    obtain ⟨trees', t', hbody', hbare, ht⟩ := ih _ _ .body hs
    exact ⟨_, t', .function (by rw [Tree.parameters?_congr hleft, hnames]) hbody',
      by simp only [Tree.bare, Tree.bareAll_eq_map, hbare], ht⟩
  | call _ hstop ih =>
    refine .of_one ?_
    rintro task' s' (_ | _ | ⟨hleft, halike⟩) hs
    obtain ⟨items', stop', t', u', hitems', hstop', _, hbare, hu⟩ := ih.bracketed hs (by decide) hstop
    exact ⟨_, u', .call hitems' hstop',
      by simp only [Tree.bare, Tree.bareAll_eq_map, hleft, hbare], hu⟩
  | index _ hstop ih =>
    refine .of_one ?_
    rintro task' s' (_ | _ | ⟨hleft, halike⟩) hs
    obtain ⟨item', t', hitem', hbare, ht⟩ := ih.one .expression (Beside.openGroup hs)
    obtain ⟨stop', u', hstop', _, hu⟩ := ht.skipLineBreaks.closes (by decide) hstop
    exact ⟨_, u', .index hitem' hstop', by simp only [Tree.bare, hleft, hbare], hu⟩
  | noItems hclosed =>
    rintro task' s' ⟨⟩ hs
    have hs := Beside.skipLineBreaks hs
    exact ⟨_, _, .noItems (by rwa [hs.isNext]), rfl, hs⟩
  | lastItem hopen _ hlast ih =>
    rintro task' s' ⟨⟩ hs
    have hs := Beside.skipLineBreaks hs
    obtain ⟨item', t', hitem', hbare, ht⟩ := ih.one .expression hs
    exact ⟨_, _, .lastItem (by rwa [hs.isNext]) hitem' (by rwa [ht.skipLineBreaks.isNext]),
      congrArg ([·]) hbare, ht.skipLineBreaks⟩
  | item hopen _ hcomma hkind _ ih ih' =>
    rintro task' s' ⟨⟩ hs
    have hs := Beside.skipLineBreaks hs
    obtain ⟨item', t', hitem', hbare, ht⟩ := ih.one .expression hs
    obtain ⟨comma', u', hcomma', halike, hu⟩ := ht.skipLineBreaks.takes hcomma (by rw [hkind]; decide)
    obtain ⟨items', v', hitems', hbares, hv⟩ := ih' _ _ .items hu
    exact ⟨_, v', .item (by rwa [hs.isNext]) hitem' hcomma' (halike.1.trans hkind) hitems',
      congrArg₂ List.cons hbare hbares, hv⟩
  | noTokens hdone =>
    rintro task' s' ⟨⟩ ⟨hs, _⟩
    exact ⟨_, _, .noTokens (hs.current?_eq_none hdone), rfl, hs⟩
  | outdent htoken hcolumn =>
    rintro task' s' ⟨⟩ hs
    obtain ⟨token', htoken', hcolumn'⟩ := first_of_ready hs htoken
    exact ⟨_, _, .outdent htoken' (hcolumn' ▸ c.strictMono hcolumn), rfl, hs.1⟩
  | statement htoken hcolumn _ hline _ ih ih' =>
    rintro task' s' ⟨⟩ hs
    obtain ⟨token', htoken', hcolumn'⟩ := first_of_ready hs htoken
    obtain ⟨tree', t', htree', hbare, ht⟩ := ih.one .expression hs.1
    obtain ⟨u', hline', hu⟩ := ready_of_endsLine ht hline
    obtain ⟨trees', v', htrees', hbares, hv⟩ := ih' _ _ .statements hu
    exact ⟨_, v', .statement htoken' (hcolumn'.trans (congrArg c.column hcolumn)) htree' hline' htrees',
      congrArg₂ List.cons hbare hbares, hv⟩
  | inlineBody hinline _ ih =>
    refine .of_one ?_
    rintro task' s' ⟨⟩ hs
    obtain ⟨tree', t', htree', hbare, ht⟩ := ih.one .expression hs
    exact ⟨_, t', .inlineBody (by rwa [Beside.isNext hs]) htree', hbare, ht⟩
  | indentedBody hbreak htoken hcolumn _ hclose ih =>
    rintro task' s' ⟨⟩ hs
    obtain ⟨token', htoken', hcolumn'⟩ := first_of_isNext hs hbreak htoken
    obtain ⟨trees', t', htrees', hbare, ht⟩ := ih _ _ .statements (ready_of_openBlock hs hbreak)
    obtain ⟨u', hclose', hu⟩ := ht.closeBlock? hclose
    have hlevel := (Beside.skipLineBreaks hs).current_openBlock
    rw [← hlevel] at htrees'
    refine ⟨_, u', .indentedBody (by rwa [Beside.isNext hs]) htoken' ?_ htrees' hclose', hbare, hu⟩
    rw [hlevel, hcolumn']
    exact c.strictMono.monotone hcolumn

end Relayout

end Offside
