import Mathlib.Data.List.Chain
import Mathlib.Data.List.Find
import Mathlib.Data.List.Infix
import Offside.Proofs.Run.LineStarts
import Offside.Proofs.Spans

set_option autoImplicit false

/-!
# Blocks

The off-side rule: the statements of a block start its lines, all at the column of its level, and the block
ends where a line starts further left. The level of a body that stands on lines of its own is one step more
for each such body around it, whatever brackets are open.
-/
namespace Offside

open Reading

namespace Tree

/-- The statements of the body, if the tree has one. -/
def body : Tree → List Tree
  | .function _ _ body => body
  | .conditional _ _ body => body
  | _ => []

/-- The children that stand in no body. -/
def operands : Tree → List Tree
  | .call _ callee arguments => callee :: arguments
  | .list _ items => items
  | .index _ target item => [target, item]
  | .binary _ _ left right => [left, right]
  | .unary _ _ operand => [operand]
  | .assign _ target value => [target, value]
  | .conditional _ condition _ => [condition]
  | _ => []

/-- Every child of a tree is one or the other. -/
theorem children_eq (t : Tree) : t.children = t.operands ++ t.body := by
  cases t <;> simp [children, operands, body]

theorem operands_withSpan (span : Span) (t : Tree) : (t.withSpan span).operands = t.operands := by
  cases t <;> rfl

theorem body_withSpan (span : Span) (t : Tree) : (t.withSpan span).body = t.body := by
  cases t <;> rfl

/-- A line break stands right before the first statement of the body. -/
def Indented (tokens : List Token) (body : List Tree) : Prop :=
  ∃ n ∈ body.head?, ∃ t ∈ tokens, ∃ u ∈ tokens,
    [t, u] <:+: tokens ∧ t.kind = .newline ∧ n.span.start = u.span.start

instance (tokens : List Token) (body : List Tree) : Decidable (Indented tokens body) :=
  inferInstanceAs (Decidable (∃ n ∈ body.head?, ∃ t ∈ tokens, ∃ u ∈ tokens,
    [t, u] <:+: tokens ∧ t.kind = .newline ∧ n.span.start = u.span.start))

/-- The last tree is part of the first one, and inside as many indented bodies of it. -/
inductive Inside (tokens : List Token) : Tree → Nat → Tree → Prop
  | refl {n : Tree} : Inside tokens n 0 n
  | operand {n m inner : Tree} {blocks : Nat} (hm : m ∈ n.operands)
      (hinner : Inside tokens m blocks inner) : Inside tokens n blocks inner
  | inline {n m inner : Tree} {blocks : Nat} (hbody : ¬Indented tokens n.body) (hm : m ∈ n.body)
      (hinner : Inside tokens m blocks inner) : Inside tokens n blocks inner
  | indented {n m inner : Tree} {blocks : Nat} (hbody : Indented tokens n.body) (hm : m ∈ n.body)
      (hinner : Inside tokens m blocks inner) : Inside tokens n (blocks + 1) inner

end Tree

/-- A line break stands between the two trees. -/
def Separated (tokens : List Token) (m n : Tree) : Prop :=
  ∃ t ∈ tokens, t.kind = .newline ∧ m.span.stop.offset ≤ t.span.start.offset ∧
    t.span.stop.offset ≤ n.span.start.offset

/-- The token is no line break and does not start before the position. -/
def Token.isBehind (p : Position) (t : Token) : Bool :=
  t.kind ≠ .newline && p.offset ≤ t.span.start.offset

/-- The trees are the statements of a block at the column. -/
structure IsBlock (tokens : List Token) (column : Nat) (trees : List Tree) : Prop where
  /-- Each statement starts a line, at the column. -/
  starts : ∀ n ∈ trees, ∃ t, Tokens.At tokens n.span.start t ∧ t.column = column ∧
    Tokens.FirstOfLine tokens t
  separated : trees.IsChain (Separated tokens)
  /-- Behind the last statement the next token, line breaks apart, stands further left. -/
  ends : ∀ n ∈ trees.getLast?, ∀ t ∈ tokens.find? (·.isBehind n.span.stop), t.column < column

namespace Tokens.InOrder

variable {as bs ks ls : List Token} {t u last : Token}

/-- A token stands in one place only. -/
theorem append_inj (h : InOrder (as ++ t :: bs)) (heq : ks ++ t :: ls = as ++ t :: bs) : ks = as := by
  have ht : t ∈ as ++ t :: bs := List.mem_append_right _ List.mem_cons_self
  have hself : ¬t.Precedes t := fun hprecedes =>
    Nat.lt_irrefl _ (h.start_lt_of_precedes ht hprecedes)
  have has : t ∉ as := fun hmem => hself (h.precedes_of_mem_front hmem)
  have hbs : t ∉ bs := fun hmem => hself (h.precedes_of_mem_rest hmem)
  exact ((List.append_cons_inj_of_notMem has hbs).1 heq.symm).1.symm

/-- Behind a token that only line breaks follow for a while the next one is found further on. -/
theorem find?_isBehind (h : InOrder (as ++ last :: (ls ++ bs))) (hls : ∀ l ∈ ls, l.kind = .newline) :
    (as ++ last :: (ls ++ bs)).find? (·.isBehind last.span.stop) = bs.find? (·.kind ≠ .newline) := by
  have hstart := h.start_lt last (List.mem_append_right _ List.mem_cons_self)
  have hlast : ¬last.isBehind last.span.stop := by simp [Token.isBehind, hstart]
  have hbefore : as.find? (·.isBehind last.span.stop) = none := by
    refine List.find?_eq_none.2 fun t ht => ?_
    have hlt := h.start_lt_of_precedes (List.mem_append_left _ ht) (h.precedes_of_mem_front ht)
    simp [Token.isBehind, Nat.lt_trans hlt hstart]
  have hbetween : ls.find? (·.isBehind last.span.stop) = none :=
    List.find?_eq_none.2 fun t ht => by simp [Token.isBehind, hls t ht]
  have hbehind : ∀ t ∈ bs, t.isBehind last.span.stop = decide (t.kind ≠ .newline) := fun t ht => by
    simp [Token.isBehind, (h.precedes_of_mem_rest (List.mem_append_right ls ht)).stop_le]
  rw [List.find?_append, hbefore, Option.none_or, List.find?_cons_of_neg hlast, List.find?_append,
    hbetween, Option.none_or]
  exact List.find?_congr hbehind

end Tokens.InOrder

namespace Run

variable {source : String} {settings : Settings} {task : Task} {s t : State} {out : List Tree}
  {level : Nat} {n : Tree} {tokens : List Token}

/-- An expression that does not stand behind a line break starts with the next token. -/
theorem exists_start {least : Int} (h : Run (Program.setup source settings) (.expression least) s [n] t)
    (hline : ¬s.isNext .newline) :
    ∃ token, s.current? = some token ∧ n.span.start = token.span.start := by
  obtain ⟨ks, hpasses, hdelimits⟩ := h.exists_delimits
  cases ks with
  | nil =>
    obtain ⟨token, hmem, _⟩ := hdelimits.exists_first
    cases hmem
  | cons k ks =>
    have hcurrent : s.current? = some k := State.current?_eq_some_iff.2 ⟨_, hpasses.ahead⟩
    exact ⟨k, hcurrent, hdelimits.start_eq fun hkind => hline (State.isNext_iff.2 ⟨k, hcurrent, hkind⟩)⟩

/-- A statement starts with the first token behind the line breaks. -/
theorem start_eq {least : Int} {token : Token}
    (h : Run (Program.setup source settings) (.expression least) s.skipLineBreaks [n] t)
    (htoken : s.skipLineBreaks.current? = some token) : n.span.start = token.span.start := by
  have hline : ¬s.skipLineBreaks.isNext .newline := fun hnext => by
    obtain ⟨_, hcurrent, hkind⟩ := State.isNext_iff.1 hnext
    exact State.ne_newline_of_skipLineBreaks hcurrent hkind
  obtain ⟨token', htoken', hstart⟩ := h.exists_start hline
  obtain rfl := Option.some.inj (htoken.symm.trans htoken')
  exact hstart

/-- A block ends before a token further left, if any is left. -/
theorem column_lt_of_statements
    (h : Run (Program.setup source settings) (.statements level) s out t) :
    ∀ token ∈ t.ahead.find? (·.kind ≠ .newline), token.column < level := by
  generalize htask : Task.statements level = task at h
  induction h with
  | @noTokens _ s hdone =>
    rw [State.find?_eq_current?, State.skipLineBreaks_skipLineBreaks, hdone]
    exact nofun
  | outdent htoken hcolumn =>
    cases htask
    rw [State.find?_eq_current?, State.skipLineBreaks_skipLineBreaks, htoken]
    rintro _ ⟨⟩
    exact hcolumn
  | statement _ _ _ _ _ _ ih => exact ih htask
  | _ => cases htask

theorem start_eq_of_statements
    (h : Run (Program.setup source settings) (.statements level) s out t) : ∀ n ∈ out.head?,
      ∃ token, s.skipLineBreaks.current? = some token ∧ n.span.start = token.span.start := by
  cases h with
  | noTokens | outdent => exact nofun
  | statement htoken _ htree _ _ =>
    rintro _ ⟨⟩
    exact ⟨_, htoken, htree.start_eq htoken⟩

/-- A line break stands between a statement and what comes behind it. -/
theorem separated_of_endsLine {least : Int} {m : Tree} {u : State} {token : Token}
    (h : Run (Program.setup source settings) (.expression least) s [n] t) (hline : t.EndsLine u)
    (htoken : u.skipLineBreaks.current? = some token) (hm : m.span.start = token.span.start)
    (horder : Tokens.InOrder s.tokens) : Separated s.tokens n m := by
  obtain ⟨ks, hpasses, hdelimits⟩ := h.exists_delimits
  obtain ⟨last, hlast, hstop⟩ := hdelimits.exists_last
  obtain ⟨as, bs, rfl, hkind, _⟩ := exists_of_lastOf? hlast
  obtain ⟨ms, _, hms⟩ := hline.passes
  have hall := (hpasses.trans hms).trans (State.passes_skipLineBreaks u)
  have hmem : last ∈ u.skipLineBreaks.passed := by simp [hall.passed]
  have hstart := hline.atLineStart htoken
  obtain ⟨rest, htokens⟩ := State.tokens_of_current? htoken
  rw [hall.tokens] at htokens
  -- The last token passed is a line break, so it stands behind the last one of the statement.
  cases hpassed : u.skipLineBreaks.passed with
  | nil => simp [hpassed] at hmem
  | cons l ps =>
    have hl : l.kind = .newline := by simpa [State.atLineStart, State.behind?, hpassed] using hstart
    have hps : last ∈ ps := by
      rw [hpassed] at hmem
      exact (List.mem_cons.1 hmem).resolve_left fun heq => hkind (heq ▸ hl)
    rw [htokens, hpassed, List.reverse_cons, ← List.append_cons] at horder ⊢
    have hbehind : last.Precedes l := horder.precedes_of_mem_front (List.mem_reverse.2 hps)
    have hbefore : l.Precedes token := horder.precedes_of_mem_rest List.mem_cons_self
    exact ⟨l, List.mem_append_right _ List.mem_cons_self, hl, hstop ▸ hbehind.stop_le,
      hm ▸ hbefore.stop_le⟩

/-- Before and behind a statement the tokens are the same. -/
theorem tokens_of_endsLine {least : Int} {u : State}
    (h : Run (Program.setup source settings) (.expression least) s.skipLineBreaks out t)
    (hline : t.EndsLine u) : u.tokens = s.tokens := by
  obtain ⟨ks, hpasses⟩ := h.passes
  obtain ⟨ms, _, hms⟩ := hline.passes
  exact (((State.passes_skipLineBreaks s).trans hpasses).trans hms).tokens

/-- Each statement of a block starts a line at its level. -/
theorem isBlock_starts (h : Run (Program.setup source settings) (.statements level) s out t)
    (hline : ∀ token ∈ s.skipLineBreaks.current?, s.skipLineBreaks.atLineStart)
    (horder : Tokens.InOrder s.tokens) : ∀ n ∈ out, ∃ t, Tokens.At s.tokens n.span.start t ∧
      t.column = level ∧ Tokens.FirstOfLine s.tokens t := by
  generalize htask : Task.statements level = task at h
  induction h with
  | noTokens | outdent => exact nofun
  | @statement _ s t u _ token _ _ htoken hcolumn htree hend _ _ ih =>
    cases htask
    have hskip : s.skipLineBreaks.tokens = s.tokens := (State.passes_skipLineBreaks s).tokens
    have hlater : u.tokens = s.tokens := htree.tokens_of_endsLine hend
    refine List.forall_mem_cons.2 ⟨?_, ?_⟩
    · obtain ⟨hat, hfirst⟩ := State.firstOfLine htoken (hline token htoken) (hskip ▸ horder)
      rw [hskip] at hat hfirst
      have hstart := htree.start_eq htoken
      exact ⟨token, hstart ▸ hat, hcolumn, hfirst⟩
    · rw [← hlater]
      exact ih (fun _ htoken' => hend.atLineStart htoken') (hlater.symm ▸ horder) rfl
  | _ => cases htask

theorem isBlock_separated (h : Run (Program.setup source settings) (.statements level) s out t)
    (horder : Tokens.InOrder s.tokens) : out.IsChain (Separated s.tokens) := by
  generalize htask : Task.statements level = task at h
  induction h with
  | noTokens | outdent => exact .nil
  | @statement _ s t u _ token _ _ _ _ htree hend htrees _ ih =>
    cases htask
    have hskip : s.skipLineBreaks.tokens = s.tokens := (State.passes_skipLineBreaks s).tokens
    have hlater : u.tokens = s.tokens := htree.tokens_of_endsLine hend
    refine List.isChain_cons.2 ⟨fun m hm => ?_, hlater ▸ ih (hlater.symm ▸ horder) rfl⟩
    obtain ⟨token', htoken', hstart⟩ := htrees.start_eq_of_statements m hm
    exact hskip ▸ htree.separated_of_endsLine hend htoken' hstart (hskip.symm ▸ horder)
  | _ => cases htask

/-- The statements of a block whose lines start behind the line breaks form one. -/
theorem isBlock (h : Run (Program.setup source settings) (.statements level) s out t)
    (hline : ∀ token ∈ s.skipLineBreaks.current?, s.skipLineBreaks.atLineStart)
    (horder : Tokens.InOrder s.tokens) : IsBlock s.tokens level out := by
  refine ⟨h.isBlock_starts hline horder, h.isBlock_separated horder, fun n hn token htoken => ?_⟩
  obtain ⟨ks, hpasses, _, hends⟩ := h.spans trivial
  obtain ⟨last, hlast, hstop⟩ := hends.exists_last hn
  obtain ⟨as, bs, rfl, _, hbs⟩ := exists_of_lastOf? hlast
  have htokens : s.tokens = s.passed.reverse ++ as ++ last :: (bs ++ t.ahead) := by
    simp [State.tokens, hpasses.ahead]
  rw [htokens] at horder htoken
  rw [hstop, horder.find?_isBehind hbs] at htoken
  exact h.column_lt_of_statements token htoken

end Run

/-- The indented bodies of a tree that stands inside as many others are blocks, each at its level. -/
inductive Laid (tokens : List Token) (width : Nat) : Nat → Tree → Prop
  | node {blocks : Nat} {n : Tree} (hoperands : ∀ m ∈ n.operands, Laid tokens width blocks m)
      (hblock : Tree.Indented tokens n.body → IsBlock tokens ((blocks + 1) * width) n.body)
      (hindented : Tree.Indented tokens n.body → ∀ m ∈ n.body, Laid tokens width (blocks + 1) m)
      (hinline : ¬Tree.Indented tokens n.body → ∀ m ∈ n.body, Laid tokens width blocks m) :
      Laid tokens width blocks n

/-- What `Laid` says of the body of a tree. -/
structure LaidBody (tokens : List Token) (width blocks : Nat) (body : List Tree) : Prop where
  block : Tree.Indented tokens body → IsBlock tokens ((blocks + 1) * width) body
  indented : Tree.Indented tokens body → ∀ m ∈ body, Laid tokens width (blocks + 1) m
  inline : ¬Tree.Indented tokens body → ∀ m ∈ body, Laid tokens width blocks m

namespace Laid

variable {tokens : List Token} {width blocks : Nat} {n : Tree}

theorem of_body (hoperands : ∀ m ∈ n.operands, Laid tokens width blocks m)
    (hbody : LaidBody tokens width blocks n.body) : Laid tokens width blocks n :=
  .node hoperands hbody.block hbody.indented hbody.inline

theorem of_operands (hoperands : ∀ m ∈ n.operands, Laid tokens width blocks m) (hbody : n.body = []) :
    Laid tokens width blocks n := by
  refine .node hoperands ?_ ?_ ?_ <;> rw [hbody]
  · rintro ⟨_, ⟨⟩, _⟩
  · exact fun _ => nofun
  · exact fun _ => nofun

theorem withSpan (h : Laid tokens width blocks n) (span : Span) :
    Laid tokens width blocks (n.withSpan span) := by
  cases h with
  | node hoperands hblock hindented hinline =>
    rw [← n.operands_withSpan span] at hoperands
    rw [← n.body_withSpan span] at hblock hindented hinline
    exact .node hoperands hblock hindented hinline

/-- Every indented body inside a tree that is laid out is a block. -/
theorem isBlock (h : Laid tokens width blocks n) {more : Nat} {inner : Tree}
    (hinner : n.Inside tokens more inner) (hbody : Tree.Indented tokens inner.body) :
    IsBlock tokens ((blocks + more + 1) * width) inner.body := by
  induction hinner generalizing blocks with
  | refl =>
    cases h with
    | node _ hblock _ _ => exact hblock hbody
  | operand hm _ ih =>
    cases h with
    | node hoperands _ _ _ => exact ih (hoperands _ hm) hbody
  | inline hinline hm _ ih =>
    cases h with
    | node _ _ _ hlaid => exact ih (hlaid hinline _ hm) hbody
  | indented hindented hm _ ih =>
    cases h with
    | node _ _ hlaid _ =>
      have hinside := ih (hlaid hindented _ hm) hbody
      rwa [Nat.add_right_comm blocks 1] at hinside

end Laid

namespace Reading.State

variable {s : State} {token : Token} {n : Tree} {trees : List Tree}

/-- What starts on the line of the token before it is not indented. -/
theorem not_indented (hs : ¬s.atLineStart) (htoken : s.current? = some token)
    (hn : n.span.start = token.span.start) (horder : Tokens.InOrder s.tokens) :
    ¬Tree.Indented s.tokens (n :: trees) := by
  rintro ⟨_, ⟨⟩, l, _, u, hu, ⟨as, bs, heq⟩, hkind, hstart⟩
  obtain ⟨rest, htokens⟩ := tokens_of_current? htoken
  rw [htokens] at heq hu horder
  have hat := horder.at_start (List.mem_append_right _ List.mem_cons_self)
  obtain rfl : u = token := (hat u).1 ⟨hu, hstart.symm.trans hn⟩
  have hpassed : as ++ [l] = s.passed.reverse := horder.append_inj (by simpa using heq)
  have hpassed : s.passed = l :: as.reverse := by simpa using congrArg List.reverse hpassed.symm
  exact hs (by simp [atLineStart, behind?, hpassed, hkind])

/-- What starts behind the line breaks that are skipped is indented. -/
theorem indented (hs : s.isNext .newline) (htoken : s.skipLineBreaks.current? = some token)
    (hn : n.span.start = token.span.start) : Tree.Indented s.tokens (n :: trees) := by
  obtain ⟨rest, htokens⟩ := tokens_of_current? htoken
  rw [(passes_skipLineBreaks s).tokens] at htokens
  obtain ⟨l, hl, hkind⟩ := Option.map_eq_some_iff.1 (behind?_skipLineBreaks hs)
  obtain ⟨ps, hpassed⟩ := List.head?_eq_some_iff.1 hl
  have hpart : s.tokens = ps.reverse ++ [l, token] ++ rest := by simp [htokens, hpassed]
  refine ⟨n, rfl, l, ?_, token, ?_, ⟨_, _, hpart.symm⟩, hkind, hn⟩
  · simp [hpart]
  · simp [hpart]

end Reading.State

namespace Run

variable {source : String} {settings : Settings} {task : Task} {s t : State} {out : List Tree}
  {tokens : List Token} {width blocks : Nat}

/-- What a task is given: the tree is laid out, and the token before a body is no line break. -/
def GivenLaid (tokens : List Token) (width blocks : Nat) (s : State) : Task → Prop
  | .extension _ left => Laid tokens width blocks left
  | .continuation _ left _ => Laid tokens width blocks left ∧ ¬s.atLineStart
  | .body => ¬s.atLineStart
  | _ => True

/-- What a task gives: trees that are laid out, or a body that may be a block of its own. -/
def GivesLaid (tokens : List Token) (width blocks : Nat) (out : List Tree) : Task → Prop
  | .body => LaidBody tokens width blocks out
  | _ => ∀ n ∈ out, Laid tokens width blocks n

/-- The trees that a run gives are laid out as deep as it stands. -/
theorem laid (h : Run (Program.setup source settings) task s out t) (horder : Tokens.InOrder tokens)
    (hs : s.Stands tokens width blocks) (hgiven : GivenLaid tokens width blocks s task) :
    GivesLaid tokens width blocks out task := by
  -- All parts of a run stand inside as many blocks, but for the statements of an indented body.
  induction h generalizing blocks with
  | nested _ _ ih => exact ih (hs.nested _) trivial
  | first htoken _ hstart _ ih ih' =>
    obtain ⟨ks, hpasses⟩ := hstart.passes
    have htaken := hs.skipGroupedLineBreaks.takes htoken
    exact ih' (htaken.passes hpasses) (ih htaken trivial _ (List.mem_singleton_self _))
  | stop => exact List.forall_mem_singleton.2 hgiven
  | next _ htoken hrule hcontinuation _ ih ih' =>
    obtain ⟨ks, hpasses⟩ := hcontinuation.passes
    have htaken := hs.skipGroupedLineBreaks.takes htoken
    have hline := State.not_atLineStart_of_takes htoken
      (Program.ne_newline_of_infixRule (Program.setup_infixRule?.symm.trans hrule))
    exact ih' (htaken.passes hpasses) (ih htaken ⟨hgiven, hline⟩ _ (List.mem_singleton_self _))
  | identifier | number | string | boolean | parameters =>
    exact List.forall_mem_singleton.2 (.of_operands nofun rfl)
  | unary _ _ ih =>
    exact List.forall_mem_singleton.2 (.of_operands (ih hs trivial) rfl)
  | grouping _ _ _ ih =>
    exact List.forall_mem_singleton.2 ((ih hs.openGroup trivial _ (List.mem_singleton_self _)).withSpan _)
  | list _ _ ih => exact List.forall_mem_singleton.2 (.of_operands (ih hs.openGroup trivial) rfl)
  | binary _ _ ih | assignment _ _ ih =>
    refine List.forall_mem_singleton.2 (.of_operands ?_ rfl)
    exact List.forall_mem_cons.2 ⟨hgiven.1, ih hs trivial⟩
  | conditional _ ih =>
    exact List.forall_mem_singleton.2
      (.of_body (List.forall_mem_singleton.2 hgiven.1) (ih hs hgiven.2))
  | function _ _ ih => exact List.forall_mem_singleton.2 (.of_body nofun (ih hs hgiven.2))
  | call _ _ ih | index _ _ ih =>
    refine List.forall_mem_singleton.2 (.of_operands ?_ rfl)
    exact List.forall_mem_cons.2 ⟨hgiven.1, ih hs.openGroup trivial⟩
  | noItems | noTokens | outdent => exact nofun
  | lastItem _ _ _ ih => exact ih hs.skipLineBreaks trivial
  | item _ hitem hcomma _ _ ih ih' =>
    obtain ⟨ks, hpasses⟩ := hitem.passes
    have hlater := ((hs.skipLineBreaks.passes hpasses).skipLineBreaks).takes hcomma
    exact List.forall_mem_cons.2
      ⟨ih hs.skipLineBreaks trivial _ (List.mem_singleton_self _), ih' hlater trivial⟩
  | statement _ _ htree hline _ ih ih' =>
    obtain ⟨ks, hpasses⟩ := htree.passes
    obtain ⟨ls, _, hpasses'⟩ := hline.passes
    have hlater := (hs.skipLineBreaks.passes hpasses).passes hpasses'
    exact List.forall_mem_cons.2
      ⟨ih hs.skipLineBreaks trivial _ (List.mem_singleton_self _), ih' hlater trivial⟩
  | inlineBody hinline htree ih =>
    obtain ⟨token, htoken, hstart⟩ := htree.exists_start hinline
    have hnot : ¬Tree.Indented tokens [_] :=
      hs.tokens ▸ State.not_indented hgiven htoken hstart (hs.tokens.symm ▸ horder)
    exact ⟨fun h => absurd h hnot, fun h => absurd h hnot, fun _ => ih hs trivial⟩
  | @indentedBody s _ _ token trees hbreak htoken hcolumn htrees hclose ih =>
    have hblock := hs.skipLineBreaks.openBlock
    have hindented : Tree.Indented tokens trees := by
      have hne := Run.body_ne_nil (.indentedBody hbreak htoken hcolumn htrees hclose)
      obtain ⟨n, ns, rfl⟩ := List.exists_cons_of_ne_nil hne
      obtain ⟨token', htoken', hstart⟩ := htrees.start_eq_of_statements n rfl
      rw [State.skipLineBreaks_openBlock] at htoken'
      exact hs.tokens ▸ State.indented hbreak htoken' hstart
    refine ⟨fun _ => ?_, fun _ => ih hblock trivial, fun hnot => absurd hindented hnot⟩
    rw [← hblock.current, ← hblock.tokens]
    exact htrees.isBlock (fun _ _ => State.atLineStart_openBlock hbreak) (hblock.tokens.symm ▸ horder)

end Run

namespace Program

variable {source : String} {settings : Settings} {tokens : List Token} {trees : List Tree}

/-- The off-side rule: the statements of a program are a block at column zero, and a body that stands on
lines of its own, inside some other such bodies, is a block one step deeper than the innermost of them. -/
theorem parse_off_side (htokens : Tokens.ofSource source = .ok tokens)
    (h : parse source settings tokens = .ok trees) : IsBlock tokens 0 trees ∧
      ∀ n ∈ trees, ∀ blocks inner, Tree.Inside tokens n blocks inner →
        Tree.Indented tokens inner.body →
        IsBlock tokens ((blocks + 1) * settings.indentWidth) inner.body := by
  have horder := Tokens.inOrder_of_ofSource htokens
  obtain ⟨t, hrun⟩ := parse_eq_ok_iff.1 h
  have hstart := State.Stands.start settings.indentWidth tokens
  have hline : (State.start settings.indentWidth tokens).skipLineBreaks.atLineStart :=
    State.atLineStart_skipLineBreaks_of_atLineStart rfl
  refine ⟨hrun.isBlock (fun _ _ => hline) horder, fun n hn blocks inner hinner hbody => ?_⟩
  have hlaid : ∀ n ∈ trees, Laid tokens settings.indentWidth 0 n := hrun.laid horder hstart trivial
  simpa using (hlaid n hn).isBlock hinner hbody

/-- A block in the block of a function that is an argument: two steps, and both lines end at once. -/
theorem parse_off_side_of_argument : ∃ (tokens : List Token) (trees : List Tree) (inner : Tree),
    Tokens.ofSource "f((x) ->\n  y\n  x ?\n    a\n    b\n)\nd" = .ok tokens ∧
    parse "f((x) ->\n  y\n  x ?\n    a\n    b\n)\nd" {} tokens = .ok trees ∧
    trees.map Tree.render = ["(call f (fn (x) y (? x a b)))", "d"] ∧ IsBlock tokens 0 trees ∧
    inner.body.map Tree.render = ["a", "b"] ∧ IsBlock tokens 4 inner.body := by
  obtain ⟨tokens, trees, htokens, hparse, htrees⟩ : ∃ tokens trees,
      Tokens.ofSource "f((x) ->\n  y\n  x ?\n    a\n    b\n)\nd" = .ok tokens ∧
      parse "f((x) ->\n  y\n  x ?\n    a\n    b\n)\nd" {} tokens = .ok trees ∧
      (trees.map Tree.render, decide (∃ n ∈ trees, ∃ m ∈ n.operands, Tree.Indented tokens m.body ∧
        ∃ inner ∈ m.body, Tree.Indented tokens inner.body ∧ inner.body.map Tree.render = ["a", "b"])) =
          (["(call f (fn (x) y (? x a b)))", "d"], true) :=
    exists_of_parse (by decide +kernel)
  obtain ⟨hrender, hinner⟩ := Prod.mk.inj htrees
  obtain ⟨n, hn, m, hm, hbody, inner, hmem, hindented, hinner⟩ := of_decide_eq_true hinner
  obtain ⟨htop, hblocks⟩ := parse_off_side htokens hparse
  have hinside : Tree.Inside tokens n 1 inner := .operand hm (.indented hbody hmem .refl)
  exact ⟨tokens, trees, inner, htokens, hparse, hrender, htop, hinner,
    hblocks n hn 1 inner hinside hindented⟩

end Program

end Offside
