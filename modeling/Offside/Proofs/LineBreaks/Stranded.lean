import Offside.Proofs.Bare
import Offside.Proofs.Brackets
import Offside.Proofs.Content

set_option autoImplicit false

/-!
# Parameters with a line break behind them

A parenthesis is a parameter list only if an arrow is the very next token behind it. With a line break
between them it is a group, and what is in the group has to be one name for the arrow to take it; so no
reading gets past an arrow that a line break parts from a list of any other length.
-/
namespace Offside

open Reading

/-- A parameter list that waits for its arrow. -/
def Tree.IsParameters (n : Tree) : Prop := ∃ span names, n = .parameters span names

namespace Run

variable {source : String} {settings : Settings} {task : Task} {s t : State} {out : List Tree}

/-- What gives a parameter list stops before an arrow. -/
def Awaits (s : State) (out : List Tree) (t : State) : Task → Prop
  | .extension _ left => (left.IsParameters → s.isNext .arrow) →
    ∀ n ∈ out, n.IsParameters → t.isNext .arrow
  | .statements _ | .body => True
  | _ => ∀ n ∈ out, n.IsParameters → t.isNext .arrow

theorem awaits {setup : Setup PrefixRule InfixRule} (h : Run setup task s out t) :
    Awaits s out t task := by
  have hnone : ∀ {n : Tree} {u : State}, ¬n.IsParameters →
      ∀ m ∈ [n], m.IsParameters → u.isNext .arrow := by
    intro n u hn m hm hp
    exact absurd (List.mem_singleton.1 hm ▸ hp) hn
  induction h with
  | nested _ _ ih => exact ih
  | first _ _ _ _ ih ih' => exact ih' (ih _ List.mem_cons_self)
  | stop _ =>
    intro hleft n hn hp
    exact hleft (List.mem_singleton.1 hn ▸ hp)
  | next _ _ _ _ _ ih ih' => exact fun _ => ih' (ih _ List.mem_cons_self)
  | identifier | number _ | string _ | boolean | unary _ _ _ | list _ _ _ | binary _ _ _
  | assignment _ _ _ | conditional _ _ | function _ _ _ | call _ _ _ | index _ _ _ =>
    apply hnone
    rintro ⟨span, names, he⟩
    cases he
  | parameters _ _ harrow _ _ => exact fun _ _ _ => harrow
  | @grouping _ _ _ _ _ item _ hstop _ ih =>
    apply hnone
    rintro ⟨span, names, he⟩
    have hitem : item.IsParameters := by
      cases item <;> simp only [Tree.withSpan, reduceCtorEq] at he
      exact ⟨_, _, rfl⟩
    cases State.kind_eq_of_isNext (ih item List.mem_cons_self hitem) hstop.isNext
  | noItems _ =>
    intro n hn
    cases hn
  | lastItem _ _ _ ih =>
    exact fun n hn hp => State.isNext_skipLineBreaks (ih n hn hp) (by decide)
  | item _ _ hcomma hkind _ ih ih' =>
    intro n hn hp
    rcases List.mem_cons.1 hn with rfl | hn
    · have harrow := State.isNext_skipLineBreaks (ih n List.mem_cons_self hp) (by decide)
      have hnext := hcomma.isNext
      rw [hkind] at hnext
      cases State.kind_eq_of_isNext harrow hnext
    · exact ih' n hn hp
  | noTokens _ | outdent _ _ | statement _ _ _ _ _ | inlineBody _ _ _ | indentedBody _ _ _ _ _ =>
    trivial

end Run

/-- The kind of tokens that become names of a parameter list. -/
def Content.IsName : Content → Bool
  | .name _ => true
  | _ => false

theorem countP_identifier (source : String) (ks : List Token) :
    ks.countP (·.kind = .identifier) = (contents source ks).countP Content.IsName := by
  induction ks with
  | nil => rfl
  | cons k ks ih =>
    have hk : contents source (k :: ks) = (k.content? source).toList ++ contents source ks := by
      rw [contents, List.filterMap_cons]
      cases k.content? source <;> rfl
    rw [hk, List.countP_append, ← ih, List.countP_cons, Nat.add_comm]
    apply congrArg (· + _)
    unfold Token.content?
    cases k.kind <;> rfl

/-- Parentheses around another number of names than one, with a line break and an arrow behind them. -/
structure Strand where
  start : Token
  inner : List Token
  stop : Token
  line : Token
  arrow : Token
  rest : List Token
  start_kind : start.kind = .openParen
  balanced : Balanced inner
  names : inner.countP (·.kind = .identifier) ≠ 1
  stop_kind : stop.kind = .closeParen
  line_kind : line.kind = .newline
  arrow_kind : arrow.kind = .arrow

/-- A line break between the tokens parts parentheses around another number of names than one from an
arrow. -/
def Strands (before : List Token) (line : Token) (after : List Token) : Prop :=
  ∃ (w : Strand) (outer : List Token), before = outer ++ w.start :: (w.inner ++ [w.stop]) ∧
    line = w.line ∧ after = w.arrow :: w.rest

namespace Strand

variable {w : Strand} {s t u : State} {token stop : Token} {ts : List Token}

/-- The opening parenthesis is still ahead. -/
def Ahead (w : Strand) (ts : List Token) : Prop :=
  ∃ before, ts = before ++ w.start :: (w.inner ++ w.stop :: w.line :: w.arrow :: w.rest)

/-- The arrow is next, perhaps behind the line break. -/
def Between (w : Strand) (ts : List Token) : Prop :=
  ts = w.line :: w.arrow :: w.rest ∨ ts = w.arrow :: w.rest

theorem Ahead.cases (h : w.Ahead (token :: ts)) :
    token = w.start ∧ ts = w.inner ++ w.stop :: w.line :: w.arrow :: w.rest ∨ w.Ahead ts := by
  obtain ⟨before, he⟩ := h
  cases before with
  | nil => exact .inl (List.cons.inj he)
  | cons k before => exact .inr ⟨before, (List.cons.inj he).2⟩

theorem Ahead.tail (h : w.Ahead (token :: ts)) (hk : token.kind ≠ .openParen) : w.Ahead ts := by
  rcases h.cases with ⟨rfl, _⟩ | h
  · exact absurd w.start_kind hk
  · exact h

theorem Ahead.takes (h : w.Ahead s.ahead) (ht : s.Takes token t) : w.Ahead (token :: t.ahead) := by
  have := ht.passes.ahead
  rwa [this] at h

theorem Ahead.dropWhile (h : w.Ahead ts) : w.Ahead (ts.dropWhile (·.kind = .newline)) := by
  induction ts with
  | nil => exact h
  | cons k ts ih =>
    by_cases hk : k.kind = .newline
    · rw [List.dropWhile_cons_of_pos (by simpa using hk)]
      exact ih (h.tail (by rw [hk]; decide))
    · rw [List.dropWhile_cons_of_neg (by simpa using hk)]
      exact h

theorem Ahead.skipLineBreaks (h : w.Ahead s.ahead) : w.Ahead s.skipLineBreaks.ahead := h.dropWhile

theorem Ahead.skipGroupedLineBreaks (h : w.Ahead s.ahead) :
    w.Ahead s.skipGroupedLineBreaks.ahead := by
  unfold State.skipGroupedLineBreaks
  split
  · exact h.skipLineBreaks
  · exact h

theorem Ahead.closes {close : Kind} (h : w.Ahead s.ahead) (hc : s.Closes close stop t)
    (hclose : close ≠ .openParen) : w.Ahead t.ahead := by
  obtain ⟨u, hu, ht, rfl⟩ := hc
  rw [← State.ahead_of_closeGroup? hu] at h
  exact (h.takes ht).tail hclose

theorem Between.skipLineBreaks (h : w.Between s.ahead) :
    s.skipLineBreaks.ahead = w.arrow :: w.rest := by
  change s.ahead.dropWhile _ = _
  rcases h with h | h <;> rw [h] <;> simp [w.line_kind, w.arrow_kind]

theorem Between.isNext (h : w.Between s.ahead) {kind : Kind} (hk : s.isNext kind) :
    kind = .newline ∨ kind = .arrow := by
  obtain ⟨k, hcurrent, rfl⟩ := State.isNext_iff.1 hk
  obtain ⟨ls, hs⟩ := State.current?_eq_some_iff.1 hcurrent
  rcases h with h | h
  · rw [hs] at h
    rw [(List.cons.inj h).1]
    exact .inl w.line_kind
  · rw [hs] at h
    rw [(List.cons.inj h).1]
    exact .inr w.arrow_kind

theorem Between.skipLineBreaks_isNext (h : w.Between s.ahead) {kind : Kind}
    (hk : s.skipLineBreaks.isNext kind) : kind = .newline ∨ kind = .arrow :=
  Between.isNext (.inr h.skipLineBreaks) hk

end Strand

namespace Strand

variable {w : Strand} {s t u : State} {token stop : Token} {source : String} {settings : Settings}
  {items : List Tree}

theorem Between.skipGroupedLineBreaks_isNext (h : w.Between s.ahead) {kind : Kind}
    (hk : s.skipGroupedLineBreaks.isNext kind) : kind = .newline ∨ kind = .arrow := by
  unfold State.skipGroupedLineBreaks at hk
  split at hk
  · exact h.skipLineBreaks_isNext hk
  · exact h.isNext hk

/-- No expression starts with the arrow. -/
theorem Between.not_expression {least : Int} {out : List Tree} (h : w.Between s.ahead) :
    ¬Run (Program.setup source settings) (.expression least) s out t := by
  intro hrun
  obtain ⟨token, rule, htoken, hrule⟩ := hrun.first_token
  have hnext := State.isNext_iff.2 ⟨token, htoken, rfl⟩
  rw [Program.setup_prefixRule?] at hrule
  rcases h.skipGroupedLineBreaks_isNext hnext with hk | hk <;> rw [hk] at hrule <;> cases hrule

/-- A line break behind a statement keeps the arrow next. -/
theorem Between.endsLine (h : w.Between s.ahead) (hline : s.EndsLine t) : w.Between t.ahead := by
  unfold State.EndsLine at hline
  split at hline
  · rwa [hline]
  · obtain ⟨line, ht, hk⟩ := hline
    have hs : s.ahead = line :: t.ahead := ht.passes.ahead
    rcases h with h | h
    · rw [hs] at h
      exact .inr (List.cons.inj h).2
    · rw [hs] at h
      rw [(List.cons.inj h).1, w.arrow_kind] at hk
      cases hk

theorem Ahead.endsLine (h : w.Ahead s.ahead) (hline : s.EndsLine t) : w.Ahead t.ahead := by
  unfold State.EndsLine at hline
  split at hline
  · rwa [hline]
  · obtain ⟨line, ht, hk⟩ := hline
    exact (h.takes ht).tail (by rw [hk]; decide)

/-- A closing bracket does not stand where the arrow does. -/
theorem ahead_of_closes {close : Kind} (h : w.Ahead t.ahead ∨ w.Between t.ahead)
    (hstop : t.Closes close stop u) (hclose : close = .closeParen ∨ close = .closeBracket) :
    w.Ahead u.ahead := by
  rcases h with h | h
  · apply h.closes hstop
    rcases hclose with rfl | rfl <;> decide
  · rcases h.isNext hstop.isNext with rfl | rfl <;> rcases hclose with hk | hk <;> cases hk

/-- What the opening parenthesis opens is closed by the closing one. -/
theorem closes_start (hs : s.ahead = w.inner ++ w.stop :: w.line :: w.arrow :: w.rest)
    (hitems : Run (Program.setup source settings) (.items .closeParen) s.openGroup items t)
    (hstop : t.Closes .closeParen stop u) :
    s.openGroup.Passes w.inner t ∧ u.ahead = w.line :: w.arrow :: w.rest := by
  obtain ⟨ks, hp, hb⟩ := hitems.balanced trivial
  obtain ⟨v, hv, htakes, hk⟩ := hstop
  have hahead : w.inner ++ w.stop :: w.line :: w.arrow :: w.rest = ks ++ stop :: u.ahead := by
    rw [← hs, ← State.ahead_openGroup s, hp.ahead, ← State.ahead_of_closeGroup? hv,
      htakes.passes.ahead]
    rfl
  obtain ⟨hinner, _, hrest⟩ := w.balanced.eq_of_closed hb (by rw [w.stop_kind]; rfl)
    (by rw [hk]; rfl) hahead
  rw [hinner]
  exact ⟨hp, hrest.symm⟩

/-- A sequence between parentheses is the one of the strand, or the strand is still ahead behind it. -/
theorem Ahead.group (h : w.Ahead (token :: s.ahead))
    (hitems : Run (Program.setup source settings) (.items .closeParen) s.openGroup items t)
    (hstop : t.Closes .closeParen stop u)
    (ih : w.Ahead s.openGroup.ahead → w.Ahead t.ahead ∨ w.Between t.ahead) :
    (s.ahead = w.inner ++ w.stop :: w.line :: w.arrow :: w.rest ∧
      u.ahead = w.line :: w.arrow :: w.rest) ∨ w.Ahead u.ahead := by
  rcases h.cases with ⟨_, hs⟩ | hs
  · exact .inl ⟨hs, (closes_start hs hitems hstop).2⟩
  · rw [← State.ahead_openGroup] at hs
    exact .inr (ahead_of_closes (ih hs) hstop (.inl rfl))

/-- The group between the parentheses is no name. -/
theorem parameters?_of_group {item : Tree}
    (hs : s.ahead = w.inner ++ w.stop :: w.line :: w.arrow :: w.rest)
    (hitem : Run (Program.setup source settings) (.items .closeParen) s.openGroup [item] t)
    (hstop : t.Closes .closeParen stop u) : Reader.parameters? item = none := by
  obtain ⟨hinner, _⟩ := closes_start hs hitem hstop
  cases hnames : Reader.parameters? item with
  | none => rfl
  | some names =>
    exfalso
    cases item <;> simp only [Reader.parameters?, reduceCtorEq] at hnames
    case identifier span name =>
      obtain ⟨cs, ⟨ks, hp, rfl⟩, hyield⟩ := hitem.carries trivial
      obtain rfl := hp.unique hinner
      apply w.names
      rw [countP_identifier source, ← List.nil_append (contents source w.inner)]
      exact (congrArg (List.countP Content.IsName) hyield).symm
    case parameters span names' =>
      have harrow := hitem.awaits _ List.mem_cons_self ⟨span, names', rfl⟩
      cases State.kind_eq_of_isNext harrow hstop.isNext

end Strand

namespace Run

variable {s t : State}

/-- What a run can do to a strand: it stays ahead, or the run stops at its arrow with a tree that the arrow
cannot take. -/
def Stuck (w : Strand) (s : State) (out : List Tree) (t : State) : Task → Prop
  | .expression _ | .climb _ => w.Ahead s.ahead →
    w.Ahead t.ahead ∨ w.Between t.ahead ∧ ∀ n ∈ out, Reader.parameters? n = none
  | .extension _ left => w.Ahead s.ahead ∨ w.Between s.ahead ∧ Reader.parameters? left = none →
    w.Ahead t.ahead ∨ w.Between t.ahead ∧ ∀ n ∈ out, Reader.parameters? n = none
  | .start _ token | .continuation _ _ token => w.Ahead (token :: s.ahead) →
    w.Ahead t.ahead ∨ w.Between t.ahead ∧ ∀ n ∈ out, Reader.parameters? n = none
  | .items _ | .body => w.Ahead s.ahead → w.Ahead t.ahead ∨ w.Between t.ahead
  | .statements _ => w.Ahead s.ahead ∨ w.Between s.ahead → w.Ahead t.ahead ∨ w.Between t.ahead

variable {w : Strand} {source : String} {settings : Settings}

/-- A tree that is no parameter list does not get past the arrow. -/
theorem stuck_of_parameters? {n : Tree} (hn : Reader.parameters? n = none)
    (h : w.Ahead t.ahead ∨ w.Between t.ahead) :
    w.Ahead t.ahead ∨ w.Between t.ahead ∧ ∀ m ∈ [n], Reader.parameters? m = none := by
  refine h.imp_right fun hb => ⟨hb, fun m hm => ?_⟩
  rw [List.mem_singleton.1 hm, hn]

/-- Nothing but an arrow goes on with an expression where the arrow is next. -/
theorem not_continuation {token : Token} {rule : InfixRule} {left : Tree} {out : List Tree}
    {u v : State} (h : w.Between s.ahead) (hleft : Reader.parameters? left = none)
    (htoken : s.skipGroupedLineBreaks.Takes token t)
    (hrule : (Program.setup source settings).grammar.infixRule? token.kind = some rule) :
    ¬Run (Program.setup source settings) (.continuation rule left token) u out v := by
  intro hrun
  rw [Program.setup_infixRule?] at hrule
  rcases h.skipGroupedLineBreaks_isNext htoken.isNext with hk | hk
  · rw [hk] at hrule
    cases hrule
  · rw [hk] at hrule
    cases hrule
    cases hrun with
    | function hnames _ =>
      rw [hleft] at hnames
      cases hnames

theorem stuck (w : Strand) {task : Task} {out : List Tree}
    (h : Run (Program.setup source settings) task s out t) (hf : Program.Fits task) :
    Stuck w s out t task := by
  induction h with
  | nested _ _ ih => exact ih trivial
  | first htoken hrule _ _ ih ih' =>
    intro hs
    apply ih' trivial
    exact (ih (Program.fits_start hrule) (hs.skipGroupedLineBreaks.takes htoken)).imp_right
      fun ⟨hu, hleft⟩ => ⟨hu, hleft _ List.mem_cons_self⟩
  | stop _ =>
    rintro (hs | ⟨hs, hleft⟩)
    · exact .inl hs
    · exact stuck_of_parameters? hleft (.inr hs)
  | next htight htoken hrule hcontinuation _ ih ih' =>
    rintro (hs | ⟨hs, hleft⟩)
    · apply ih' trivial
      exact (ih (Program.fits_continuation hrule) (hs.skipGroupedLineBreaks.takes htoken)).imp_right
        fun ⟨hu, hlonger⟩ => ⟨hu, hlonger _ List.mem_cons_self⟩
    · exact absurd hcontinuation (not_continuation hs hleft htoken hrule)
  | identifier | number _ | string _ =>
    intro hs
    have hk := Program.kind_of_prefixRule hf
    exact .inl (hs.tail (by rw [hk]; decide))
  | boolean =>
    intro hs
    refine .inl (hs.tail ?_)
    rcases Program.kind_of_prefixRule hf with hk | hk <;> rw [hk] <;> decide
  | unary hoperator _ ih =>
    intro hs
    have hs' := hs.tail fun hk => by rw [hk] at hoperator; cases hoperator
    exact stuck_of_parameters? rfl ((ih trivial hs').imp_right And.left)
  | parameters hitems hstop harrow _ ih =>
    intro hs
    rcases hs.group hitems hstop (ih trivial) with ⟨_, hu⟩ | hu
    · obtain ⟨token, htoken, hk⟩ := State.isNext_iff.1 harrow
      rw [State.current?, hu] at htoken
      obtain rfl := Option.some.inj htoken
      rw [w.line_kind] at hk
      cases hk
    · exact .inl hu
  | grouping hitem hstop _ ih =>
    intro hs
    rcases hs.group hitem hstop (ih trivial) with ⟨hs', hu⟩ | hu
    · refine stuck_of_parameters? ?_ (.inr (.inl hu))
      rw [Tree.parameters?_withSpan]
      exact Strand.parameters?_of_group hs' hitem hstop
    · exact .inl hu
  | list _ hstop ih =>
    intro hs
    have hk := Program.kind_of_prefixRule hf
    have hs' := hs.tail (by rw [hk]; decide)
    rw [← State.ahead_openGroup] at hs'
    exact .inl (Strand.ahead_of_closes (ih trivial hs') hstop (.inr rfl))
  | binary hoperator _ ih =>
    intro hs
    have hs' := hs.tail fun hk => by rw [hk] at hoperator; cases hoperator
    exact stuck_of_parameters? rfl ((ih trivial hs').imp_right And.left)
  | assignment _ _ ih =>
    intro hs
    have hk := Program.kind_of_infixRule hf
    exact stuck_of_parameters? rfl ((ih trivial (hs.tail (by rw [hk]; decide))).imp_right And.left)
  | conditional _ ih | function _ _ ih =>
    intro hs
    have hk := Program.kind_of_infixRule hf
    exact stuck_of_parameters? rfl (ih trivial (hs.tail (by rw [hk]; decide)))
  | call hitems hstop ih =>
    intro hs
    rcases hs.group hitems hstop (ih trivial) with ⟨_, hu⟩ | hu
    · exact stuck_of_parameters? rfl (.inr (.inl hu))
    · exact .inl hu
  | index _ hstop ih =>
    intro hs
    have hk := Program.kind_of_infixRule hf
    have hs' := hs.tail (by rw [hk]; decide)
    rw [← State.ahead_openGroup] at hs'
    refine .inl (Strand.ahead_of_closes ?_ hstop (.inr rfl))
    exact (ih trivial hs').imp Strand.Ahead.skipLineBreaks fun h => .inr h.1.skipLineBreaks
  | noItems _ => exact fun hs => .inl hs.skipLineBreaks
  | lastItem _ _ _ ih =>
    intro hs
    exact (ih trivial hs.skipLineBreaks).imp Strand.Ahead.skipLineBreaks
      fun h => .inr h.1.skipLineBreaks
  | item _ _ hcomma hkind _ ih ih' =>
    intro hs
    apply ih' trivial
    rcases ih trivial hs.skipLineBreaks with ht | ⟨ht, _⟩
    · exact (ht.skipLineBreaks.takes hcomma).tail (by rw [hkind]; decide)
    · rcases ht.skipLineBreaks_isNext hcomma.isNext with hk | hk <;> rw [hkind] at hk <;> cases hk
  | noTokens _ | outdent _ _ =>
    rintro (hs | hs)
    · exact .inl hs.skipLineBreaks
    · exact .inr (.inr hs.skipLineBreaks)
  | statement _ _ htree hline _ ih ih' =>
    rintro (hs | hs)
    · apply ih' trivial
      exact (ih trivial hs.skipLineBreaks).imp (·.endsLine hline) (·.1.endsLine hline)
    · exact absurd htree (Strand.Between.not_expression (.inr hs.skipLineBreaks))
  | inlineBody _ _ ih => exact fun hs => (ih trivial hs).imp_right And.left
  | indentedBody _ _ _ _ hclose ih =>
    intro hs
    rw [State.ahead_of_closeBlock? hclose]
    exact ih trivial (.inl hs.skipLineBreaks)

/-- No program is read through a strand. -/
theorem not_stranded (w : Strand) {trees : List Tree}
    (h : Run (Program.setup source settings) (.statements 0) s trees t) : ¬w.Ahead s.ahead := by
  intro hs
  have hend := h.ahead_of_statements rfl
  rcases h.stuck w trivial (.inl hs) with ht | ht | ht
  · obtain ⟨before, ht⟩ := ht
    simp [hend] at ht
  · cases hend.symm.trans ht
  · cases hend.symm.trans ht

end Run

end Offside
