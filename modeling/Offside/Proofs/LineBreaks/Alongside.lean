import Offside.Proofs.LineBreaks.Inserted

set_option autoImplicit false

/-!
# Reading past one more line break

A run of the tokens without the line break is followed by one of the tokens with it. The two give the same
trees but for one case: behind parentheses around one name the line break hides the arrow, so the one run
has a parameter list where the other has the name; the arrow behind them makes the same function of both.
-/
namespace Offside

open Reading

namespace Run

variable {c : Seam} {source : String} {settings : Settings} {task : Task} {s t : State}
  {out : List Tree}

/-- The tree of the run with the line break can stand for that of the run without it: they are the same, or
an arrow is next and makes the same of both. -/
def Alike (t : State) (n n' : Tree) : Prop :=
  n' = n ∨ t.inGroup ∧ t.isNext .arrow ∧ Reader.parameters? n' = Reader.parameters? n ∧
    n'.span = n.span

/-- What the run with the line break does while the other one carries out a task. -/
def Alongside (c : Seam) (setup : Setup PrefixRule InfixRule) (s : State) (out : List Tree)
    (t : State) : Task → Prop
  | .expression least => ∀ s', c.Beside s s' → s.Counts [] → ∀ n, out = [n] →
    ∃ n' t', Run setup (.expression least) s' [n'] t' ∧ c.Beside t t' ∧ Alike t n n' ∧
      (n' = n ∨ Level.function.power ≤ least)
  | .climb least => ∀ s', c.Beside s s' → s.Counts [] → ∀ n, out = [n] →
    ∃ n' t', Run setup (.climb least) s' [n'] t' ∧ c.Beside t t' ∧ Alike t n n' ∧
      (n' = n ∨ Level.function.power ≤ least)
  | .extension least left => ∀ s' left', c.Beside s s' → s.Counts [] → Alike s left left' →
    ∀ n, out = [n] → ∃ n' t', Run setup (.extension least left') s' [n'] t' ∧ c.Beside t t' ∧
      Alike t n n' ∧ (n' = n ∨ Level.function.power ≤ least)
  | .start rule token => ∀ s', c.Beside s s' → s.Counts [token] → s.passed.head? = some token →
    ∀ n, out = [n] → ∃ n' t', Run setup (.start rule token) s' [n'] t' ∧ c.Beside t t' ∧
      Alike t n n'
  | .continuation rule left token => ∀ s' left', c.Beside s s' → s.Counts [token] →
    s.passed.head? = some token →
    (left' = left ∨ token.kind = .arrow ∧ Reader.parameters? left' = Reader.parameters? left ∧
      left'.span = left.span) →
    ∀ n, out = [n] → ∃ n' t', Run setup (.continuation rule left' token) s' [n'] t' ∧
      c.Beside t t' ∧ Alike t n n'
  | .items close => ∀ s', c.Beside s s' → s.Counts [] →
    ∃ t', Run setup (.items close) s' out t' ∧ c.Beside t t' ∧ c.Clear t'
  | .statements level => ∀ s', c.Beside s s' → s.Counts [] → ¬s.inGroup →
    ∃ t', Run setup (.statements level) s' out t' ∧ c.Beside t t'
  | .body => ∀ s' k, c.Beside s s' → s.Counts [] → s.passed.head? = some k → k.kind.TakesBody →
    ∃ t', Run setup .body s' out t' ∧ c.Beside t t'

/-- An expression that an arrow inside a bracket ends reads operators that bind at least as tightly. -/
theorem function_power_le {least : Int} (hin : s.inGroup) (harrow : s.isNext .arrow)
    (hloose : s.done ∨ (Program.setup source settings).power s ≤ least) :
    Level.function.power ≤ least := by
  obtain ⟨token, htoken, hk⟩ := State.isNext_iff.1 harrow
  obtain ⟨rest, hs⟩ := State.current?_eq_some_iff.1 htoken
  rcases hloose with hdone | hpower
  · simp [State.done, hs] at hdone
  · have hpow : (Program.setup source settings).power s = Level.function.power := by
      unfold Setup.power State.power
      rw [if_pos hin, hs, List.find?_cons_of_pos (by simp [hk])]
      simp [hk]
      rfl
    rwa [hpow] at hpower

/-- One name stands in parentheses that a line break parts from their arrow without harm. -/
theorem one_name {token stop : Token} {u u' : State} {items : List Tree} {names : List String}
    (hstrands : ¬Strands c.before c.line c.after) (hk : token.kind = .openParen)
    (hpassed : s.passed.head? = some token)
    (hitems : Run (Program.setup source settings) (.items .closeParen) s.openGroup items t)
    (hstop : t.Closes .closeParen stop u) (harrow : u.isNext .arrow)
    (hnames : items.map Tree.name? = names.map some) (hu : c.Beside u u') (hc : ¬c.Clear u') :
    ∃ item name, items = [item] ∧ names = [name] ∧ item.name? = some name := by
  obtain ⟨hupassed, huahead⟩ := hu.of_not_clear hc
  obtain ⟨ks, hp, hb⟩ := hitems.balanced trivial
  obtain ⟨arrow, harrow, harrow_kind⟩ := State.isNext_iff.1 harrow
  obtain ⟨rest, hrest⟩ := State.current?_eq_some_iff.1 harrow
  obtain ⟨outer, houter⟩ := List.head?_eq_some_iff.1 hpassed
  have hone : ks.countP (·.kind = .identifier) = 1 := by
    by_contra hne
    refine hstrands ⟨⟨token, ks, stop, c.line, arrow, rest, hk, hb, hne, hstop.kind_eq, c.line_kind,
      harrow_kind⟩, outer.reverse, ?_, rfl, huahead.symm.trans hrest⟩
    have hbefore := congrArg List.reverse ((hstop.passes hp).passed.symm.trans hupassed)
    rw [List.reverse_reverse, houter] at hbefore
    rw [← hbefore]
    simp
  obtain ⟨cs, ⟨ls, hl, rfl⟩, hyield⟩ := hitems.carries trivial
  obtain rfl := hl.unique hp
  have hcontents : names.map Content.name = contents source ls := by
    rw [← Tree.yieldAll_of_names hnames]
    exact hyield
  rw [countP_identifier source, ← hcontents, List.countP_map] at hone
  have hlength : names.length = 1 := by
    rw [← hone, List.countP_eq_length.2]
    intro name _
    rfl
  obtain ⟨name, rfl⟩ := List.length_eq_one_iff.1 hlength
  cases items with
  | nil => cases hnames
  | cons item items =>
    obtain ⟨hitem, hnil⟩ := List.cons.inj hnames
    rw [List.map_eq_nil_iff.1 hnil]
    exact ⟨item, name, rfl, rfl, hitem⟩

namespace Alongside

variable {setup : Setup PrefixRule InfixRule} {s' t' u v : State} {token stop comma : Token}
  {close : Kind} {least : Int} {left longer tree n : Tree} {items : List Tree} {names : List String}

/-- An operand that takes every operator is the same in both runs. -/
theorem operand (h : Alongside c setup s [tree] t (.expression least)) (hs : c.Beside s s')
    (hcounts : s.Counts []) (hleast : least < Level.function.power) :
    ∃ t', Run setup (.expression least) s' [tree] t' ∧ c.Beside t t' := by
  obtain ⟨tree', t', hrun, ht, _, hsame⟩ := h s' hs hcounts _ rfl
  obtain rfl := hsame.resolve_right (Int.not_le.2 hleast)
  exact ⟨t', hrun, ht⟩

/-- The right operand of a sign may be a parameter list for one name, which the sign keeps apart from an
arrow. -/
theorem signed (h : Alongside c setup s [tree] t (.expression least)) (hs : c.Beside s s')
    (hcounts : s.Counts []) {f : Tree → Tree} (hspan : ∀ m m', m'.span = m.span →
      (f m').span = (f m).span) (hnone : ∀ m, Reader.parameters? (f m) = none) :
    ∃ tree' t', Run setup (.expression least) s' [tree'] t' ∧ c.Beside t t' ∧
      Alike t (f tree) (f tree') := by
  obtain ⟨tree', t', hrun, ht, halike, _⟩ := h s' hs hcounts _ rfl
  refine ⟨tree', t', hrun, ht, ?_⟩
  rcases halike with rfl | ⟨hin, harrow, _, hsame⟩
  · exact .inl rfl
  · exact .inr ⟨hin, harrow, by rw [hnone, hnone], hspan _ _ hsame⟩

/-- What stands between brackets is read up to the same closing bracket. -/
theorem bracketed (h : Alongside c setup s.openGroup items t (.items close)) (hs : c.Beside s s')
    (hcounts : s.Counts [token]) (hk : token.kind.nesting = 1) (hstop : t.Closes close stop u) :
    ∃ t' u', Run setup (.items close) s'.openGroup items t' ∧ t'.Closes close stop u' ∧
      c.Beside u u' := by
  obtain ⟨t', hitems', ht, hclear⟩ := h _ hs.openGroup (hcounts.openGroup hk)
  obtain ⟨u', hstop', hu⟩ := ht.closes hclear hstop
  exact ⟨t', u', hitems', hstop', hu⟩

theorem first {rule : PrefixRule}
    (htoken : s.skipGroupedLineBreaks.Takes token t)
    (hrule : (Program.setup source settings).grammar.prefixRule? token.kind = some rule)
    (hstart : Run (Program.setup source settings) (.start rule token) t [left] u)
    (h : Alongside c (Program.setup source settings) t [left] u (.start rule token))
    (h' : Alongside c (Program.setup source settings) u [n] v (.extension least left)) :
    Alongside c (Program.setup source settings) s [n] v (.climb least) := by
  rintro s' hs hcounts n ⟨⟩
  obtain ⟨hskip, hclear⟩ := hs.skipGroupedLineBreaks hcounts
  obtain ⟨t', htoken', ht⟩ := hskip.takes hclear htoken
  have hcounts' := hcounts.skipGroupedLineBreaks.takes htoken
  obtain ⟨left', u', hstart', hu, hleft⟩ := h t' ht hcounts' (by rw [htoken.passes.passed]; rfl) _ rfl
  obtain ⟨n', v', hextension', hv, halike⟩ :=
    h' u' left' hu (hstart.counts (Program.fits_start hrule) hcounts') hleft _ rfl
  exact ⟨n', v', .first htoken' hrule hstart' hextension', hv, halike⟩

theorem next {rule : InfixRule}
    (htight : ¬(s.done ∨ (Program.setup source settings).power s ≤ least))
    (htoken : s.skipGroupedLineBreaks.Takes token t)
    (hrule : (Program.setup source settings).grammar.infixRule? token.kind = some rule)
    (hcontinuation : Run (Program.setup source settings) (.continuation rule left token) t [longer] u)
    (h : Alongside c (Program.setup source settings) t [longer] u (.continuation rule left token))
    (h' : Alongside c (Program.setup source settings) u [n] v (.extension least longer)) :
    Alongside c (Program.setup source settings) s [n] v (.extension least left) := by
  rintro s' left' hs hcounts hleft n ⟨⟩
  obtain ⟨hskip, hclear⟩ := hs.skipGroupedLineBreaks hcounts
  obtain ⟨t', htoken', ht⟩ := hskip.takes hclear htoken
  have hcounts' := hcounts.skipGroupedLineBreaks.takes htoken
  have hleft' : left' = left ∨ token.kind = .arrow ∧
      Reader.parameters? left' = Reader.parameters? left ∧ left'.span = left.span := by
    refine hleft.imp_right fun ⟨_, harrow, hparameters⟩ => ⟨?_, hparameters⟩
    rw [State.skipGroupedLineBreaks_of_isNext harrow (by decide)] at htoken
    exact (State.kind_eq_of_isNext harrow htoken.isNext).symm
  obtain ⟨longer', u', hcontinuation', hu, hlonger⟩ :=
    h t' left' ht hcounts' (by rw [htoken.passes.passed]; rfl) hleft' _ rfl
  have hfits : Program.Fits (.continuation rule left token) := Program.fits_continuation hrule
  obtain ⟨n', v', hextension', hv, halike⟩ :=
    h' u' longer' hu (hcontinuation.counts hfits hcounts') hlonger _ rfl
  exact ⟨n', v', .next (by rw [hs.done, hs.power hcounts]; exact htight) htoken' hrule
    hcontinuation' hextension', hv, halike⟩

/-- Where the line break hides the arrow behind a parameter list, the list is read as the one name that
stands in it. -/
theorem parameters (hstrands : ¬Strands c.before c.line c.after)
    (hf : Program.Fits (.start .parenthesis token))
    (hitems : Run (Program.setup source settings) (.items .closeParen) s.openGroup items t)
    (hstop : t.Closes .closeParen stop u) (harrow : u.isNext .arrow)
    (hnames : items.map Tree.name? = names.map some)
    (h : Alongside c (Program.setup source settings) s.openGroup items t (.items .closeParen)) :
    Alongside c (Program.setup source settings) s
      [.parameters (token.span.through stop.span) names] u (.start .parenthesis token) := by
  rintro s' hs hcounts hpassed n ⟨⟩
  have hk := Program.kind_of_prefixRule hf
  obtain ⟨t', u', hitems', hstop', hu⟩ := h.bracketed hs hcounts (by rw [hk]; rfl) hstop
  by_cases hnext : u'.isNext .arrow
  · exact ⟨_, u', .parameters hitems' hstop' hnext hnames, hu, .inl rfl⟩
  · have hc : ¬c.Clear u' := fun hc => hnext (by rw [hu.isNext hc]; exact harrow)
    obtain ⟨item, name, rfl, rfl, hname⟩ :=
      one_name hstrands hk hpassed hitems hstop harrow hnames hu hc
    have hcounts' := (Run.parameters hitems hstop harrow hnames).counts hf hcounts
    refine ⟨_, u', .grouping hitems' hstop' hnext, hu, .inr ⟨?_, harrow, ?_, ?_⟩⟩
    · rw [hcounts'.inGroup, (hu.of_not_clear hc).1, nesting_reverse]
      exact c.inside
    · rw [Tree.parameters?_withSpan, Tree.parameters?_of_name? hname]
      rfl
    · rw [Tree.span_withSpan]
      rfl

theorem item (hopen : ¬s.skipLineBreaks.isNext close)
    (hitem : Run (Program.setup source settings) (.expression 0) s.skipLineBreaks [tree] t)
    (hcomma : t.skipLineBreaks.Takes comma u) (hkind : comma.kind = .comma)
    (h : Alongside c (Program.setup source settings) s.skipLineBreaks [tree] t (.expression 0))
    (h' : Alongside c (Program.setup source settings) u items v (.items close)) :
    Alongside c (Program.setup source settings) s (tree :: items) v (.items close) := by
  intro s' hs hcounts
  have hclear := Seam.Beside.clear_skipLineBreaks c s'
  obtain ⟨t', hrun, ht⟩ := h.operand hs.skipLineBreaks hcounts.skipLineBreaks (by decide)
  have hclear' := Seam.Beside.clear_skipLineBreaks c t'
  obtain ⟨u', hcomma', hu⟩ := ht.skipLineBreaks.takes hclear' hcomma
  have hcounts' := (hitem.counts trivial hcounts.skipLineBreaks).skipLineBreaks.takes hcomma
  obtain ⟨v', hitems', hv, hclear''⟩ := h' u' hu (hcounts'.flat (by rw [hkind]; rfl))
  exact ⟨v', .item (by rw [hs.skipLineBreaks.isNext hclear]; exact hopen) hrun hcomma' hkind
    hitems', hv, hclear''⟩

theorem statement {level : Nat} (htoken : s.skipLineBreaks.current? = some token)
    (hcolumn : token.column = level)
    (htree : Run (Program.setup source settings) (.expression 0) s.skipLineBreaks [tree] t)
    (hline : t.EndsLine u)
    (h : Alongside c (Program.setup source settings) s.skipLineBreaks [tree] t (.expression 0))
    (h' : Alongside c (Program.setup source settings) u items v (.statements level)) :
    Alongside c (Program.setup source settings) s (tree :: items) v (.statements level) := by
  intro s' hs hcounts hout
  have hclear := Seam.Beside.clear_skipLineBreaks c s'
  obtain ⟨t', hrun, ht⟩ := h.operand hs.skipLineBreaks hcounts.skipLineBreaks (by decide)
  have hcounts' := htree.counts trivial hcounts.skipLineBreaks
  obtain ⟨ks, hp⟩ := htree.passes
  have hout' := fun hin => hout (hp.inGroup.symm.trans hin)
  obtain ⟨u', hline', hu⟩ := ht.endsLine hcounts' hout' hline
  obtain ⟨ls, _, hl⟩ := hline.passes
  obtain ⟨v', htrees', hv⟩ :=
    h' u' hu (hcounts'.endsLine hline) fun hin => hout' (hl.inGroup.symm.trans hin)
  exact ⟨v', .statement (by rw [hs.skipLineBreaks.current? hclear]; exact htoken) hcolumn hrun
    hline' htrees', hv⟩

end Alongside

/-- Only an arrow is behind a tree that is not the same in both runs. -/
theorem same_left {left left' : Tree} {token : Token} {kind : Kind} (hk : token.kind = kind)
    (hkind : kind ≠ .arrow) (h : left' = left ∨ token.kind = .arrow ∧
      Reader.parameters? left' = Reader.parameters? left ∧ left'.span = left.span) : left' = left :=
  h.resolve_right fun ⟨harrow, _⟩ => hkind (hk.symm.trans harrow)

/-- The run with the line break goes alongside the run without it. -/
theorem alongside (h : Run (Program.setup source settings) task s out t) (hf : Program.Fits task)
    (hstrands : ¬Strands c.before c.line c.after) :
    Alongside c (Program.setup source settings) s out t task := by
  induction h with
  | nested hdepth _ ih =>
    rintro s' hs hcounts n ⟨⟩
    obtain ⟨n', t', hrun, ht, halike⟩ := ih trivial _ (hs.withDepth (· + 1)) hcounts _ rfl
    exact ⟨n', _, .nested (by rw [hs.depth]; exact hdepth) hrun, ht.withDepth (· - 1), halike⟩
  | first htoken hrule hstart _ ih ih' =>
    exact .first htoken hrule hstart (ih (Program.fits_start hrule)) (ih' trivial)
  | stop hloose =>
    rintro s' left' hs hcounts hleft n ⟨⟩
    refine ⟨left', s', .stop (by rw [hs.done, hs.power hcounts]; exact hloose), hs, hleft, ?_⟩
    exact hleft.imp_right fun ⟨hin, harrow, _⟩ => function_power_le hin harrow hloose
  | next htight htoken hrule hcontinuation _ ih ih' =>
    exact .next htight htoken hrule hcontinuation (ih (Program.fits_continuation hrule)) (ih' trivial)
  | identifier =>
    rintro s' hs _ _ n ⟨⟩
    exact ⟨_, s', .identifier, hs, .inl rfl⟩
  | number hvalue =>
    rintro s' hs _ _ n ⟨⟩
    exact ⟨_, s', .number hvalue, hs, .inl rfl⟩
  | string hinside =>
    rintro s' hs _ _ n ⟨⟩
    exact ⟨_, s', .string hinside, hs, .inl rfl⟩
  | boolean =>
    rintro s' hs _ _ n ⟨⟩
    exact ⟨_, s', .boolean, hs, .inl rfl⟩
  | unary hoperator _ ih =>
    rintro s' hs hcounts _ n ⟨⟩
    obtain ⟨operand', t', hrun, ht, halike⟩ :=
      (ih trivial).signed hs (hcounts.flat (nesting_of_unary? hoperator))
        (f := fun m => .unary (Span.through _ m.span) _ m)
        (fun _ _ hspan => congrArg (Span.through _) hspan) fun _ => rfl
    exact ⟨_, t', .unary hoperator hrun, ht, halike⟩
  | parameters hitems hstop harrow hnames ih =>
    exact .parameters hstrands hf hitems hstop harrow hnames (ih trivial)
  | grouping _ hstop harrow ih =>
    rintro s' hs hcounts _ n ⟨⟩
    obtain ⟨t', u', hitem', hstop', hu⟩ :=
      (ih trivial).bracketed hs hcounts (by rw [Program.kind_of_prefixRule hf]; rfl) hstop
    refine ⟨_, u', .grouping hitem' hstop' fun hnext => harrow ?_, hu, .inl rfl⟩
    rwa [← hu.isNext (Seam.Beside.clear_of_isNext (by decide) hnext)]
  | list _ hstop ih =>
    rintro s' hs hcounts _ n ⟨⟩
    obtain ⟨t', u', hitems', hstop', hu⟩ :=
      (ih trivial).bracketed hs hcounts (by rw [Program.kind_of_prefixRule hf]; rfl) hstop
    exact ⟨_, u', .list hitems' hstop', hu, .inl rfl⟩
  | binary hoperator _ ih =>
    rintro s' left' hs hcounts _ hleft n ⟨⟩
    obtain rfl := same_left rfl (fun hk => by rw [hk] at hoperator; cases hoperator) hleft
    obtain ⟨right', t', hrun, ht, halike⟩ :=
      (ih trivial).signed hs (hcounts.flat (nesting_of_binary? hoperator))
        (f := fun m => .binary (Span.through _ m.span) _ _ m)
        (fun _ _ hspan => congrArg (Span.through _) hspan) fun _ => rfl
    exact ⟨_, t', .binary hoperator hrun, ht, halike⟩
  | assignment htarget _ ih =>
    rintro s' left' hs hcounts _ hleft n ⟨⟩
    have hk := Program.kind_of_infixRule hf
    obtain rfl := same_left hk (by decide) hleft
    obtain ⟨t', hrun, ht⟩ := (ih trivial).operand hs (hcounts.flat (by rw [hk]; rfl))
      (by rw [Program.setup_power, hk]; decide)
    exact ⟨_, t', .assignment htarget hrun, ht, .inl rfl⟩
  | conditional _ ih =>
    rintro s' left' hs hcounts hpassed hleft n ⟨⟩
    have hk := Program.kind_of_infixRule hf
    obtain rfl := same_left hk (by decide) hleft
    obtain ⟨t', hbody', ht⟩ :=
      ih trivial s' _ hs (hcounts.flat (by rw [hk]; rfl)) hpassed (.inr hk)
    exact ⟨_, t', .conditional hbody', ht, .inl rfl⟩
  | @function _ _ _ left _ _ hnames _ ih =>
    rintro s' left' hs hcounts hpassed hleft n ⟨⟩
    have hk := Program.kind_of_infixRule hf
    obtain ⟨t', hbody', ht⟩ :=
      ih trivial s' _ hs (hcounts.flat (by rw [hk]; rfl)) hpassed (.inl hk)
    have hleft' : Reader.parameters? left' = Reader.parameters? left ∧ left'.span = left.span := by
      rcases hleft with rfl | ⟨_, hparameters⟩
      · exact ⟨rfl, rfl⟩
      · exact hparameters
    refine ⟨_, t', .function (hleft'.1.trans hnames) hbody', ht, .inl ?_⟩
    rw [hleft'.2]
  | call _ hstop ih =>
    rintro s' left' hs hcounts _ hleft n ⟨⟩
    have hk := Program.kind_of_infixRule hf
    obtain rfl := same_left hk (by decide) hleft
    obtain ⟨t', u', hitems', hstop', hu⟩ :=
      (ih trivial).bracketed hs hcounts (by rw [hk]; rfl) hstop
    exact ⟨_, u', .call hitems' hstop', hu, .inl rfl⟩
  | index _ hstop ih =>
    rintro s' left' hs hcounts _ hleft n ⟨⟩
    have hk := Program.kind_of_infixRule hf
    obtain rfl := same_left hk (by decide) hleft
    obtain ⟨t', hrun, ht⟩ :=
      (ih trivial).operand hs.openGroup (hcounts.openGroup (by rw [hk]; rfl)) (by decide)
    obtain ⟨u', hstop', hu⟩ :=
      ht.skipLineBreaks.closes (Seam.Beside.clear_skipLineBreaks c t') hstop
    exact ⟨_, u', .index hrun hstop', hu, .inl rfl⟩
  | noItems hclosed =>
    intro s' hs _
    have hclear := Seam.Beside.clear_skipLineBreaks c s'
    exact ⟨_, .noItems (by rw [hs.skipLineBreaks.isNext hclear]; exact hclosed),
      hs.skipLineBreaks, hclear⟩
  | lastItem hopen _ hlast ih =>
    intro s' hs hcounts
    have hclear := Seam.Beside.clear_skipLineBreaks c s'
    obtain ⟨t', hrun, ht⟩ := (ih trivial).operand hs.skipLineBreaks hcounts.skipLineBreaks (by decide)
    have hclear' := Seam.Beside.clear_skipLineBreaks c t'
    exact ⟨_, .lastItem (by rw [hs.skipLineBreaks.isNext hclear]; exact hopen) hrun
      (by rw [ht.skipLineBreaks.isNext hclear']; exact hlast), ht.skipLineBreaks, hclear'⟩
  | item hopen hitem hcomma hkind _ ih ih' =>
    exact .item hopen hitem hcomma hkind (ih trivial) (ih' trivial)
  | noTokens hdone =>
    intro s' hs _ _
    have hclear := Seam.Beside.clear_skipLineBreaks c s'
    exact ⟨_, .noTokens (by rw [hs.skipLineBreaks.current? hclear]; exact hdone), hs.skipLineBreaks⟩
  | outdent htoken hcolumn =>
    intro s' hs _ _
    have hclear := Seam.Beside.clear_skipLineBreaks c s'
    exact ⟨_, .outdent (by rw [hs.skipLineBreaks.current? hclear]; exact htoken) hcolumn,
      hs.skipLineBreaks⟩
  | statement htoken hcolumn htree hline _ ih ih' =>
    exact .statement htoken hcolumn htree hline (ih trivial) (ih' trivial)
  | inlineBody hinline _ ih =>
    intro s' k hs hcounts hpassed hbody
    obtain ⟨t', hrun, ht⟩ := (ih trivial).operand hs hcounts (by decide)
    exact ⟨t', .inlineBody (by rw [hs.isNext (hs.body hpassed hbody).1]; exact hinline) hrun, ht⟩
  | indentedBody hbreak _ _ _ _ _ =>
    intro s' k hs _ hpassed hbody
    exact absurd hbreak (hs.body hpassed hbody).2

end Run

end Offside
