import Offside.Proofs.Excerpt.Reading
import Offside.Proofs.Nesting

set_option autoImplicit false

/-!
# A node is what its span delimits

On one line every node of a program is what a reading of its own part of the source gives, up to where the
positions are counted from: a left operand is read before the operator behind it is, and a right operand ends
where its tokens do, however tightly it was asked to bind.
-/
namespace Offside

open Reading OneLine

/-- The tokens of the tree stand between the two states, and whatever excerpt goes on from there, it starts
with the tree. -/
structure Rereads (source : String) (settings : Settings) (s : State) (ks : List Token) (n : Tree)
    (t : State) : Prop where
  passes : s.Passes ks t
  span : Delimits ks n.span
  starts : ∀ (c : Excerpt source) (s' : State), c.Beside s s' → c.rest <:+ t.ahead → c.Ends [n] t →
    ∃ n' t', n = n'.shift c.start ∧ c.Beside t t' ∧
      Run.Starts (Program.setup c.text settings) 0 s' n' t'

/-- The tokens ahead are the rest of the line that the tokens are. -/
structure Along (tokens : List Token) (s : State) : Prop where
  line : OnLine s
  suffix : s.ahead <:+ tokens

namespace Along

variable {tokens ks : List Token} {s t : State}

theorem passes (h : Along tokens s) (hp : s.Passes ks t) : Along tokens t :=
  ⟨h.line.passes hp, (hp.ahead ▸ List.suffix_append ks t.ahead).trans h.suffix⟩

theorem openGroup (h : Along tokens s) : Along tokens s.openGroup :=
  ⟨h.line.openGroup, s.ahead_openGroup ▸ h.suffix⟩

theorem nested (h : Along tokens s) (depth : Nat) : Along tokens { s with depth := depth } :=
  ⟨h.line.nested depth, h.suffix⟩

end Along

/-- An expression is being read of the line. -/
structure Within (settings : Settings) (tokens : List Token) (s : State) : Prop extends
    Along tokens s where
  depth_pos : 1 ≤ s.depth
  depth_le : s.depth ≤ settings.maxDepth

/-- The tree is what is read of its own tokens. -/
def Standalone (source : String) (settings : Settings) (tokens : List Token) (n : Tree) : Prop :=
  ∃ s ks t, Within settings tokens s ∧ Rereads source settings s ks n t

namespace Rereads

variable {source : String} {settings : Settings} {s t u v : State} {ks : List Token} {token : Token}
  {n left longer : Tree}

theorem of_start {rule : PrefixRule} (htoken : s.Takes token t)
    (hrule : (Program.setup source settings).grammar.prefixRule? token.kind = some rule)
    (hstart : Run (Program.setup source settings) (.start rule token) t [n] u) :
    ∃ ks, Rereads source settings s ks n u := by
  have hfits : Program.Fits (.start rule token) := Program.fits_start hrule
  obtain ⟨ks, hpasses, hspans⟩ := hstart.spans hfits
  refine ⟨_, htoken.passes.trans hpasses, hspans n (List.mem_singleton_self n), fun c s' hs hrest hends => ?_⟩
  obtain ⟨token', t', htoken', hshows, ht, _⟩ := hs.takes htoken (hrest.trans hstart.suffix)
  obtain ⟨n', u', hstart', hn, hu⟩ :=
    (Excerpt.follows_of_run hstart hfits c).one (.start hshows) ht hrest hends
  refine ⟨n', u', hn, hu, fun w m hextension => .first ?_ (hshows.kind_eq ▸ hrule) hstart' hextension⟩
  rwa [hs.line'.skipGroupedLineBreaks]

/-- What a token continues is read again from the start of its left side on. -/
theorem continued {least : Int} {rule : InfixRule} (h : Rereads source settings s ks left t)
    (hleast : 0 ≤ least) (htight : ¬(t.done ∨ (Program.setup source settings).power t ≤ least))
    (htoken : t.Takes token u)
    (hrule : (Program.setup source settings).grammar.infixRule? token.kind = some rule)
    (hcontinuation : Run (Program.setup source settings) (.continuation rule left token) u [longer] v) :
    ∃ ls, Rereads source settings s ls longer v := by
  have hfits : Program.Fits (.continuation rule left token) := Program.fits_continuation hrule
  obtain ⟨ls, hpasses, hspans⟩ := hcontinuation.spans hfits
  refine ⟨_, h.passes.trans (htoken.passes.trans hpasses),
    hspans ks h.span longer (List.mem_singleton_self longer), fun c s' hs hrest hends => ?_⟩
  have hrest' := hrest.trans hcontinuation.suffix
  obtain ⟨left', t', hleft, ht, hstarts⟩ := h.starts c s' hs (hrest'.trans htoken.suffix)
    fun he => absurd he (htoken.ne_of_suffix hrest')
  obtain ⟨token', u', htoken', hshows, hu, hne⟩ := ht.takes htoken hrest'
  obtain ⟨longer', v', hcontinuation', hlonger, hv⟩ :=
    (Excerpt.follows_of_run hcontinuation hfits c).one (.continuation hleft hshows) hu hrest hends
  have htight' : ¬(t'.done ∨ (Program.setup c.text settings).power t' ≤ 0) :=
    ht.tight hne fun hloose => htight (hloose.imp_right (Int.le_trans · hleast))
  refine ⟨longer', v', hlonger, hv, fun w m hextension =>
    hstarts w m (.next htight' ?_ (hshows.kind_eq ▸ hrule) hcontinuation' hextension)⟩
  rwa [ht.line'.skipGroupedLineBreaks]

end Rereads

namespace Run

variable {source : String} {settings : Settings} {tokens : List Token} {task : Task} {s t : State}
  {out : List Tree}

/-- What a task is given: a place on the line, inside an expression if it goes on with one. -/
def Given (settings : Settings) (tokens : List Token) (s : State) : Task → Prop
  | .climb _ => Within settings tokens s
  | _ => Along tokens s

/-- What a task gives: trees whose nodes are what is read of their own tokens. A tree that is read before its
operator is has to be given with its tokens. -/
def Stand (source : String) (settings : Settings) (tokens : List Token) (s : State) (out : List Tree) :
    Task → Prop
  | .extension _ left => ∀ s₀ ks, Within settings tokens s₀ → Rereads source settings s₀ ks left s →
      (∀ c ∈ left.children, c.Everywhere (Standalone source settings tokens)) →
      ∀ n ∈ out, n.Everywhere (Standalone source settings tokens)
  | .start _ _ => ∀ n ∈ out, ∀ c ∈ n.children, c.Everywhere (Standalone source settings tokens)
  | .continuation _ left _ => left.Everywhere (Standalone source settings tokens) →
      ∀ n ∈ out, ∀ c ∈ n.children, c.Everywhere (Standalone source settings tokens)
  | _ => ∀ n ∈ out, n.Everywhere (Standalone source settings tokens)

theorem stand (h : Run (Program.setup source settings) task s out t) (htask : Excerpt.Allowed task)
    (hs : Given settings tokens s task) : Stand source settings tokens s out task := by
  -- a round of the climb hands on from where its left side can be read again, at the first token of the whole
  induction h with
  | nested hlt hclimb ih =>
    exact ih htask ⟨hs.nested _, Nat.le_add_left 1 _, hlt⟩
  | first htoken hrule hstart hextension ih ih' =>
    have hline : OnLine _ := hs.line
    rw [hline.skipGroupedLineBreaks] at htoken
    have ht := hs.toAlong.passes htoken.passes
    obtain ⟨js, hpasses⟩ := hstart.passes
    obtain ⟨ks, hreads⟩ := Rereads.of_start htoken hrule hstart
    have hchildren := ih (Program.fits_start hrule) ht _ (List.mem_singleton_self _)
    exact ih' htask (ht.passes hpasses) _ ks hs hreads hchildren
  | stop =>
    intro s₀ ks hs₀ hreads hchildren
    exact List.forall_mem_singleton.2 (.node ⟨s₀, ks, _, hs₀, hreads⟩ hchildren)
  | @next _ s _ _ _ left _ _ token rule htight htoken hrule hcontinuation hextension ih ih' =>
    intro s₀ ks hs₀ hreads hchildren
    have hline : OnLine s := hs.line
    rw [hline.skipGroupedLineBreaks] at htoken
    have ht := Along.passes hs htoken.passes
    obtain ⟨js, hpasses⟩ := hcontinuation.passes
    obtain ⟨ls, hlonger⟩ := hreads.continued htask htight htoken hrule hcontinuation
    have hfits : Program.Fits (.continuation rule left token) := Program.fits_continuation hrule
    have hchildren' := ih hfits ht (.node ⟨s₀, ks, _, hs₀, hreads⟩ hchildren) _ (List.mem_singleton_self _)
    exact ih' htask (ht.passes hpasses) s₀ ls hs₀ hlonger hchildren'
  | identifier | number | string | boolean | parameters =>
    exact List.forall_mem_singleton.2 (List.forall_mem_nil _)
  | unary _ _ ih =>
    exact List.forall_mem_singleton.2 (ih (by decide : (0 : Int) ≤ Level.unary.power) hs)
  | grouping hitem hstop _ ih =>
    refine List.forall_mem_singleton.2 ?_
    rw [Tree.children_withSpan]
    exact (ih trivial (Along.openGroup hs) _ (List.mem_singleton_self _)).children
  | list _ hstop ih =>
    exact List.forall_mem_singleton.2 (ih trivial (Along.openGroup hs))
  | binary hoperator _ ih =>
    rw [Program.setup_power] at ih
    exact fun hleft => List.forall_mem_singleton.2
      (List.forall_mem_cons.2 ⟨hleft, ih (Program.power_nonneg _) hs⟩)
  | assignment htarget _ ih =>
    rw [Program.setup_power] at ih
    exact fun hleft => List.forall_mem_singleton.2
      (List.forall_mem_cons.2 ⟨hleft, ih (Excerpt.power_pred_nonneg (Program.kind_of_infixRule htask)) hs⟩)
  | conditional _ ih =>
    exact fun hleft => List.forall_mem_singleton.2 (List.forall_mem_cons.2 ⟨hleft, ih trivial hs⟩)
  | function _ _ ih => exact fun _ => List.forall_mem_singleton.2 (ih trivial hs)
  | call _ _ ih =>
    exact fun hleft => List.forall_mem_singleton.2
      (List.forall_mem_cons.2 ⟨hleft, ih trivial (Along.openGroup hs)⟩)
  | index _ _ ih =>
    exact fun hleft => List.forall_mem_singleton.2
      (List.forall_mem_cons.2 ⟨hleft, ih (Int.le_refl 0) (Along.openGroup hs)⟩)
  | noItems | noTokens | outdent => exact List.forall_mem_nil _
  | lastItem _ _ _ ih => exact ih (Int.le_refl 0) (Along.passes hs (State.passes_skipLineBreaks _))
  | item _ hitem hcomma _ _ ih ih' =>
    obtain ⟨js, hpasses⟩ := hitem.passes
    have hs := Along.passes hs (State.passes_skipLineBreaks _)
    have ht := (hs.passes hpasses).passes (State.passes_skipLineBreaks _)
    exact List.forall_mem_cons.2
      ⟨ih (Int.le_refl 0) hs _ (List.mem_singleton_self _), ih' trivial (ht.passes hcomma.passes)⟩
  | statement _ _ htree hline _ ih ih' =>
    obtain ⟨js, hpasses⟩ := htree.passes
    obtain ⟨ls, _, hline⟩ := hline.passes
    have hs := Along.passes hs (State.passes_skipLineBreaks _)
    exact List.forall_mem_cons.2
      ⟨ih (Int.le_refl 0) hs _ (List.mem_singleton_self _), ih' trivial ((hs.passes hpasses).passes hline)⟩
  | inlineBody _ _ ih => exact ih (Int.le_refl 0) hs
  | indentedBody hbreak =>
    obtain ⟨token, hcurrent, hkind⟩ := State.isNext_iff.1 hbreak
    exact absurd hkind (hs.line.ahead token (List.mem_of_mem_head? hcurrent))

end Run

namespace Program

variable {source : String} {settings : Settings} {tokens : List Token} {n : Tree} {trees : List Tree}

/-- A node that is what is read of its own tokens is the program that its span delimits. -/
theorem ofSource_of_standalone (hline : '\n' ∉ source.toList) (htokens : Tokens.ofSource source = .ok tokens)
    (h : Standalone source settings tokens n) (hfinished : n.AllFinished) :
    ∃ m, ofSource (n.span.excerpt source) settings = .ok [m] ∧ n = m.shift n.span.start := by
  obtain ⟨s, ks, t, hs, hreads⟩ := h
  have hpart : ks <:+: tokens :=
    (hreads.passes.ahead ▸ (List.prefix_append ks t.ahead).isInfix).trans hs.suffix.isInfix
  obtain ⟨us, hus, rfl, htexts⟩ := Tokens.ofSource_of_delimits hline htokens hpart hreads.span
  let c : Excerpt source := ⟨n.span.excerpt source, n.span.start, t.ahead⟩
  let s' : State := { State.start settings.indentWidth us with depth := 1 }
  have hbreaks : ∀ u ∈ us, u.kind ≠ .newline := fun u hu => hs.line.ahead (u.shift n.span.start) (by
    rw [hreads.passes.ahead]
    exact List.mem_append_left _ (List.mem_map_of_mem hu))
  have hbeside : c.Beside s s' :=
    ⟨hreads.passes.ahead, fun u hu => ⟨rfl, htexts u hu⟩, hs.line, ⟨hbreaks, rfl⟩, List.cons_ne_nil _ _,
      hs.depth_pos⟩
  obtain ⟨m, t', hm, ht, hstarts⟩ := hreads.starts c s' hbeside (List.suffix_refl _) fun _ =>
    List.forall_mem_singleton.2 hfinished
  -- the excerpt has only the tokens of the node, so nothing is left behind it
  have ht' : t'.ahead = [] := by
    have hahead : t.ahead = t'.ahead.map (Token.shift n.span.start) ++ t.ahead := ht.ahead
    exact List.map_eq_nil_iff.1 (List.append_left_eq_self.1 hahead.symm)
  have hclimb := hstarts t' m (.stop (.inl (State.done_iff.2 ht')))
  cases us with
  | nil =>
    obtain ⟨_, hfirst, _⟩ := hreads.span.exists_start
    cases hfirst
  | cons u us =>
    have hkind : u.kind ≠ .newline := hbreaks u List.mem_cons_self
    have hstart : n.span.start = (u.shift n.span.start).span.start := hreads.span.start_eq hkind
    have hcolumn : n.span.start.column = n.span.start.column + u.column := congrArg Position.column hstart
    refine ⟨m, ?_, hm⟩
    rw [ofSource_eq_parse hus]
    exact parse_of_climb hkind (by omega) (hs.depth_pos.trans hs.depth_le) hclimb ht'

/-- On one line every node of a program is what the part of the source is read as that its span delimits,
with the positions counted from there. -/
theorem ofSource_excerpt (hline : '\n' ∉ source.toList) (h : ofSource source settings = .ok trees) :
    ∀ q ∈ Tree.preorderAll 0 trees, ∃ n, ofSource (q.2.span.excerpt source) settings = .ok [n] ∧
      q.2 = n.shift q.2.span.start := by
  obtain ⟨tokens, htokens, hparse⟩ := exists_tokens h
  obtain ⟨t, hrun⟩ := parse_eq_ok_iff.1 hparse
  have hscan := Tokens.scan_eq_ok_iff.1 htokens
  have hbreaks : ∀ k ∈ tokens, k.kind ≠ .newline := fun k hk hkind => hline (hscan.mem_of_newline hk hkind)
  have hstand := hrun.stand trivial ⟨⟨hbreaks, rfl⟩, List.suffix_refl tokens⟩
  intro q hq
  obtain ⟨n, hn, hq⟩ := Tree.mem_preorderAll.1 hq
  have hfinished : n.AllFinished := hrun.gives_finished trivial n hn
  exact ofSource_of_standalone hline htokens ((hstand n hn).preorder 0 q hq)
    (hfinished.everywhere.preorder 0 q hq)

/-- A left operand, the target of an index expression in parentheses and the body of a function stand in the
middle of their line. -/
theorem ofSource_excerpt_of_call : ∃ trees,
    '\n' ∉ "a - b - (f(x))[0] ? (y) -> -y * 2".toList ∧
    ofSource "a - b - (f(x))[0] ? (y) -> -y * 2" {} = .ok trees ∧
    trees.map Tree.render = ["(? (- (- a b) (index (call f x) 0)) (fn (y) (* (- y) 2)))"] ∧
    ∀ q ∈ Tree.preorderAll 0 trees, ∃ n,
      ofSource (q.2.span.excerpt "a - b - (f(x))[0] ? (y) -> -y * 2") {} = .ok [n] ∧
      q.2 = n.shift q.2.span.start := by
  obtain ⟨tokens, trees, htokens, hparse, htrees⟩ : ∃ tokens trees,
      Tokens.ofSource "a - b - (f(x))[0] ? (y) -> -y * 2" = .ok tokens ∧
      parse "a - b - (f(x))[0] ? (y) -> -y * 2" {} tokens = .ok trees ∧
      trees.map Tree.render = ["(? (- (- a b) (index (call f x) 0)) (fn (y) (* (- y) 2)))"] :=
    exists_of_parse (by decide +kernel)
  rw [← ofSource_eq_parse htokens] at hparse
  have hline : '\n' ∉ "a - b - (f(x))[0] ? (y) -> -y * 2".toList := by decide +kernel
  exact ⟨trees, hline, hparse, htrees, ofSource_excerpt hline hparse⟩

end Program

end Offside
