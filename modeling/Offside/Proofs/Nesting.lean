import Offside.Proofs.Finished
import Offside.Proofs.Lexing.Order
import Offside.Proofs.Spans

set_option autoImplicit false

/-!
# Spans nest

A node is read from a run of tokens, and its children from parts of that run, one behind the other. So spans
start and end at tokens, the span of a child lies within that of its parent, and the spans of neighbours do
not overlap.
-/
namespace Offside

open Reading

namespace Span

/-- The first span ends where the second one starts, or before that. -/
def Before (a b : Span) : Prop := a.stop.offset ≤ b.start.offset

def Within (inner outer : Span) : Prop :=
  outer.start.offset ≤ inner.start.offset ∧ inner.stop.offset ≤ outer.stop.offset

instance (a b : Span) : Decidable (a.Before b) := inferInstanceAs (Decidable (_ ≤ _))

instance (inner outer : Span) : Decidable (inner.Within outer) := inferInstanceAs (Decidable (_ ∧ _))

end Span

theorem Tree.children_withSpan (span : Span) (n : Tree) : (n.withSpan span).children = n.children := by
  cases n <;> rfl

/-- The span of a node goes from the start of a token to the end of one, around those of its children, which
stand one behind the other. -/
structure Tree.Encloses (tokens : List Token) (n : Tree) : Prop where
  starts : ∃ t ∈ tokens, n.span.start = t.span.start
  stops : ∃ t ∈ tokens, n.span.stop = t.span.stop
  nonempty : n.span.start.offset < n.span.stop.offset
  within : ∀ c ∈ n.children, c.span.Within n.span
  ordered : n.children.Pairwise fun a b => a.span.Before b.span

/-- The tree is read from a part of the tokens, and its children from parts of that part. -/
inductive Nested : List Token → Tree → Prop
  | node {ks ls : List Token} {n : Tree} (hpart : ks <:+: ls) (hspan : Delimits ks n.span)
      (hstrung : Strung ks n.children) (hchildren : ∀ c ∈ n.children, Nested ks c) : Nested ls n

/-- The trees are read from parts of the tokens that stand one behind the other. -/
structure Parts (ks : List Token) (ns : List Tree) : Prop where
  strung : Strung ks ns
  nested : ∀ n ∈ ns, Nested ks n

/-- The tree is read from the tokens, line breaks at either end apart. -/
structure Placed (ks : List Token) (n : Tree) : Prop where
  span : Delimits ks n.span
  parts : Parts ks n.children

variable {js ks ls : List Token} {token stop : Token} {n left : Tree} {ns : List Tree}

theorem Strung.mono (h : Strung ks ns) (hpart : ks <:+: ls) : Strung ls ns := by
  obtain ⟨as, bs, rfl⟩ := hpart
  rw [List.append_assoc]
  refine .behind ?_ as
  induction h with
  | nil => exact .nil
  | cons hn _ ih =>
    rw [List.append_assoc, List.append_assoc]
    exact .cons hn ih

theorem Nested.mono (h : Nested ks n) (hpart : ks <:+: ls) : Nested ls n := by
  cases h with
  | node hks hspan hstrung hchildren => exact .node (hks.trans hpart) hspan hstrung hchildren

theorem Nested.exists_placed (h : Nested ls n) : ∃ ks, ks <:+: ls ∧ Placed ks n := by
  cases h with
  | node hpart hspan hstrung hchildren => exact ⟨_, hpart, hspan, hstrung, hchildren⟩

theorem Placed.nested (h : Placed ks n) : Nested ks n :=
  .node (List.infix_refl ks) h.span h.parts.strung h.parts.nested

namespace Parts

theorem nil : Parts ks [] := ⟨.nil, nofun⟩

theorem mono (h : Parts ks ns) (hpart : ks <:+: ls) : Parts ls ns :=
  ⟨h.strung.mono hpart, fun n hn => (h.nested n hn).mono hpart⟩

theorem behind (h : Parts ks ns) (gap : List Token) : Parts (gap ++ ks) ns :=
  h.mono (List.suffix_append gap ks).isInfix

theorem before (h : Parts ks ns) (gap : List Token) : Parts (ks ++ gap) ns :=
  h.mono (List.prefix_append ks gap).isInfix

theorem cons (hn : Placed js n) (h : Parts ks ns) : Parts (js ++ ks) (n :: ns) :=
  ⟨@Strung.cons [] js ks n ns hn.span h.strung, List.forall_mem_cons.2
    ⟨hn.nested.mono (List.prefix_append js ks).isInfix, (h.behind js).nested⟩⟩

theorem singleton (hn : Placed ks n) : Parts ks [n] :=
  ⟨.singleton hn.span, List.forall_mem_singleton.2 hn.nested⟩

end Parts

namespace Placed

theorem leaf (hkind : token.kind ≠ .newline) (hspan : n.span = token.span) (hchildren : n.children = []) :
    Placed [token] n :=
  ⟨hspan ▸ .singleton hkind, hchildren ▸ .nil⟩

theorem behind_newlines (h : Placed ks n) (hls : ∀ l ∈ ls, l.kind = .newline) : Placed (ls ++ ks) n :=
  ⟨h.span.behind_newlines hls, h.parts.behind ls⟩

theorem before_newlines (h : Placed ks n) (hls : ∀ l ∈ ls, l.kind = .newline) : Placed (ks ++ ls) n :=
  ⟨h.span.before_newlines hls, h.parts.before ls⟩

end Placed

namespace Run

variable {source : String} {settings : Settings} {task : Task} {s t : State} {out : List Tree}

/-- Where the trees are read from that a task gives: `ks` are the tokens it passes, and those of the tree
that it was given stand before them. -/
def Places (ks : List Token) (out : List Tree) : Task → Prop
  | .expression _ | .climb _ => ∀ n ∈ out, Placed ks n
  | .extension _ left => ∀ js, Placed js left → ∀ n ∈ out, Placed (js ++ ks) n
  | .start _ token => ∀ n ∈ out, Placed (token :: ks) n
  | .continuation _ left token => ∀ js, Placed js left → ∀ n ∈ out, Placed (js ++ token :: ks) n
  | .items _ | .statements _ | .body => Parts ks out

theorem places (h : Run (Program.setup source settings) task s out t) (hf : Program.Fits task) :
    ∃ ks, s.Passes ks t ∧ Places ks out task := by
  -- a left side comes with tokens of its own, which the tasks that go on with it put before theirs
  induction h with
  | nested _ _ ih =>
    obtain ⟨ks, h, hn⟩ := ih trivial
    exact ⟨ks, ⟨h.ahead, h.passed, h.indentation, h.groups, by simp [h.depth]⟩, hn⟩
  | @first _ s _ _ _ token _ _ n htoken hrule _ _ ih ih' =>
    obtain ⟨ks, h, hstart⟩ := ih (Program.fits_start hrule)
    obtain ⟨ls, h', hextension⟩ := ih' trivial
    refine ⟨s.groupedLineBreaks ++ ((token :: ks) ++ ls),
      (State.passes_skipGroupedLineBreaks s).trans ((htoken.passes.trans h).trans h'),
      List.forall_mem_singleton.2 ?_⟩
    have hleft := hstart _ (List.mem_singleton_self _)
    have hn := hextension _ hleft n (List.mem_singleton_self n)
    exact hn.behind_newlines fun _ => State.kind_of_mem_groupedLineBreaks
  | stop =>
    refine ⟨[], .refl _, fun js hjs => List.forall_mem_singleton.2 ?_⟩
    rwa [List.append_nil]
  | @next _ s _ _ _ _ _ n token _ _ htoken hrule _ _ ih ih' =>
    obtain ⟨ks, h, hcontinuation⟩ := ih (Program.fits_continuation hrule)
    obtain ⟨ls, h', hextension⟩ := ih' trivial
    refine ⟨s.groupedLineBreaks ++ ((token :: ks) ++ ls),
      (State.passes_skipGroupedLineBreaks s).trans ((htoken.passes.trans h).trans h'),
      fun js hjs => List.forall_mem_singleton.2 ?_⟩
    have hpadded := hjs.before_newlines fun _ => State.kind_of_mem_groupedLineBreaks (s := s)
    have hlonger := hcontinuation _ hpadded _ (List.mem_singleton_self _)
    simpa using hextension _ hlonger n (List.mem_singleton_self n)
  | identifier | number | string | boolean =>
    exact ⟨[], .refl _,
      List.forall_mem_singleton.2 (.leaf (Program.ne_newline_of_prefixRule hf) rfl rfl)⟩
  | @unary token _ _ _ _ _ _ ih =>
    obtain ⟨ks, h, hoperand⟩ := ih trivial
    have hspan := Delimits.singleton (Program.ne_newline_of_prefixRule hf)
    have hoperand := hoperand _ (List.mem_singleton_self _)
    exact ⟨ks, h, List.forall_mem_singleton.2
      ⟨hspan.append hoperand.span [], (Parts.singleton hoperand).behind [token]⟩⟩
  | parameters _ hstop _ _ ih =>
    obtain ⟨ks, h, _⟩ := ih trivial
    have hspan := Delimits.singleton (Program.ne_newline_of_prefixRule hf)
    exact ⟨_, hstop.passes h, List.forall_mem_singleton.2
      ⟨hspan.closed ks (hstop.kind_ne_newline (by decide)), .nil⟩⟩
  | @grouping token stop _ _ _ item _ hstop _ ih =>
    obtain ⟨ks, h, hitems⟩ := ih trivial
    have hspan := Delimits.singleton (Program.ne_newline_of_prefixRule hf)
    -- the parentheses replace the span of the item, but its children stand where they did
    obtain ⟨is, hpart, hitem⟩ := (hitems.nested item (List.mem_singleton_self item)).exists_placed
    refine ⟨_, hstop.passes h, List.forall_mem_singleton.2 ⟨?_, ?_⟩⟩
    · rw [Tree.span_withSpan]
      exact hspan.closed ks (hstop.kind_ne_newline (by decide))
    · rw [Tree.children_withSpan]
      exact ((hitem.parts.mono hpart).before [stop]).behind [token]
  | @list token stop _ _ _ _ _ hstop ih =>
    obtain ⟨ks, h, hitems⟩ := ih trivial
    have hspan := Delimits.singleton (Program.ne_newline_of_prefixRule hf)
    exact ⟨_, hstop.passes h, List.forall_mem_singleton.2
      ⟨hspan.closed ks (hstop.kind_ne_newline (by decide)), (hitems.before [stop]).behind [token]⟩⟩
  | @binary token _ _ _ _ _ _ _ ih | @assignment token _ _ _ _ _ _ ih =>
    obtain ⟨ks, h, hoperand⟩ := ih trivial
    have hoperand := hoperand _ (List.mem_singleton_self _)
    exact ⟨ks, h, fun js hjs => List.forall_mem_singleton.2 ⟨hjs.span.append hoperand.span [token],
      .cons hjs ((Parts.singleton hoperand).behind [token])⟩⟩
  | @conditional token _ _ _ _ hbody ih =>
    obtain ⟨ks, h, hparts⟩ := ih trivial
    obtain ⟨ls, h', _, hends⟩ := hbody.spans trivial
    obtain rfl := h.unique h'
    exact ⟨ks, h, fun js hjs => List.forall_mem_singleton.2
      ⟨hends.spanThrough hbody.body_ne_nil hjs.span [token], .cons hjs (hparts.behind [token])⟩⟩
  | @function token _ _ _ _ _ _ hbody ih =>
    obtain ⟨ks, h, hparts⟩ := ih trivial
    obtain ⟨ls, h', _, hends⟩ := hbody.spans trivial
    obtain rfl := h.unique h'
    exact ⟨ks, h, fun js hjs => List.forall_mem_singleton.2
      ⟨hends.spanThrough hbody.body_ne_nil hjs.span [token], (hparts.behind [token]).behind js⟩⟩
  | @call token stop _ _ _ _ _ _ hstop ih =>
    obtain ⟨ks, h, hitems⟩ := ih trivial
    exact ⟨_, hstop.passes h, fun js hjs => List.forall_mem_singleton.2
      ⟨hjs.span.closed (token :: ks) (hstop.kind_ne_newline (by decide)),
        .cons hjs ((hitems.before [stop]).behind [token])⟩⟩
  | @index token stop _ t _ _ _ _ hstop ih =>
    obtain ⟨ks, h, hitem⟩ := ih trivial
    have hskip := State.passes_skipLineBreaks t
    have hitem := Parts.singleton (hitem _ (List.mem_singleton_self _))
    exact ⟨_, hstop.passes (h.trans hskip), fun js hjs => List.forall_mem_singleton.2
      ⟨hjs.span.closed (token :: (ks ++ _)) (hstop.kind_ne_newline (by decide)),
        .cons hjs (((hitem.before _).before [stop]).behind [token])⟩⟩
  | noItems | noTokens | outdent => exact ⟨_, State.passes_skipLineBreaks _, .nil⟩
  | lastItem _ _ _ ih =>
    obtain ⟨ks, h, hitem⟩ := ih trivial
    have hitem := Parts.singleton (hitem _ (List.mem_singleton_self _))
    exact ⟨_, (State.passes_skipLineBreaks _).trans (h.trans (State.passes_skipLineBreaks _)),
      (hitem.before _).behind _⟩
  | item _ _ hcomma _ _ ih ih' =>
    obtain ⟨ks, h, hitem⟩ := ih trivial
    obtain ⟨ls, h', hitems⟩ := ih' trivial
    exact ⟨_, (State.passes_skipLineBreaks _).trans
      (h.trans (((State.passes_skipLineBreaks _).trans hcomma.passes).trans h')),
      (Parts.cons (hitem _ (List.mem_singleton_self _)) (hitems.behind _)).behind _⟩
  | statement _ _ _ hline _ ih ih' =>
    obtain ⟨ks, h, htree⟩ := ih trivial
    obtain ⟨ls, h', htrees⟩ := ih' trivial
    obtain ⟨ms, _, hline⟩ := hline.passes
    exact ⟨_, (State.passes_skipLineBreaks _).trans (h.trans (hline.trans h')),
      (Parts.cons (htree _ (List.mem_singleton_self _)) (htrees.behind ms)).behind _⟩
  | inlineBody _ _ ih =>
    obtain ⟨ks, h, htree⟩ := ih trivial
    exact ⟨ks, h, .singleton (htree _ (List.mem_singleton_self _))⟩
  | indentedBody _ _ _ _ hclose ih =>
    obtain ⟨ks, h, htrees⟩ := ih trivial
    exact ⟨_, (State.passes_skipLineBreaks _).trans (State.passes_of_closeBlock? h hclose),
      htrees.behind _⟩

end Run

theorem Tokens.InOrder.sublist (h : Tokens.InOrder ls) (hks : ks.Sublist ls) : Tokens.InOrder ks :=
  ⟨fun t ht => h.start_lt t (hks.subset ht), h.precedes.sublist hks⟩

namespace Delimits

variable {a : Span}

theorem exists_start (h : Delimits ks a) :
    ∃ t ∈ ks, t.kind ≠ .newline ∧ a.start = t.span.start := by
  obtain ⟨first, _, hfirst, _, rfl⟩ := h
  exact ⟨first, List.mem_of_find?_eq_some hfirst, by simpa using List.find?_some hfirst, rfl⟩

theorem exists_stop (h : Delimits ks a) :
    ∃ t ∈ ks, t.kind ≠ .newline ∧ a.stop = t.span.stop := by
  obtain ⟨last, hlast, hstop⟩ := h.exists_last
  obtain ⟨as, bs, rfl, hkind, _⟩ := exists_of_lastOf? hlast
  exact ⟨last, by simp, hkind, hstop⟩

theorem covers (h : Delimits ks a) (hks : Tokens.InOrder ks) (htoken : token ∈ ks)
    (hkind : token.kind ≠ .newline) : token.span.Within a := by
  obtain ⟨first, last, hfirst, hlast, rfl⟩ := h
  constructor
  · obtain ⟨_, as, bs, rfl, has⟩ := List.find?_eq_some_iff_append.1 hfirst
    rcases hks.cases htoken with ⟨hmem, _⟩ | rfl | ⟨_, hprecedes⟩
    · exact absurd (by simpa using has token hmem) hkind
    · exact Nat.le_refl _
    · exact Nat.le_of_lt (hks.start_lt_of_precedes (by simp) hprecedes)
  · obtain ⟨as, bs, rfl, _, hbs⟩ := exists_of_lastOf? hlast
    rcases hks.cases htoken with ⟨_, hprecedes⟩ | rfl | ⟨hmem, _⟩
    · exact Nat.le_of_lt (Nat.lt_of_le_of_lt hprecedes.stop_le (hks.start_lt last (by simp)))
    · exact Nat.le_refl _
    · exact absurd (hbs token hmem) hkind

theorem nonempty (h : Delimits ks a) (hks : Tokens.InOrder ks) : a.start.offset < a.stop.offset := by
  obtain ⟨t, ht, hkind, hstart⟩ := h.exists_start
  have hwithin := h.covers hks ht hkind
  have hlt := hks.start_lt t ht
  exact hstart ▸ Nat.lt_of_lt_of_le hlt hwithin.2

/-- What is read from a part of the tokens lies within what is read from all of them. -/
theorem within {b : Span} (h : Delimits ks a) (hks : Tokens.InOrder ks) (hb : Delimits js b)
    (hpart : js <:+: ks) : b.Within a := by
  obtain ⟨t, ht, hkind, hstart⟩ := hb.exists_start
  obtain ⟨u, hu, hkind', hstop⟩ := hb.exists_stop
  have hwithin := h.covers hks (hpart.subset ht) hkind
  have hwithin' := h.covers hks (hpart.subset hu) hkind'
  exact ⟨hstart ▸ hwithin.1, hstop ▸ hwithin'.2⟩

end Delimits

theorem Strung.pairwise (h : Strung ks ns) (hks : Tokens.InOrder ks) :
    ns.Pairwise fun a b => a.span.Before b.span := by
  induction h with
  | nil => exact .nil
  | @cons gap js ks n ns hn hns ih =>
    rw [← List.append_assoc] at hks
    refine .cons (fun m hm => ?_) (ih (hks.sublist (List.sublist_append_right _ _)))
    obtain ⟨last, hlast, _, hstop⟩ := hn.exists_stop
    obtain ⟨is, hpart, hm⟩ := hns.exists_delimits hm
    obtain ⟨first, hfirst, _, hstart⟩ := hm.exists_start
    have hprecedes := hks.precedes_of_append (List.mem_append_right gap hlast) (hpart.subset hfirst)
    rw [Span.Before, hstart, hstop]
    exact hprecedes.stop_le

/-- A tree encloses what it holds, at every depth. -/
theorem Nested.encloses (hls : Tokens.InOrder ls) (h : Nested ks n) (hks : ks <:+: ls) :
    n.Everywhere (Tree.Encloses ls) := by
  induction h with
  | @node js ks n hpart hspan hstrung _ ih =>
    have hjs := hpart.trans hks
    have horder := hls.sublist hjs.sublist
    refine .node ?_ fun c hc => ih c hc hjs
    obtain ⟨first, hfirst, _, hstart⟩ := hspan.exists_start
    obtain ⟨last, hlast, _, hstop⟩ := hspan.exists_stop
    refine ⟨⟨first, hjs.subset hfirst, hstart⟩, ⟨last, hjs.subset hlast, hstop⟩,
      hspan.nonempty horder, fun c hc => ?_, hstrung.pairwise horder⟩
    obtain ⟨is, his, hc⟩ := hstrung.exists_delimits hc
    exact hspan.within horder hc his

namespace Program

variable {source : String} {settings : Settings} {tokens : List Token} {trees : List Tree}

/-- Spans nest: every node goes from the start of a token to the end of a later or the same one, around its
children, which stand one behind the other, as the statements of the program do. -/
theorem parse_spans_nest (htokens : Tokens.ofSource source = .ok tokens)
    (h : parse source settings tokens = .ok trees) :
    (∀ q ∈ Tree.preorderAll 0 trees, q.2.Encloses tokens) ∧
      trees.Pairwise fun a b => a.span.Before b.span := by
  have horder := Tokens.inOrder_of_ofSource htokens
  obtain ⟨t, hrun⟩ := parse_eq_ok_iff.1 h
  obtain ⟨ks, hpasses, hparts⟩ := hrun.places trivial
  have hahead : tokens = ks ++ t.ahead := hpasses.ahead
  have hks : ks <:+: tokens := hahead ▸ (List.prefix_append ks t.ahead).isInfix
  refine ⟨fun q hq => ?_, hparts.strung.pairwise (horder.sublist hks.sublist)⟩
  obtain ⟨n, hn, hq⟩ := Tree.mem_preorderAll.1 hq
  exact ((hparts.nested n hn).encloses horder hks).preorder 0 q hq

/-- A call in parentheses is the operand of a block, and the span of the block ends with its last
statement, lines before the next one. -/
theorem parse_spans_nest_of_block : ∃ tokens trees,
    Tokens.ofSource "(f(x))[0] ?\n  g(1, -y)\n\n(n) -> n" = .ok tokens ∧
    parse "(f(x))[0] ?\n  g(1, -y)\n\n(n) -> n" {} tokens = .ok trees ∧
    trees.map Tree.render = ["(? (index (call f x) 0) (call g 1 (- y)))", "(fn (n) n)"] ∧
    (∀ q ∈ Tree.preorderAll 0 trees, q.2.Encloses tokens) ∧
      trees.Pairwise fun a b => a.span.Before b.span := by
  obtain ⟨tokens, trees, htokens, hparse, htrees⟩ : ∃ tokens trees,
      Tokens.ofSource "(f(x))[0] ?\n  g(1, -y)\n\n(n) -> n" = .ok tokens ∧
      parse "(f(x))[0] ?\n  g(1, -y)\n\n(n) -> n" {} tokens = .ok trees ∧
      trees.map Tree.render = ["(? (index (call f x) 0) (call g 1 (- y)))", "(fn (n) n)"] :=
    exists_of_parse (by decide +kernel)
  exact ⟨tokens, trees, htokens, hparse, htrees, parse_spans_nest htokens hparse⟩

end Program

end Offside
