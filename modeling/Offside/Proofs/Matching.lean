import Offside.Proofs.Brackets
import Offside.Proofs.Nesting

set_option autoImplicit false

/-!
# Brackets match at every node

The brackets of a program match, and so do those within the span of every node: what a node is read from
starts with the token that brought in a rule, and ends where that rule has closed what it opened.
-/
namespace Offside

open Reading

/-- The tree has the span of the tokens, and their brackets match. -/
structure Bracketed (ks : List Token) (n : Tree) : Prop where
  span : Delimits ks n.span
  matched : Matched ks

/-- The tree is read from matching tokens among these. -/
def BracketedIn (tokens : List Token) (n : Tree) : Prop := ∃ ks, ks <:+: tokens ∧ Bracketed ks n

namespace Bracketed

variable {source : String} {settings : Settings} {s t u : State} {js ks ls : List Token} {token : Token}
  {n left : Tree}

theorem before_newlines (h : Bracketed ks n) (hls : ∀ l ∈ ls, l.kind = .newline) : Bracketed (ks ++ ls) n :=
  ⟨h.span.before_newlines hls, h.matched.append (.newlines hls)⟩

theorem of_start {rule : PrefixRule}
    (hrule : (Program.setup source settings).grammar.prefixRule? token.kind = some rule)
    (h : Run (Program.setup source settings) (.start rule token) s [n] t) :
    ∃ ks, s.Passes ks t ∧ Bracketed (token :: ks) n := by
  obtain ⟨ks, hpasses, hspan⟩ := h.spans (Program.fits_start hrule)
  obtain ⟨ls, hpasses', hmatched⟩ := h.matched (Program.fits_start hrule)
  obtain rfl := hpasses.unique hpasses'
  exact ⟨ks, hpasses, hspan n (List.mem_singleton_self n), hmatched⟩

theorem continued {rule : InfixRule} (hleft : Bracketed js left)
    (hrule : (Program.setup source settings).grammar.infixRule? token.kind = some rule)
    (h : Run (Program.setup source settings) (.continuation rule left token) s [n] t) :
    ∃ ks, s.Passes ks t ∧ Bracketed (js ++ token :: ks) n := by
  obtain ⟨ks, hpasses, hspan⟩ := h.spans (Program.fits_continuation hrule)
  obtain ⟨ls, hpasses', hmatched⟩ := h.matched (Program.fits_continuation hrule)
  obtain rfl := hpasses.unique hpasses'
  exact ⟨ks, hpasses, hspan js hleft.span n (List.mem_singleton_self n), hleft.matched.append hmatched⟩

end Bracketed

namespace Run

variable {source : String} {settings : Settings} {tokens : List Token} {task : Task} {s t : State}
  {out : List Tree}

/-- Where a task gives trees: every node is read from matching tokens. A left side comes with the tokens
that stand before those ahead. -/
def Brackets (tokens : List Token) (s : State) (out : List Tree) : Task → Prop
  | .extension _ left => ∀ js, js ++ s.ahead <:+ tokens → Bracketed js left →
      (∀ c ∈ left.children, c.Everywhere (BracketedIn tokens)) →
      ∀ n ∈ out, n.Everywhere (BracketedIn tokens)
  | .start _ _ => ∀ n ∈ out, ∀ c ∈ n.children, c.Everywhere (BracketedIn tokens)
  | .continuation _ left _ => left.Everywhere (BracketedIn tokens) →
      ∀ n ∈ out, ∀ c ∈ n.children, c.Everywhere (BracketedIn tokens)
  | _ => ∀ n ∈ out, n.Everywhere (BracketedIn tokens)

theorem brackets (h : Run (Program.setup source settings) task s out t) (hs : s.ahead <:+ tokens) :
    Brackets tokens s out task := by
  -- a round of the climb hands on the tokens of its left side, which have passed out of the state's sight
  induction h with
  | nested _ _ ih => exact ih hs
  | @first _ s _ u _ token _ left _ htoken hrule hstart _ ih ih' =>
    have hs := (State.passes_skipGroupedLineBreaks s).suffix.trans hs
    have ht := htoken.suffix.trans hs
    obtain ⟨ks, hpasses, hleft⟩ := Bracketed.of_start hrule hstart
    rw [(htoken.passes.trans hpasses).ahead] at hs
    exact ih' (hstart.suffix.trans ht) _ hs hleft (ih ht left (List.mem_singleton_self left))
  | stop =>
    intro js hjs hleft hchildren
    exact List.forall_mem_singleton.2 (.node ⟨js, (List.prefix_append js _).isInfix.trans hjs.isInfix, hleft⟩
      hchildren)
  | @next _ s _ u _ left longer _ token _ _ htoken hrule hcontinuation _ ih ih' =>
    intro js hjs hleft hchildren
    have hs := (State.passes_skipGroupedLineBreaks s).suffix.trans hs
    have ht := htoken.suffix.trans hs
    have hpart : js <:+: tokens := (List.prefix_append js _).isInfix.trans hjs.isInfix
    have hpadded := hleft.before_newlines fun _ => State.kind_of_mem_groupedLineBreaks (s := s)
    obtain ⟨ks, hpasses, hlonger⟩ := hpadded.continued hrule hcontinuation
    rw [((State.passes_skipGroupedLineBreaks s).trans (htoken.passes.trans hpasses)).ahead] at hjs
    refine ih' (hcontinuation.suffix.trans ht) _ (by simpa using hjs) hlonger ?_
    exact ih ht (.node ⟨js, hpart, hleft⟩ hchildren) longer (List.mem_singleton_self longer)
  | identifier | number | string | boolean | parameters =>
    exact List.forall_mem_singleton.2 (List.forall_mem_nil _)
  | unary _ _ ih => exact List.forall_mem_singleton.2 (ih hs)
  | grouping _ _ _ ih =>
    refine List.forall_mem_singleton.2 ?_
    rw [Tree.children_withSpan]
    exact (ih ((State.ahead_openGroup _).symm ▸ hs) _ (List.mem_singleton_self _)).children
  | list _ _ ih => exact List.forall_mem_singleton.2 (ih ((State.ahead_openGroup _).symm ▸ hs))
  | binary _ _ ih | assignment _ _ ih | conditional _ ih =>
    exact fun hleft => List.forall_mem_singleton.2 (List.forall_mem_cons.2 ⟨hleft, ih hs⟩)
  | function _ _ ih => exact fun _ => List.forall_mem_singleton.2 (ih hs)
  | call _ _ ih | index _ _ ih =>
    exact fun hleft => List.forall_mem_singleton.2
      (List.forall_mem_cons.2 ⟨hleft, ih ((State.ahead_openGroup _).symm ▸ hs)⟩)
  | noItems | noTokens | outdent => exact List.forall_mem_nil _
  | lastItem _ _ _ ih => exact ih ((State.passes_skipLineBreaks _).suffix.trans hs)
  | item _ hitem hcomma _ _ ih ih' =>
    have hs := (State.passes_skipLineBreaks _).suffix.trans hs
    have ht := (State.passes_skipLineBreaks _).suffix.trans (hitem.suffix.trans hs)
    exact List.forall_mem_cons.2 ⟨ih hs _ (List.mem_singleton_self _), ih' (hcomma.suffix.trans ht)⟩
  | statement _ _ htree hline _ ih ih' =>
    obtain ⟨_, _, hline⟩ := hline.passes
    have hs := (State.passes_skipLineBreaks _).suffix.trans hs
    exact List.forall_mem_cons.2
      ⟨ih hs _ (List.mem_singleton_self _), ih' (hline.suffix.trans (htree.suffix.trans hs))⟩
  | inlineBody _ _ ih => exact ih hs
  | indentedBody _ _ _ _ _ ih => exact ih ((State.passes_skipLineBreaks _).suffix.trans hs)

end Run

namespace Delimits

variable {as ks bs : List Token} {span : Span}

theorem not_within_of_before (h : Delimits ks span) (horder : Tokens.InOrder (as ++ ks)) :
    ∀ t ∈ as, ¬ t.span.Within span := by
  intro t ht hwithin
  obtain ⟨first, hfirst, _, hstart⟩ := h.exists_start
  have hlt := horder.start_lt_of_precedes (List.mem_append_left _ ht) (horder.precedes_of_append ht hfirst)
  rw [← hstart] at hlt
  exact Nat.not_le_of_lt hlt hwithin.1

theorem not_within_of_behind (h : Delimits ks span) (horder : Tokens.InOrder (ks ++ bs)) :
    ∀ t ∈ bs, ¬ t.span.Within span := by
  intro t ht hwithin
  obtain ⟨last, hlast, _, hstop⟩ := h.exists_stop
  have hle := (horder.precedes_of_append hlast ht).stop_le
  rw [← hstop] at hle
  have hlt := horder.start_lt t (List.mem_append_right _ ht)
  exact Nat.not_le_of_lt (Nat.lt_of_le_of_lt hle hlt) hwithin.2

/-- The brackets within a span are those of the tokens that it delimits. -/
theorem brackets_within {tokens : List Token} (h : Delimits ks span) (horder : Tokens.InOrder tokens)
    (hpart : ks <:+: tokens) : brackets (tokens.filter fun t => t.span.Within span) = brackets ks := by
  obtain ⟨as, bs, rfl⟩ := hpart
  have hbefore := h.not_within_of_before (horder.sublist (List.sublist_append_left _ _))
  rw [List.append_assoc] at horder ⊢
  have hrest := horder.sublist (List.sublist_append_right _ _)
  have hbehind := h.not_within_of_behind hrest
  have hinside : ∀ t ∈ ks, t.kind.isBracket → t.span.Within span := by
    intro t ht hbracket
    refine h.covers (hrest.sublist (List.sublist_append_left _ _)) ht fun hline => ?_
    rw [hline] at hbracket
    cases hbracket
  have has : as.filter (fun t => t.span.Within span) = [] :=
    List.filter_eq_nil_iff.2 (by simpa using hbefore)
  have hbs : bs.filter (fun t => t.span.Within span) = [] :=
    List.filter_eq_nil_iff.2 (by simpa using hbehind)
  rw [List.filter_append, List.filter_append, has, hbs, List.nil_append, List.append_nil, brackets,
    brackets, List.filter_filter]
  refine congrArg (List.map _) (List.filter_congr fun t ht => ?_)
  cases hbracket : t.kind.isBracket with
  | false => rfl
  | true => simpa using hinside t ht hbracket

end Delimits

namespace Program

variable {source : String} {settings : Settings} {tokens : List Token} {trees : List Tree}

/-- The brackets of a program match. If its tokens are those of a text, so do the brackets within the span of
every node. -/
theorem parse_brackets_match (h : parse source settings tokens = .ok trees) :
    ProperlyNested (brackets tokens) ∧
    ∀ text, Tokens.ofSource text = .ok tokens → ∀ q ∈ Tree.preorderAll 0 trees,
      ProperlyNested (brackets (tokens.filter fun t => t.span.Within q.2.span)) := by
  obtain ⟨t, hrun⟩ := parse_eq_ok_iff.1 h
  constructor
  · obtain ⟨ks, hpasses, hmatched⟩ := hrun.matched trivial
    have hahead : tokens = ks ++ t.ahead := hpasses.ahead
    rw [hrun.ahead_of_statements rfl, List.append_nil] at hahead
    exact hahead ▸ hmatched
  · intro text htext q hq
    obtain ⟨n, hn, hq⟩ := Tree.mem_preorderAll.1 hq
    obtain ⟨ks, hpart, hspan, hmatched⟩ :=
      (hrun.brackets (List.suffix_refl tokens) n hn).preorder 0 q hq
    rw [hspan.brackets_within (Tokens.inOrder_of_ofSource htext) hpart]
    exact hmatched

/-- Two blocks are closed by the parenthesis on a line of its own, and the list in the inner one stands on
two lines. -/
theorem parse_brackets_match_of_blocks : ∃ tokens trees,
    Tokens.ofSource "f((a) ->\n  b ?\n    g([a,\n 1])\n)" = .ok tokens ∧
    parse "f((a) ->\n  b ?\n    g([a,\n 1])\n)" {} tokens = .ok trees ∧
    trees.map Tree.render = ["(call f (fn (a) (? b (call g (list a 1)))))"] ∧
    ProperlyNested (brackets tokens) ∧
    ∀ text, Tokens.ofSource text = .ok tokens → ∀ q ∈ Tree.preorderAll 0 trees,
      ProperlyNested (brackets (tokens.filter fun t => t.span.Within q.2.span)) := by
  obtain ⟨tokens, trees, htokens, hparse, htrees⟩ : ∃ tokens trees,
      Tokens.ofSource "f((a) ->\n  b ?\n    g([a,\n 1])\n)" = .ok tokens ∧
      parse "f((a) ->\n  b ?\n    g([a,\n 1])\n)" {} tokens = .ok trees ∧
      trees.map Tree.render = ["(call f (fn (a) (? b (call g (list a 1)))))"] :=
    exists_of_parse (by decide +kernel)
  exact ⟨tokens, trees, htokens, hparse, htrees, parse_brackets_match hparse⟩

end Program

end Offside
