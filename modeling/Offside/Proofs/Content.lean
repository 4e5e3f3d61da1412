import Offside.Proofs.DefaultGrammar

set_option autoImplicit false

/-!
# The content of a program

Brackets, commas and line breaks only shape a tree; every other token has a content that the tree keeps.
A program that is read takes all its tokens, and the contents of its trees, from left to right, are those
of the tokens.
-/
namespace Offside

open Reading

/-- What a token contributes to a tree. The text of a literal stands for its value, if it has one. -/
inductive Content
  | name (name : String)
  | number (value : Option Binary64)
  | string (value : Option String)
  | boolean (value : Bool)
  | symbol (kind : Kind)
  deriving DecidableEq

namespace Token

def content? (source : String) (t : Token) : Option Content :=
  match t.kind with
  | .newline | .comma | .openParen | .closeParen | .openBracket | .closeBracket => none
  | .identifier => some (.name (t.text source))
  | .number => some (.number (Binary64.ofText? (t.text source)))
  | .string => some (.string ((Reader.unquoted? (t.text source).toList).map fun cs =>
      Text.unescape (String.ofList cs)))
  | .trueWord => some (.boolean true)
  | .falseWord => some (.boolean false)
  | kind => some (.symbol kind)

end Token

/-- The kind of token that an operator is written as. -/
def Operator.kind : Operator → Kind
  | .add => .plus
  | .subtract => .dash
  | .multiply => .star
  | .divide => .slash
  | .modulo => .percent
  | .equal => .equals
  | .notEqual => .notEquals
  | .less => .less
  | .lessEqual => .lessEquals
  | .greater => .greater
  | .greaterEqual => .greaterEquals
  | .negate => .dash
  | .not => .not

namespace Tree

mutual

/-- The contents of a tree from left to right. -/
def yield : Tree → List Content
  | .identifier _ name => [.name name]
  | .number _ value => [.number (some value)]
  | .string _ value => [.string (some value)]
  | .boolean _ value => [.boolean value]
  | .parameters _ names => names.map .name
  | .function _ params body => params.map .name ++ .symbol .arrow :: yieldAll body
  | .call _ callee arguments => yield callee ++ yieldAll arguments
  | .list _ items => yieldAll items
  | .index _ target item => yield target ++ yield item
  | .binary _ operator left right => yield left ++ .symbol operator.kind :: yield right
  | .unary _ operator operand => .symbol operator.kind :: yield operand
  | .assign _ target value => yield target ++ .symbol .assignment :: yield value
  | .conditional _ condition body => yield condition ++ .symbol .question :: yieldAll body

def yieldAll : List Tree → List Content
  | [] => []
  | t :: ts => yield t ++ yieldAll ts

end

theorem yieldAll_eq_flatMap (ts : List Tree) : yieldAll ts = ts.flatMap yield := by
  induction ts with
  | nil => rfl
  | cons t ts ih => rw [yieldAll, ih, List.flatMap_cons]

theorem yieldAll_singleton (t : Tree) : yieldAll [t] = yield t := by simp [yieldAll]

theorem yield_withSpan (span : Span) (t : Tree) : (t.withSpan span).yield = t.yield := by
  cases t <;> simp only [withSpan, yield]

theorem yield_of_name? {t : Tree} {name : String} (h : t.name? = some name) :
    t.yield = [.name name] := by
  cases t <;> simp_all [name?, yield]

theorem yieldAll_of_names {ts : List Tree} {names : List String}
    (h : ts.map name? = names.map some) : yieldAll ts = names.map .name := by
  induction ts generalizing names with
  | nil => cases names <;> simp_all [yieldAll]
  | cons t ts ih =>
    cases names with
    | nil => simp at h
    | cons name names =>
      simp only [List.map_cons, List.cons.injEq] at h
      rw [yieldAll, yield_of_name? h.1, ih h.2, List.map_cons, List.singleton_append]

theorem yield_of_parameters? {t : Tree} {names : List String}
    (h : Reader.parameters? t = some names) : t.yield = names.map .name := by
  cases t <;> simp_all [Reader.parameters?, yield]
  subst h
  rfl

end Tree

theorem Operator.kind_of_binary? {kind : Kind} {operator : Operator}
    (h : Operator.binary? kind = some operator) : operator.kind = kind := by
  cases kind <;> cases h <;> rfl

theorem Operator.kind_of_unary? {kind : Kind} {operator : Operator}
    (h : Operator.unary? kind = some operator) : operator.kind = kind := by
  cases kind <;> cases h <;> rfl

namespace Token

variable {source : String} {t : Token} {operator : Operator}

theorem content?_of_binary? (h : Operator.binary? t.kind = some operator) :
    t.content? source = some (.symbol t.kind) := by
  unfold content?
  revert h
  cases t.kind <;> simp [Operator.binary?]

theorem content?_of_unary? (h : Operator.unary? t.kind = some operator) :
    t.content? source = some (.symbol t.kind) := by
  unfold content?
  revert h
  cases t.kind <;> simp [Operator.unary?]

end Token

/-- The contents of a run of tokens. -/
def contents (source : String) (ts : List Token) : List Content :=
  ts.filterMap (Token.content? source)

theorem contents_of_newline {source : String} {ts : List Token}
    (h : ∀ t ∈ ts, t.kind = .newline) : contents source ts = [] := by
  apply List.filterMap_eq_nil_iff.2
  intro t ht
  simp [Token.content?, h t ht]

namespace Reading.State

variable {source : String} {s t u : State} {cs ds : List Content} {token stop : Token}

/-- From `s` to `t` tokens with the given contents are passed, and nothing else changes. -/
def Carries (source : String) (s : State) (cs : List Content) (t : State) : Prop :=
  ∃ ks, s.Passes ks t ∧ contents source ks = cs

namespace Carries

theorem refl (s : State) : s.Carries source [] s := ⟨[], .refl s, rfl⟩

theorem trans (h : s.Carries source cs t) (h' : t.Carries source ds u) :
    s.Carries source (cs ++ ds) u := by
  obtain ⟨ks, hk, rfl⟩ := h
  obtain ⟨ls, hl, rfl⟩ := h'
  exact ⟨_, hk.trans hl, List.filterMap_append⟩

theorem skipLineBreaks (h : s.Carries source cs t) : s.Carries source cs t.skipLineBreaks := by
  obtain ⟨ks, hk, rfl⟩ := h
  refine ⟨_, hk.trans (passes_skipLineBreaks t), ?_⟩
  rw [contents, List.filterMap_append, ← contents, ← contents,
    contents_of_newline fun _ => kind_of_mem_takeWhile, List.append_nil]

theorem skipGroupedLineBreaks (h : s.Carries source cs t) :
    s.Carries source cs t.skipGroupedLineBreaks := by
  unfold State.skipGroupedLineBreaks
  split
  · exact h.skipLineBreaks
  · exact h

theorem takes (h : s.Carries source cs t) (ht : t.Takes token u) :
    s.Carries source (cs ++ contents source [token]) u :=
  h.trans ⟨[token], ht.passes, rfl⟩

theorem endsLine (h : s.Carries source cs t) (ht : t.EndsLine u) : s.Carries source cs u := by
  obtain ⟨ks, hn, hk⟩ := ht.passes
  simpa [contents_of_newline hn] using h.trans ⟨ks, hk, rfl⟩

theorem closes {close : Kind} (h : s.openGroup.Carries source cs t) (ht : t.Closes close stop u)
    (hc : close = .closeParen ∨ close = .closeBracket) : s.Carries source cs u := by
  obtain ⟨ks, hk, rfl⟩ := h
  refine ⟨_, ht.passes hk, ?_⟩
  obtain ⟨v, _, _, hs⟩ := ht
  have hn : stop.content? source = none := by
    rcases hc with rfl | rfl <;> simp [Token.content?, hs]
  simp [contents, hn]

theorem closeBlock (h : s.openBlock.Carries source cs t) (ht : t.closeBlock? = some u) :
    s.Carries source cs u := by
  obtain ⟨ks, hk, rfl⟩ := h
  exact ⟨ks, passes_of_closeBlock? hk ht, rfl⟩

end Carries

end Reading.State

namespace Run

variable {source : String} {settings : Settings} {task : Task} {s t : State} {out : List Tree}

/-- The contents that a task was given: those of the tree it goes on from and of the token that brought
in its rule. -/
def given (source : String) : Task → List Content
  | .extension _ left => left.yield
  | .start _ token => contents source [token]
  | .continuation _ left token => left.yield ++ contents source [token]
  | _ => []

/-- A run keeps contents: its trees have those it was given and then those of the tokens it passes. -/
theorem carries (h : Run (Program.setup source settings) task s out t)
    (hf : Program.Fits task) : ∃ cs, s.Carries source cs t ∧
      Tree.yieldAll out = given source task ++ cs := by
  induction h with
  | nested _ _ ih =>
    obtain ⟨cs, ⟨ks, h, hc⟩, hy⟩ := ih trivial
    exact ⟨cs, ⟨ks, ⟨h.ahead, h.passed, h.indentation, h.groups, by simp [h.depth]⟩, hc⟩, hy⟩
  | first htoken hrule _ _ ih ih' =>
    obtain ⟨cs, h, hy⟩ := ih (Program.fits_start hrule)
    obtain ⟨ds, h', hy'⟩ := ih' trivial
    refine ⟨_, (((State.Carries.refl _).skipGroupedLineBreaks.takes htoken).trans h).trans h', ?_⟩
    rw [Tree.yieldAll_singleton] at hy
    simp [hy', given, hy]
  | stop _ => exact ⟨[], .refl _, by simp [Tree.yieldAll_singleton, given]⟩
  | next _ htoken hrule _ _ ih ih' =>
    obtain ⟨cs, h, hy⟩ := ih (Program.fits_continuation hrule)
    obtain ⟨ds, h', hy'⟩ := ih' trivial
    refine ⟨_, (((State.Carries.refl _).skipGroupedLineBreaks.takes htoken).trans h).trans h', ?_⟩
    rw [Tree.yieldAll_singleton] at hy
    simp [hy', given, hy]
  | identifier =>
    have hk := Program.kind_of_prefixRule hf
    exact ⟨[], .refl _, by simp [Tree.yieldAll, Tree.yield, given, contents, Token.content?, hk]⟩
  | number hvalue =>
    have hk := Program.kind_of_prefixRule hf
    exact ⟨[], .refl _, by simp_all [Tree.yieldAll, Tree.yield, given, contents, Token.content?]⟩
  | string hinside =>
    have hk := Program.kind_of_prefixRule hf
    exact ⟨[], .refl _, by simp_all [Tree.yieldAll, Tree.yield, given, contents, Token.content?]⟩
  | boolean =>
    refine ⟨[], .refl _, ?_⟩
    rcases Program.kind_of_prefixRule hf with hk | hk <;>
      simp [Tree.yieldAll, Tree.yield, given, contents, Token.content?, hk]
  | unary hoperator _ ih =>
    obtain ⟨cs, h, hy⟩ := ih trivial
    refine ⟨cs, h, ?_⟩
    rw [Tree.yieldAll_singleton] at hy ⊢
    rw [Tree.yield, hy, Operator.kind_of_unary? hoperator]
    simp [given, contents, Token.content?_of_unary? hoperator]
  | parameters _ hstop _ hnames ih =>
    obtain ⟨cs, h, hy⟩ := ih trivial
    refine ⟨cs, h.closes hstop (.inl rfl), ?_⟩
    have hk := Program.kind_of_prefixRule hf
    rw [Tree.yieldAll_singleton, Tree.yield, ← Tree.yieldAll_of_names hnames, hy]
    simp [given, contents, Token.content?, hk]
  | grouping _ hstop _ ih =>
    obtain ⟨cs, h, hy⟩ := ih trivial
    refine ⟨cs, h.closes hstop (.inl rfl), ?_⟩
    have hk := Program.kind_of_prefixRule hf
    rw [Tree.yieldAll_singleton] at hy ⊢
    rw [Tree.yield_withSpan, hy]
    simp [given, contents, Token.content?, hk]
  | list _ hstop ih =>
    obtain ⟨cs, h, hy⟩ := ih trivial
    refine ⟨cs, h.closes hstop (.inr rfl), ?_⟩
    have hk := Program.kind_of_prefixRule hf
    rw [Tree.yieldAll_singleton, Tree.yield, hy]
    simp [given, contents, Token.content?, hk]
  | binary hoperator _ ih =>
    obtain ⟨cs, h, hy⟩ := ih trivial
    refine ⟨cs, h, ?_⟩
    rw [Tree.yieldAll_singleton] at hy ⊢
    rw [Tree.yield, hy, Operator.kind_of_binary? hoperator]
    simp [given, contents, Token.content?_of_binary? hoperator]
  | assignment _ _ ih =>
    obtain ⟨cs, h, hy⟩ := ih trivial
    refine ⟨cs, h, ?_⟩
    have hk := Program.kind_of_infixRule hf
    rw [Tree.yieldAll_singleton] at hy ⊢
    rw [Tree.yield, hy]
    simp [given, contents, Token.content?, hk]
  | conditional _ ih =>
    obtain ⟨cs, h, hy⟩ := ih trivial
    refine ⟨cs, h, ?_⟩
    have hk := Program.kind_of_infixRule hf
    rw [Tree.yieldAll_singleton, Tree.yield, hy]
    simp [given, contents, Token.content?, hk]
  | function hnames _ ih =>
    obtain ⟨cs, h, hy⟩ := ih trivial
    refine ⟨cs, h, ?_⟩
    have hk := Program.kind_of_infixRule hf
    rw [Tree.yieldAll_singleton, Tree.yield, hy, given, Tree.yield_of_parameters? hnames]
    simp [given, contents, Token.content?, hk]
  | call _ hstop ih =>
    obtain ⟨cs, h, hy⟩ := ih trivial
    refine ⟨cs, h.closes hstop (.inl rfl), ?_⟩
    have hk := Program.kind_of_infixRule hf
    rw [Tree.yieldAll_singleton, Tree.yield, hy]
    simp [given, contents, Token.content?, hk]
  | index _ hstop ih =>
    obtain ⟨cs, h, hy⟩ := ih trivial
    refine ⟨cs, h.skipLineBreaks.closes hstop (.inr rfl), ?_⟩
    have hk := Program.kind_of_infixRule hf
    rw [Tree.yieldAll_singleton] at hy ⊢
    rw [Tree.yield, hy]
    simp [given, contents, Token.content?, hk]
  | noItems _ | noTokens _ | outdent _ _ =>
    exact ⟨[], (State.Carries.refl _).skipLineBreaks, rfl⟩
  | lastItem _ _ _ ih =>
    obtain ⟨cs, h, hy⟩ := ih trivial
    exact ⟨_, ((State.Carries.refl _).skipLineBreaks.trans h).skipLineBreaks, hy⟩
  | item _ _ hcomma hkind _ ih ih' =>
    obtain ⟨cs, h, hy⟩ := ih trivial
    obtain ⟨ds, h', hy'⟩ := ih' trivial
    refine ⟨_, ((((State.Carries.refl _).skipLineBreaks.trans h).skipLineBreaks).takes
      hcomma).trans h', ?_⟩
    rw [Tree.yieldAll_singleton] at hy
    simp [Tree.yieldAll, hy, hy', given, contents, Token.content?, hkind]
  | statement _ _ _ hline _ ih ih' =>
    obtain ⟨cs, h, hy⟩ := ih trivial
    obtain ⟨ds, h', hy'⟩ := ih' trivial
    refine ⟨_, (((State.Carries.refl _).skipLineBreaks.trans h).endsLine hline).trans h', ?_⟩
    rw [Tree.yieldAll_singleton] at hy
    simp [Tree.yieldAll, hy, hy', given]
  | inlineBody _ _ ih => exact ih trivial
  | indentedBody _ _ _ _ hclose ih =>
    obtain ⟨cs, h, hy⟩ := ih trivial
    exact ⟨_, (State.Carries.refl _).skipLineBreaks.trans (h.closeBlock hclose), hy⟩

end Run

namespace Program

variable {source : String} {settings : Settings} {tokens : List Token} {trees : List Tree}

/-- A program that is read takes every token, and its trees have the contents of the tokens in order. -/
theorem parse_keeps_content (h : parse source settings tokens = .ok trees) :
    (∃ s, (setup source settings).program.block 0 (.start settings.indentWidth tokens) =
      .ok trees s ∧ s.done ∧ s.passed.reverse = tokens) ∧
    trees.flatMap Tree.yield = tokens.filterMap (Token.content? source) := by
  obtain ⟨t, hr⟩ := parse_eq_ok_iff.1 h
  obtain ⟨cs, ⟨ks, hk, rfl⟩, hy⟩ := hr.carries trivial
  have ha : t.ahead = [] := hr.ahead_of_statements rfl
  have hks : ks = tokens := by simpa [State.start, ha] using hk.ahead.symm
  refine ⟨⟨t, block_eq_ok_iff.2 hr, State.done_iff.2 ha, ?_⟩, ?_⟩
  · simpa [State.start, hks] using congrArg List.reverse hk.passed
  · rw [← Tree.yieldAll_eq_flatMap, hy, hks]
    rfl

/-- A conditional with a block, and a statement behind it. -/
theorem parse_keeps_content_of_block : ∃ tokens trees,
    Tokens.ofSource "a = x ?\n  -f(1)\ny" = .ok tokens ∧
    parse "a = x ?\n  -f(1)\ny" {} tokens = .ok trees ∧
    trees.flatMap Tree.yield =
      [.name "a", .symbol .assignment, .name "x", .symbol .question, .symbol .dash, .name "f",
        .number (Binary64.ofText? "1"), .name "y"] := by
  obtain ⟨tokens, trees, htokens, hparse, hcontents⟩ :
      ∃ tokens trees, Tokens.ofSource "a = x ?\n  -f(1)\ny" = .ok tokens ∧
        parse "a = x ?\n  -f(1)\ny" {} tokens = .ok trees ∧
        tokens.filterMap (Token.content? "a = x ?\n  -f(1)\ny") =
          [.name "a", .symbol .assignment, .name "x", .symbol .question, .symbol .dash, .name "f",
            .number (Binary64.ofText? "1"), .name "y"] :=
    exists_of_parse (by decide +kernel)
  exact ⟨tokens, trees, htokens, hparse, (parse_keeps_content hparse).2.trans hcontents⟩

end Program

end Offside
