import Offside.Proofs.DefaultGrammar

set_option autoImplicit false

/-!
# The span of a tree

The span of a tree goes from the start of the first token it was read from to the end of the last one,
line breaks at either end apart. Trees that are read one behind the other have their tokens one behind the
other.
-/
namespace Offside

open Reading

/-- The last of the tokens that is no line break. -/
def lastOf? (ks : List Token) : Option Token := ks.reverse.find? (·.kind ≠ .newline)

/-- The span goes from the start of the first to the end of the last token that is no line break. -/
def Delimits (ks : List Token) (span : Span) : Prop :=
  ∃ first last, ks.find? (·.kind ≠ .newline) = some first ∧ lastOf? ks = some last ∧
    span = ⟨first.span.start, last.span.stop⟩

variable {js ks ls : List Token} {token last : Token} {a b : Span}

theorem lastOf?_append (js ks : List Token) : lastOf? (js ++ ks) = (lastOf? ks).or (lastOf? js) := by
  rw [lastOf?, List.reverse_append, List.find?_append]
  rfl

theorem lastOf?_of_newlines (hls : ∀ l ∈ ls, l.kind = .newline) : lastOf? ls = none :=
  List.find?_eq_none.2 fun l hl => by simpa using hls l (List.mem_reverse.1 hl)

theorem lastOf?_singleton (hkind : token.kind ≠ .newline) : lastOf? [token] = some token := by
  simp [lastOf?, hkind]

/-- Behind the last token that is no line break stand line breaks. -/
theorem exists_of_lastOf? (h : lastOf? ks = some last) :
    ∃ as bs, ks = as ++ last :: bs ∧ last.kind ≠ .newline ∧ ∀ b ∈ bs, b.kind = .newline := by
  obtain ⟨hkind, bs, as, hreverse, hbs⟩ := List.find?_eq_some_iff_append.1 h
  refine ⟨as.reverse, bs.reverse, ?_, by simpa using hkind, fun b hb => ?_⟩
  · simpa using congrArg List.reverse hreverse
  · simpa using hbs b (List.mem_reverse.1 hb)

namespace Delimits

theorem singleton (hkind : token.kind ≠ .newline) : Delimits [token] token.span :=
  ⟨token, token, by simp [hkind], lastOf?_singleton hkind, rfl⟩

/-- The span is continued up to the end of a later token; what stands before that belongs to it. -/
theorem through (h : Delimits js a) (hks : lastOf? ks = some last) (ls : List Token) :
    Delimits (js ++ (ls ++ ks)) ⟨a.start, last.span.stop⟩ := by
  obtain ⟨first, _, hfirst, _, rfl⟩ := h
  exact ⟨first, last, by rw [List.find?_append, hfirst, Option.some_or],
    by rw [lastOf?_append, lastOf?_append, hks, Option.some_or, Option.some_or], rfl⟩

theorem exists_last (h : Delimits ks a) : ∃ last, lastOf? ks = some last ∧ a.stop = last.span.stop := by
  obtain ⟨_, last, _, hlast, rfl⟩ := h
  exact ⟨last, hlast, rfl⟩

theorem append (h : Delimits js a) (h' : Delimits ks b) (ls : List Token) :
    Delimits (js ++ (ls ++ ks)) (a.through b) := by
  obtain ⟨last, hlast, hstop⟩ := h'.exists_last
  have hthrough := h.through hlast ls
  rwa [← hstop] at hthrough

/-- The span is continued up to a bracket that closes. -/
theorem closed (h : Delimits js a) (ls : List Token) (hkind : token.kind ≠ .newline) :
    Delimits (js ++ (ls ++ [token])) (a.through token.span) :=
  h.through (lastOf?_singleton hkind) ls

theorem behind_newlines (h : Delimits ks a) (hls : ∀ l ∈ ls, l.kind = .newline) :
    Delimits (ls ++ ks) a := by
  obtain ⟨first, last, hfirst, hlast, rfl⟩ := h
  have hnone : ls.find? (·.kind ≠ .newline) = none :=
    List.find?_eq_none.2 fun l hl => by simpa using hls l hl
  exact ⟨first, last, by rw [List.find?_append, hnone, Option.none_or, hfirst],
    by rw [lastOf?_append, hlast, Option.some_or], rfl⟩

theorem before_newlines (h : Delimits ks a) (hls : ∀ l ∈ ls, l.kind = .newline) :
    Delimits (ks ++ ls) a := by
  obtain ⟨first, last, hfirst, hlast, rfl⟩ := h
  exact ⟨first, last, by rw [List.find?_append, hfirst, Option.some_or],
    by rw [lastOf?_append, lastOf?_of_newlines hls, Option.none_or, hlast], rfl⟩

/-- The first token is the one at which the span starts. -/
theorem start_eq (h : Delimits (token :: ks) a) (hkind : token.kind ≠ .newline) :
    a.start = token.span.start := by
  obtain ⟨first, _, hfirst, _, rfl⟩ := h
  rw [List.find?_cons_of_pos (by simpa using hkind)] at hfirst
  obtain rfl := Option.some.inj hfirst
  rfl

theorem exists_first (h : Delimits ks a) : ∃ token ∈ ks, a.start = token.span.start := by
  obtain ⟨first, _, hfirst, _, rfl⟩ := h
  exact ⟨first, List.mem_of_find?_eq_some hfirst, rfl⟩

end Delimits

/-- The trees are read from parts of the tokens that stand one behind the other. -/
inductive Strung : List Token → List Tree → Prop
  | nil {ks : List Token} : Strung ks []
  | cons {gap js ks : List Token} {n : Tree} {ns : List Tree} (hn : Delimits js n.span)
      (hns : Strung ks ns) : Strung (gap ++ (js ++ ks)) (n :: ns)

namespace Strung

variable {n : Tree} {ns : List Tree}

theorem behind (h : Strung ks ns) (gap : List Token) : Strung (gap ++ ks) ns := by
  cases h with
  | nil => exact .nil
  | cons hn hns =>
    rw [← List.append_assoc]
    exact .cons hn hns

theorem singleton (hn : Delimits ks n.span) : Strung ks [n] := by
  have hone : Strung ([] ++ (ks ++ [])) [n] := .cons hn .nil
  simpa using hone

theorem exists_delimits (h : Strung ks ns) (hn : n ∈ ns) :
    ∃ js, js <:+: ks ∧ Delimits js n.span := by
  induction h with
  | nil => cases hn
  | @cons gap js ks m ms hm _ ih =>
    rcases List.mem_cons.1 hn with rfl | hn
    · exact ⟨js, ⟨gap, ks, List.append_assoc _ _ _⟩, hm⟩
    · obtain ⟨is, hpart, hdelimits⟩ := ih hn
      exact ⟨is, hpart.trans ⟨gap ++ js, [], by simp⟩, hdelimits⟩

end Strung

/-- The last of the trees ends with the last of the tokens that is no line break; without a tree there is
no such token. -/
def Ends (ks : List Token) (trees : List Tree) : Prop :=
  trees.getLast?.map (·.span.stop) = (lastOf? ks).map (·.span.stop)

namespace Ends

variable {n : Tree} {trees : List Tree}

theorem of_newlines (hls : ∀ l ∈ ls, l.kind = .newline) : Ends ls [] := by
  rw [Ends, lastOf?_of_newlines hls]
  rfl

theorem behind_newlines (h : Ends ks trees) (hls : ∀ l ∈ ls, l.kind = .newline) :
    Ends (ls ++ ks) trees := by
  rw [Ends, lastOf?_append, lastOf?_of_newlines hls, Option.or_none, h]

theorem cons (hn : Delimits js n.span) (h : Ends ks trees) : Ends (js ++ ks) (n :: trees) := by
  obtain ⟨last, hlast, hstop⟩ := hn.exists_last
  rw [Ends, List.getLast?_cons, lastOf?_append, hlast]
  cases htrees : trees.getLast? <;> cases hks : lastOf? ks <;> simp_all [Ends]

theorem singleton (hn : Delimits ks n.span) : Ends ks [n] := by
  obtain ⟨last, hlast, hstop⟩ := hn.exists_last
  simp [Ends, hlast, hstop]

theorem exists_last (h : Ends ks trees) (hn : n ∈ trees.getLast?) :
    ∃ last, lastOf? ks = some last ∧ n.span.stop = last.span.stop := by
  rw [Ends, Option.mem_def.1 hn, Option.map_some, eq_comm, Option.map_eq_some_iff] at h
  exact h.imp fun _ hlast => hlast.imp_right Eq.symm

/-- What ends with its last tree reaches from a span before it up to there. -/
theorem spanThrough (h : Ends ks trees) (htrees : trees ≠ []) (hstart : Delimits js a)
    (ls : List Token) : Delimits (js ++ (ls ++ ks)) (Reader.spanThrough a trees) := by
  obtain ⟨n, hn⟩ := Option.ne_none_iff_exists'.1 (mt List.getLast?_eq_none_iff.1 htrees)
  obtain ⟨last, hlast, hstop⟩ := h.exists_last hn
  have hthrough := hstart.through hlast ls
  rw [Reader.spanThrough, hn]
  rwa [← hstop] at hthrough

end Ends

theorem Reading.State.Closes.kind_ne_newline {s t : State} {close : Kind} {stop : Token}
    (h : s.Closes close stop t) (hclose : close ≠ .newline) : stop.kind ≠ .newline :=
  h.kind_eq ▸ hclose

namespace Run

variable {source : String} {settings : Settings} {task : Task} {s t : State} {out : List Tree}

/-- The spans of the trees that a task gives, where `ks` are the tokens it passes and `js` those of the
tree it was given. -/
def Spans (ks : List Token) (out : List Tree) : Task → Prop
  | .expression _ | .climb _ => ∀ n ∈ out, Delimits ks n.span
  | .extension _ left => ∀ js, Delimits js left.span → ∀ n ∈ out, Delimits (js ++ ks) n.span
  | .start _ token => ∀ n ∈ out, Delimits (token :: ks) n.span
  | .continuation _ left token =>
    ∀ js, Delimits js left.span → ∀ n ∈ out, Delimits (js ++ token :: ks) n.span
  | .items _ => Strung ks out
  | .statements _ | .body => Strung ks out ∧ Ends ks out

/-- A run passes tokens, and its trees have the spans of those they were read from. -/
theorem spans (h : Run (Program.setup source settings) task s out t) (hf : Program.Fits task) :
    ∃ ks, s.Passes ks t ∧ Spans ks out task := by
  induction h with
  | nested _ _ ih =>
    obtain ⟨ks, h, hspans⟩ := ih trivial
    exact ⟨ks, ⟨h.ahead, h.passed, h.indentation, h.groups, by simp [h.depth]⟩, hspans⟩
  | @first _ s _ _ _ token _ _ n htoken hrule _ _ ih ih' =>
    obtain ⟨ks, h, hstart⟩ := ih (Program.fits_start hrule)
    obtain ⟨ls, h', hextension⟩ := ih' trivial
    refine ⟨s.groupedLineBreaks ++ ((token :: ks) ++ ls),
      (State.passes_skipGroupedLineBreaks s).trans ((htoken.passes.trans h).trans h'),
      List.forall_mem_singleton.2 ?_⟩
    have hleft := hstart _ (List.mem_singleton_self _)
    have hn := hextension _ hleft n (List.mem_singleton_self n)
    exact hn.behind_newlines fun _ => State.kind_of_mem_groupedLineBreaks
  | stop =>
    refine ⟨[], .refl _, fun js hjs => List.forall_mem_singleton.2 ?_⟩
    rwa [List.append_nil]
  | @next _ s _ _ _ _ _ n token _ _ htoken hrule _ _ ih ih' =>
    obtain ⟨ks, h, hcontinuation⟩ := ih (Program.fits_continuation hrule)
    obtain ⟨ls, h', hextension⟩ := ih' trivial
    refine ⟨s.groupedLineBreaks ++ ((token :: ks) ++ ls),
      (State.passes_skipGroupedLineBreaks s).trans ((htoken.passes.trans h).trans h'),
      fun js hjs => List.forall_mem_singleton.2 ?_⟩
    have hpadded := hjs.before_newlines fun _ => State.kind_of_mem_groupedLineBreaks (s := s)
    have hlonger := hcontinuation _ hpadded _ (List.mem_singleton_self _)
    simpa using hextension _ hlonger n (List.mem_singleton_self n)
  | identifier | number | string | boolean =>
    exact ⟨[], .refl _,
      List.forall_mem_singleton.2 (.singleton (Program.ne_newline_of_prefixRule hf))⟩
  | unary _ _ ih =>
    obtain ⟨ks, h, hoperand⟩ := ih trivial
    have htoken := Delimits.singleton (Program.ne_newline_of_prefixRule hf)
    have hoperand := hoperand _ (List.mem_singleton_self _)
    exact ⟨ks, h, List.forall_mem_singleton.2 (htoken.append hoperand [])⟩
  | parameters _ hstop _ _ ih | list _ hstop ih =>
    obtain ⟨ks, h, _⟩ := ih trivial
    have htoken := Delimits.singleton (Program.ne_newline_of_prefixRule hf)
    exact ⟨_, hstop.passes h,
      List.forall_mem_singleton.2 (htoken.closed ks (hstop.kind_ne_newline (by decide)))⟩
  | grouping _ hstop _ ih =>
    obtain ⟨ks, h, _⟩ := ih trivial
    have htoken := Delimits.singleton (Program.ne_newline_of_prefixRule hf)
    refine ⟨_, hstop.passes h, List.forall_mem_singleton.2 ?_⟩
    rw [Tree.span_withSpan]
    exact htoken.closed ks (hstop.kind_ne_newline (by decide))
  | @binary token _ _ _ _ _ _ _ ih | @assignment token _ _ _ _ _ _ ih =>
    obtain ⟨ks, h, hoperand⟩ := ih trivial
    have hoperand := hoperand _ (List.mem_singleton_self _)
    exact ⟨ks, h, fun js hjs => List.forall_mem_singleton.2 (hjs.append hoperand [token])⟩
  | @conditional token _ _ _ _ hbody ih | @function token _ _ _ _ _ _ hbody ih =>
    obtain ⟨ks, h, _, hends⟩ := ih trivial
    exact ⟨ks, h, fun js hjs =>
      List.forall_mem_singleton.2 (hends.spanThrough hbody.body_ne_nil hjs [token])⟩
  | @call token _ _ _ _ _ _ _ hstop ih =>
    obtain ⟨ks, h, _⟩ := ih trivial
    exact ⟨_, hstop.passes h, fun js hjs => List.forall_mem_singleton.2
      (hjs.closed (token :: ks) (hstop.kind_ne_newline (by decide)))⟩
  | @index token _ _ t _ _ _ _ hstop ih =>
    obtain ⟨ks, h, _⟩ := ih trivial
    have hskip := State.passes_skipLineBreaks t
    exact ⟨_, hstop.passes (h.trans hskip), fun js hjs => List.forall_mem_singleton.2
      (hjs.closed (token :: (ks ++ _)) (hstop.kind_ne_newline (by decide)))⟩
  | noItems => exact ⟨_, State.passes_skipLineBreaks _, .nil⟩
  | noTokens | outdent =>
    exact ⟨_, State.passes_skipLineBreaks _, .nil, .of_newlines fun _ => State.kind_of_mem_takeWhile⟩
  | lastItem _ _ _ ih =>
    obtain ⟨ks, h, hitem⟩ := ih trivial
    exact ⟨_, (State.passes_skipLineBreaks _).trans (h.trans (State.passes_skipLineBreaks _)),
      .cons (hitem _ (List.mem_singleton_self _)) .nil⟩
  | item _ _ hcomma _ _ ih ih' =>
    obtain ⟨ks, h, hitem⟩ := ih trivial
    obtain ⟨ls, h', hitems⟩ := ih' trivial
    exact ⟨_, (State.passes_skipLineBreaks _).trans
      (h.trans (((State.passes_skipLineBreaks _).trans hcomma.passes).trans h')),
      .cons (hitem _ (List.mem_singleton_self _)) (hitems.behind _)⟩
  | statement _ _ _ hline _ ih ih' =>
    obtain ⟨ks, h, htree⟩ := ih trivial
    obtain ⟨ls, h', hstrung, hends⟩ := ih' trivial
    obtain ⟨ms, hms, hline⟩ := hline.passes
    have htree := htree _ (List.mem_singleton_self _)
    exact ⟨_, (State.passes_skipLineBreaks _).trans (h.trans (hline.trans h')),
      .cons htree (hstrung.behind ms), (Ends.cons htree (hends.behind_newlines hms)).behind_newlines
        fun _ => State.kind_of_mem_takeWhile⟩
  | inlineBody _ _ ih =>
    obtain ⟨ks, h, htree⟩ := ih trivial
    have htree := htree _ (List.mem_singleton_self _)
    exact ⟨ks, h, .singleton htree, .singleton htree⟩
  | indentedBody _ _ _ _ hclose ih =>
    obtain ⟨ks, h, hstrung, hends⟩ := ih trivial
    exact ⟨_, (State.passes_skipLineBreaks _).trans (State.passes_of_closeBlock? h hclose),
      hstrung.behind _, hends.behind_newlines fun _ => State.kind_of_mem_takeWhile⟩

/-- An expression has the span of the tokens it passes. -/
theorem exists_delimits {least : Int} {n : Tree}
    (h : Run (Program.setup source settings) (.expression least) s [n] t) :
    ∃ ks, s.Passes ks t ∧ Delimits ks n.span := by
  obtain ⟨ks, hpasses, hspans⟩ := h.spans trivial
  exact ⟨ks, hpasses, hspans n (List.mem_singleton_self n)⟩

end Run

end Offside
