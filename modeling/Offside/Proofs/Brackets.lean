import Offside.Proofs.DefaultGrammar

set_option autoImplicit false

/-!
# Balanced brackets

Every run closes the brackets that it opens, each by one of its own kind, and no others. As long as no block
is open, the number of open brackets that a reading keeps is the one that the tokens it has passed have left
open.
-/
namespace Offside

open Reading

/-- How a token of the kind changes the number of open brackets. -/
def Kind.nesting : Kind → Int
  | .openParen => 1
  | .openBracket => 1
  | .closeParen => -1
  | .closeBracket => -1
  | _ => 0

/-- How many more brackets the tokens open than they close. -/
def nesting : List Token → Int
  | [] => 0
  | t :: ts => t.kind.nesting + nesting ts

@[simp] theorem nesting_nil : nesting [] = 0 := rfl

@[simp] theorem nesting_cons (t : Token) (ts : List Token) :
    nesting (t :: ts) = t.kind.nesting + nesting ts := rfl

@[simp] theorem nesting_append (ts us : List Token) :
    nesting (ts ++ us) = nesting ts + nesting us := by
  induction ts with
  | nil => simp
  | cons t ts ih =>
    rw [List.cons_append, nesting_cons, nesting_cons, ih]
    omega

@[simp] theorem nesting_reverse (ts : List Token) : nesting ts.reverse = nesting ts := by
  induction ts with
  | nil => rfl
  | cons t ts ih =>
    rw [List.reverse_cons, nesting_append, ih, nesting_cons, nesting_cons, nesting_nil]
    omega

/-- The tokens close every bracket that they open, and no other. -/
structure Balanced (ts : List Token) : Prop where
  closed : nesting ts = 0
  nonneg : ∀ js ks, ts = js ++ ks → 0 ≤ nesting js

namespace Balanced

variable {ts us : List Token}

theorem nil : Balanced [] := by
  refine ⟨rfl, fun js ks h => ?_⟩
  rw [(List.append_eq_nil_iff.1 h.symm).1]
  exact Int.le_refl 0

theorem append (h : Balanced ts) (h' : Balanced us) : Balanced (ts ++ us) := by
  refine ⟨?_, fun js ks he => ?_⟩
  · rw [nesting_append, h.closed, h'.closed]
    rfl
  · rcases List.append_eq_append_iff.1 he with ⟨ls, rfl, he'⟩ | ⟨ls, he', _⟩
    · rw [nesting_append, h.closed]
      have := h'.nonneg ls ks he'
      omega
    · exact h.nonneg js ls he'

/-- Tokens that are no brackets are balanced. -/
theorem of_flat (h : ∀ t ∈ ts, t.kind.nesting = 0) : Balanced ts := by
  have hzero : ∀ us : List Token, (∀ t ∈ us, t.kind.nesting = 0) → nesting us = 0 := by
    intro us hus
    induction us with
    | nil => rfl
    | cons t us ih =>
      rw [List.forall_mem_cons] at hus
      rw [nesting_cons, hus.1, ih hus.2]
      rfl
  refine ⟨hzero ts h, fun js ks he => Int.le_of_eq (hzero js ?_).symm⟩
  rw [he] at h
  exact fun t ht => h t (List.mem_append_left _ ht)

/-- A bracket around balanced tokens. -/
theorem wrap {start stop : Token} (hstart : start.kind.nesting = 1) (h : Balanced ts)
    (hstop : stop.kind.nesting = -1) : Balanced (start :: (ts ++ [stop])) := by
  refine ⟨?_, fun js ks he => ?_⟩
  · simp only [nesting_cons, nesting_append, nesting_nil, h.closed]
    omega
  · cases js with
    | nil => exact Int.le_refl 0
    | cons j js =>
      obtain ⟨rfl, htail⟩ := List.cons.inj he
      rw [nesting_cons]
      rcases List.append_eq_append_iff.1 htail with ⟨ls, rfl, he'⟩ | ⟨ls, he', _⟩
      · rw [nesting_append, h.closed]
        cases ls with
        | nil =>
          rw [nesting_nil]
          omega
        | cons l ls =>
          obtain ⟨rfl, hnil⟩ := List.cons.inj he'
          rw [(List.append_eq_nil_iff.1 hnil.symm).1]
          simp only [nesting_cons, nesting_nil]
          omega
      · have := h.nonneg js ls he'
        omega

/-- The bracket that closes what stands before balanced tokens is found in one place only. -/
theorem eq_of_closed {a b : Token} {js ks : List Token} (h : Balanced ts) (h' : Balanced us)
    (ha : a.kind.nesting = -1) (hb : b.kind.nesting = -1) (he : ts ++ a :: js = us ++ b :: ks) :
    ts = us ∧ a = b ∧ js = ks := by
  rcases List.append_eq_append_iff.1 he with ⟨ls, hus, he'⟩ | ⟨ls, hts, he'⟩
  · cases ls with
    | nil =>
      obtain ⟨hab, hjk⟩ := List.cons.inj he'
      exact ⟨by rw [hus, List.append_nil], hab, hjk⟩
    | cons l ls =>
      obtain ⟨rfl, _⟩ := List.cons.inj he'
      have := h'.nonneg (ts ++ [a]) ls (by rw [hus, List.append_assoc]; rfl)
      simp only [nesting_append, nesting_cons, nesting_nil, h.closed] at this
      omega
  · cases ls with
    | nil =>
      obtain ⟨hab, hjk⟩ := List.cons.inj he'
      exact ⟨by rw [hts, List.append_nil], hab.symm, hjk.symm⟩
    | cons l ls =>
      obtain ⟨rfl, _⟩ := List.cons.inj he'
      have := h.nonneg (us ++ [b]) ls (by rw [hts, List.append_assoc]; rfl)
      simp only [nesting_append, nesting_cons, nesting_nil, h'.closed] at this
      omega

end Balanced

/-- The kind of the bracket that closes one of this kind. -/
def Kind.closing? : Kind → Option Kind
  | .openParen => some .closeParen
  | .openBracket => some .closeBracket
  | _ => none

def Kind.isBracket : Kind → Bool
  | .openParen | .openBracket | .closeParen | .closeBracket => true
  | _ => false

/-- The kinds of the brackets among the tokens. -/
def brackets (ts : List Token) : List Kind := (ts.filter (·.kind.isBracket)).map (·.kind)

/-- Every bracket is closed by one of its own kind, with properly nested brackets between the two. -/
inductive ProperlyNested : List Kind → Prop
  | nil : ProperlyNested []
  | pair {opening closing : Kind} {inner rest : List Kind} (hpair : opening.closing? = some closing)
      (hinner : ProperlyNested inner) (hrest : ProperlyNested rest) :
      ProperlyNested (opening :: (inner ++ closing :: rest))

theorem ProperlyNested.append {as bs : List Kind} (h : ProperlyNested as) (h' : ProperlyNested bs) :
    ProperlyNested (as ++ bs) := by
  induction h with
  | nil => exact h'
  | pair hpair hinner _ _ ih =>
    rw [List.cons_append, List.append_assoc, List.cons_append]
    exact .pair hpair hinner ih

theorem Kind.isBracket_eq_false_iff {kind : Kind} : kind.isBracket = false ↔ kind.nesting = 0 := by
  cases kind <;> decide

theorem Kind.nesting_of_closing? {opening closing : Kind} (h : opening.closing? = some closing) :
    opening.nesting = 1 ∧ closing.nesting = -1 := by
  cases opening <;> cases h <;> decide

theorem brackets_append (ts us : List Token) : brackets (ts ++ us) = brackets ts ++ brackets us := by
  simp [brackets]

theorem brackets_eq_nil_iff {ts : List Token} : brackets ts = [] ↔ ∀ t ∈ ts, t.kind.nesting = 0 := by
  simp [brackets, Kind.isBracket_eq_false_iff]

theorem brackets_singleton {t : Token} (h : t.kind.nesting ≠ 0) : brackets [t] = [t.kind] := by
  have hbracket : t.kind.isBracket = true := by
    rwa [← Bool.not_eq_false, Kind.isBracket_eq_false_iff]
  simp [brackets, hbracket]

theorem exists_of_brackets_eq_append {ts : List Token} {as bs : List Kind} (h : brackets ts = as ++ bs) :
    ∃ us vs, ts = us ++ vs ∧ brackets us = as ∧ brackets vs = bs := by
  obtain ⟨us, vs, hfilter, rfl, rfl⟩ := List.map_eq_append_iff.1 h
  obtain ⟨us, vs, rfl, rfl, rfl⟩ := List.filter_eq_append_iff.1 hfilter
  exact ⟨us, vs, rfl, rfl, rfl⟩

theorem exists_of_brackets_eq_cons {ts : List Token} {kind : Kind} {bs : List Kind}
    (h : brackets ts = kind :: bs) :
    ∃ us t vs, ts = us ++ t :: vs ∧ (∀ u ∈ us, u.kind.nesting = 0) ∧ t.kind = kind ∧ brackets vs = bs := by
  obtain ⟨t, vs, hfilter, rfl, rfl⟩ := List.map_eq_cons_iff.1 h
  obtain ⟨us, vs, rfl, hus, _, rfl⟩ := List.filter_eq_cons_iff.1 hfilter
  exact ⟨us, t, vs, rfl, fun u hu => Kind.isBracket_eq_false_iff.1 (by simpa using hus u hu), rfl, rfl⟩

theorem ProperlyNested.balanced {bs : List Kind} (h : ProperlyNested bs) {ts : List Token}
    (hts : brackets ts = bs) : Balanced ts := by
  induction h generalizing ts with
  | nil => exact .of_flat (brackets_eq_nil_iff.1 hts)
  | pair hpair _ _ ih ih' =>
    obtain ⟨us, start, vs, rfl, hus, rfl, hvs⟩ := exists_of_brackets_eq_cons hts
    obtain ⟨inner, ws, rfl, hinner, hws⟩ := exists_of_brackets_eq_append hvs
    obtain ⟨gap, stop, rest, rfl, hgap, rfl, hrest⟩ := exists_of_brackets_eq_cons hws
    obtain ⟨hstart, hstop⟩ := Kind.nesting_of_closing? hpair
    have hwrap := Balanced.wrap hstart ((ih hinner).append (.of_flat hgap)) hstop
    simpa using ((Balanced.of_flat hus).append hwrap).append (ih' hrest)

/-- The brackets among the tokens match. -/
def Matched (ts : List Token) : Prop := ProperlyNested (brackets ts)

namespace Matched

variable {ts us : List Token} {token start stop : Token}

theorem balanced (h : Matched ts) : Balanced ts := ProperlyNested.balanced h rfl

theorem of_flat (h : ∀ t ∈ ts, t.kind.nesting = 0) : Matched ts := by
  unfold Matched
  rw [brackets_eq_nil_iff.2 h]
  exact .nil

theorem nil : Matched [] := ProperlyNested.nil

theorem newlines (h : ∀ t ∈ ts, t.kind = .newline) : Matched ts :=
  of_flat fun t ht => by rw [h t ht]; rfl

theorem singleton (h : token.kind.nesting = 0) : Matched [token] :=
  of_flat fun t ht => by rw [List.mem_singleton.1 ht]; exact h

theorem append (h : Matched ts) (h' : Matched us) : Matched (ts ++ us) := by
  unfold Matched
  rw [brackets_append]
  exact ProperlyNested.append h h'

/-- A bracket of either kind around matching ones. -/
theorem wrap (h : Matched ts) (hpair : start.kind.closing? = some stop.kind) :
    Matched (start :: (ts ++ [stop])) := by
  obtain ⟨hstart, hstop⟩ := Kind.nesting_of_closing? hpair
  have hbrackets : brackets ([start] ++ (ts ++ [stop])) = start.kind :: (brackets ts ++ [stop.kind]) := by
    rw [brackets_append, brackets_append, brackets_singleton (by omega), brackets_singleton (by omega)]
    rfl
  unfold Matched
  rw [← List.singleton_append, hbrackets]
  exact .pair hpair h .nil

end Matched

theorem nesting_of_binary? {kind : Kind} {operator : Operator}
    (h : Operator.binary? kind = some operator) : kind.nesting = 0 := by
  cases kind <;> cases h <;> rfl

theorem nesting_of_unary? {kind : Kind} {operator : Operator}
    (h : Operator.unary? kind = some operator) : kind.nesting = 0 := by
  cases kind <;> cases h <;> rfl

namespace Run

variable {source : String} {settings : Settings} {task : Task} {s t : State} {out : List Tree}

/-- The token that brought in the rule of a task. -/
def taken : Task → List Token
  | .start _ token | .continuation _ _ token => [token]
  | _ => []

theorem matched_skipLineBreaks (s : State) : ∃ ks, s.Passes ks s.skipLineBreaks ∧ Matched ks :=
  ⟨_, State.passes_skipLineBreaks s, .newlines fun _ => State.kind_of_mem_takeWhile⟩

theorem matched_skipGroupedLineBreaks (s : State) :
    ∃ ks, s.Passes ks s.skipGroupedLineBreaks ∧ Matched ks :=
  ⟨_, State.passes_skipGroupedLineBreaks s, .newlines fun _ => State.kind_of_mem_groupedLineBreaks⟩

/-- A bracket that a rule opens is closed behind the matching ones between. -/
theorem matched_closes {u : State} {token stop : Token} {ks : List Token} {close : Kind}
    (hp : s.openGroup.Passes ks t) (hb : Matched ks) (hstop : t.Closes close stop u)
    (hpair : token.kind.closing? = some close) : ∃ ls, s.Passes ls u ∧ Matched ([token] ++ ls) :=
  ⟨_, hstop.passes hp, hb.wrap (hpair.trans (congrArg some hstop.kind_eq.symm))⟩

/-- A run passes tokens whose brackets match, with the token that brought in its rule. -/
theorem matched (h : Run (Program.setup source settings) task s out t) (hf : Program.Fits task) :
    ∃ ks, s.Passes ks t ∧ Matched (taken task ++ ks) := by
  induction h with
  | nested _ _ ih =>
    obtain ⟨ks, h, hb⟩ := ih trivial
    exact ⟨ks, ⟨h.ahead, h.passed, h.indentation, h.groups, by simp [h.depth]⟩, hb⟩
  | first htoken hrule _ _ ih ih' =>
    obtain ⟨js, hj, hb₁⟩ := matched_skipGroupedLineBreaks _
    obtain ⟨ks, hk, hb₂⟩ := ih (Program.fits_start hrule)
    obtain ⟨ls, hl, hb₃⟩ := ih' trivial
    refine ⟨js ++ (([_] ++ ks) ++ ls), hj.trans ((htoken.passes.trans hk).trans hl), ?_⟩
    exact hb₁.append (hb₂.append hb₃)
  | next _ htoken hrule _ _ ih ih' =>
    obtain ⟨js, hj, hb₁⟩ := matched_skipGroupedLineBreaks _
    obtain ⟨ks, hk, hb₂⟩ := ih (Program.fits_continuation hrule)
    obtain ⟨ls, hl, hb₃⟩ := ih' trivial
    refine ⟨js ++ (([_] ++ ks) ++ ls), hj.trans ((htoken.passes.trans hk).trans hl), ?_⟩
    exact hb₁.append (hb₂.append hb₃)
  | stop _ => exact ⟨[], .refl _, .nil⟩
  | identifier | number _ | string _ =>
    have hk := Program.kind_of_prefixRule hf
    exact ⟨[], .refl _, Matched.singleton (by rw [hk]; rfl)⟩
  | boolean =>
    refine ⟨[], .refl _, Matched.singleton ?_⟩
    rcases Program.kind_of_prefixRule hf with hk | hk <;> rw [hk] <;> rfl
  | unary hoperator _ ih =>
    obtain ⟨ks, h, hb⟩ := ih trivial
    exact ⟨ks, h, (Matched.singleton (nesting_of_unary? hoperator)).append hb⟩
  | parameters _ hstop _ _ ih | grouping _ hstop _ ih | list _ hstop ih =>
    obtain ⟨ks, h, hb⟩ := ih trivial
    have hk := Program.kind_of_prefixRule hf
    exact matched_closes h hb hstop (by rw [hk]; rfl)
  | binary hoperator _ ih =>
    obtain ⟨ks, h, hb⟩ := ih trivial
    exact ⟨ks, h, (Matched.singleton (nesting_of_binary? hoperator)).append hb⟩
  | assignment _ _ ih | conditional _ ih | function _ _ ih =>
    obtain ⟨ks, h, hb⟩ := ih trivial
    have hk := Program.kind_of_infixRule hf
    exact ⟨ks, h, (Matched.singleton (by rw [hk]; rfl)).append hb⟩
  | call _ hstop ih =>
    obtain ⟨ks, h, hb⟩ := ih trivial
    have hk := Program.kind_of_infixRule hf
    exact matched_closes h hb hstop (by rw [hk]; rfl)
  | index _ hstop ih =>
    obtain ⟨ks, h, hb⟩ := ih trivial
    obtain ⟨ls, h', hb'⟩ := matched_skipLineBreaks _
    have hk := Program.kind_of_infixRule hf
    exact matched_closes (h.trans h') (hb.append hb') hstop (by rw [hk]; rfl)
  | noItems _ | noTokens _ | outdent _ _ => exact matched_skipLineBreaks _
  | lastItem _ _ _ ih =>
    obtain ⟨js, hj, hb₁⟩ := matched_skipLineBreaks _
    obtain ⟨ks, hk, hb₂⟩ := ih trivial
    obtain ⟨ls, hl, hb₃⟩ := matched_skipLineBreaks _
    exact ⟨_, (hj.trans hk).trans hl, (hb₁.append hb₂).append hb₃⟩
  | item _ _ hcomma hkind _ ih ih' =>
    obtain ⟨is, hi, hb₁⟩ := matched_skipLineBreaks _
    obtain ⟨js, hj, hb₂⟩ := ih trivial
    obtain ⟨ks, hk, hb₃⟩ := matched_skipLineBreaks _
    obtain ⟨ls, hl, hb₄⟩ := ih' trivial
    have hb := Matched.singleton (show Kind.nesting _ = 0 by rw [hkind]; rfl)
    exact ⟨_, (((hi.trans hj).trans hk).trans hcomma.passes).trans hl,
      (((hb₁.append hb₂).append hb₃).append hb).append hb₄⟩
  | statement _ _ _ hline _ ih ih' =>
    obtain ⟨js, hj, hb₁⟩ := matched_skipLineBreaks _
    obtain ⟨ks, hk, hb₂⟩ := ih trivial
    obtain ⟨ls, hn, hl⟩ := hline.passes
    obtain ⟨ms, hm, hb₃⟩ := ih' trivial
    exact ⟨_, ((hj.trans hk).trans hl).trans hm,
      ((hb₁.append hb₂).append (Matched.newlines hn)).append hb₃⟩
  | inlineBody _ _ ih => exact ih trivial
  | indentedBody _ _ _ _ hclose ih =>
    obtain ⟨js, hj, hb₁⟩ := matched_skipLineBreaks _
    obtain ⟨ks, hk, hb₂⟩ := ih trivial
    exact ⟨_, hj.trans (State.passes_of_closeBlock? hk hclose), hb₁.append hb₂⟩

/-- A run closes the brackets that it opens, and no others. -/
theorem balanced (h : Run (Program.setup source settings) task s out t) (hf : Program.Fits task) :
    ∃ ks, s.Passes ks t ∧ Balanced (taken task ++ ks) := by
  obtain ⟨ks, hp, hmatched⟩ := h.matched hf
  exact ⟨ks, hp, hmatched.balanced⟩

end Run

namespace Reading.State

variable {s t u : State} {token : Token}

/-- Only one level of lines is open, and its open brackets are those that the tokens passed before `ts`
have left open. -/
def Counts (ts : List Token) (s : State) : Prop :=
  ∃ n : Nat, s.groups = [n] ∧ (n : Int) + nesting ts = nesting s.passed

theorem Counts.start (indentWidth : Nat) (ts : List Token) : (State.start indentWidth ts).Counts [] :=
  ⟨0, rfl, rfl⟩

theorem Counts.passes {ks js : List Token} (h : s.Counts js) (hp : s.Passes ks t)
    (hb : Balanced (js ++ ks)) : t.Counts [] := by
  obtain ⟨n, hg, hn⟩ := h
  refine ⟨n, hp.groups.trans hg, ?_⟩
  have := hb.closed
  rw [nesting_append] at this
  rw [hp.passed, nesting_append, nesting_reverse, nesting_nil]
  omega

theorem Counts.takes (h : s.Counts []) (ht : s.Takes token t) : t.Counts [token] := by
  obtain ⟨n, hg, hn⟩ := h
  refine ⟨n, ht.passes.groups.trans hg, ?_⟩
  rw [nesting_nil] at hn
  rw [ht.passes.passed]
  simp only [List.reverse_singleton, List.singleton_append, nesting_cons, nesting_nil]
  omega

theorem Counts.openGroup (h : s.Counts [token]) (hk : token.kind.nesting = 1) :
    s.openGroup.Counts [] := by
  obtain ⟨n, hg, hn⟩ := h
  have ho : s.openGroup = { s with groups := [n + 1] } := by simp [State.openGroup, hg]
  rw [ho]
  refine ⟨n + 1, rfl, ?_⟩
  change ((n + 1 : Nat) : Int) + 0 = nesting s.passed
  rw [nesting_cons, nesting_nil] at hn
  omega

/-- A token that is no bracket leaves the count as it is. -/
theorem Counts.flat (h : s.Counts [token]) (hk : token.kind.nesting = 0) : s.Counts [] :=
  h.passes (.refl s) (Matched.singleton hk).balanced

theorem Counts.skipLineBreaks (h : s.Counts []) : s.skipLineBreaks.Counts [] := by
  obtain ⟨ks, hp, hmatched⟩ := Run.matched_skipLineBreaks s
  exact h.passes hp hmatched.balanced

theorem Counts.skipGroupedLineBreaks (h : s.Counts []) : s.skipGroupedLineBreaks.Counts [] := by
  obtain ⟨ks, hp, hmatched⟩ := Run.matched_skipGroupedLineBreaks s
  exact h.passes hp hmatched.balanced

theorem Counts.endsLine (h : s.Counts []) (hline : s.EndsLine t) : t.Counts [] := by
  obtain ⟨ks, hn, hp⟩ := hline.passes
  exact h.passes hp (Matched.newlines hn).balanced

/-- Inside a bracket exactly if a bracket is left open. -/
theorem Counts.inGroup (h : s.Counts []) : s.inGroup ↔ 0 < nesting s.passed := by
  obtain ⟨n, hg, hn⟩ := h
  rw [nesting_nil] at hn
  simp only [State.inGroup, hg, List.head?_cons, Option.any_some, decide_eq_true_eq]
  omega

end Reading.State

theorem Run.counts {source : String} {settings : Settings} {task : Task} {s t : State}
    {out : List Tree} (h : Run (Program.setup source settings) task s out t)
    (hf : Program.Fits task) (hs : s.Counts (taken task)) : t.Counts [] := by
  obtain ⟨ks, hp, hb⟩ := h.balanced hf
  exact hs.passes hp hb

end Offside
