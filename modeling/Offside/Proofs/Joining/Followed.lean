import Offside.Proofs.DefaultGrammar

set_option autoImplicit false

/-!
# Statements with more lines behind them

A reading of tokens that ends with them goes on in the same way if a line break and further lines follow:
what was read is not continued by them. The two readings go side by side, and differ in the lines behind,
of which at most line breaks are passed.
-/
namespace Offside

open Reading

/-- Lines that may follow a program: a line break, and then tokens the first of which starts a line at column
zero. -/
structure Sequel where
  line : Token
  tokens : List Token
  line_kind : line.kind = .newline
  column : ∀ k ∈ tokens.find? (·.kind ≠ .newline), k.column = 0

namespace Reading.State

/-- Inside a bracket some token that is no line break is still ahead. -/
def Backed (s : State) : Prop := s.inGroup → ∃ k ∈ s.ahead, k.kind ≠ .newline

variable {s t : State} {ks : List Token}

theorem Backed.of_passes (ht : t.Backed) (h : s.Passes ks t) : s.Backed := by
  intro hin
  obtain ⟨k, hk, hkind⟩ := ht (h.inGroup ▸ hin)
  exact ⟨k, h.ahead ▸ List.mem_append_right _ hk, hkind⟩

theorem exists_of_isNext {kind : Kind} (h : s.isNext kind) (hkind : kind ≠ .newline) :
    ∃ k ∈ s.ahead, k.kind ≠ .newline := by
  obtain ⟨k, hk, rfl⟩ := isNext_iff.1 h
  obtain ⟨rest, hs⟩ := current?_eq_some_iff.1 hk
  exact ⟨k, hs ▸ List.mem_cons_self, hkind⟩

theorem Backed.of_skipLineBreaks (h : ∃ k ∈ s.skipLineBreaks.ahead, k.kind ≠ .newline) : s.Backed :=
  of_passes (fun _ => h) (passes_skipLineBreaks s)

theorem Backed.of_not_inGroup (h : ¬s.inGroup) : s.Backed := fun hin => absurd hin h

end Reading.State

namespace Sequel

/-- Nothing of the lines behind was passed. -/
structure Behind (c : Sequel) (s s' : State) : Prop where
  passed : s'.passed = s.passed
  ahead : s'.ahead = s.ahead ++ c.line :: c.tokens

/-- Line breaks were passed of the lines behind, and no token is left before them. -/
structure Reached (c : Sequel) (ls : List Token) (s s' : State) : Prop where
  done : s.ahead = []
  lines_ne : ls ≠ []
  lines : ∀ l ∈ ls, l.kind = .newline
  passed : s'.passed = ls.reverse ++ s.passed
  ahead : c.line :: c.tokens = ls ++ s'.ahead

/-- The second state is the first one with the lines behind its tokens. -/
structure Beside (c : Sequel) (s s' : State) : Prop where
  tokens : c.Behind s s' ∨ ∃ ls, c.Reached ls s s'
  indentation : s'.indentation = s.indentation
  groups : s'.groups = s.groups
  depth : s'.depth = s.depth
  step_pos : 0 < s.indentation.step

namespace Beside

variable {c : Sequel} {s s' t : State} {token : Token} {kind : Kind}

theorem inGroup (h : c.Beside s s') : s'.inGroup = s.inGroup := by
  simp only [State.inGroup, h.groups]

/-- Brackets, blocks and expressions are opened and closed in both states alike. -/
theorem reframe (h : c.Beside s s') {i : Indentation} (groups : List Nat) (depth : Nat)
    (hstep : 0 < i.step) :
    c.Beside ⟨s.passed, s.ahead, i, groups, depth⟩ ⟨s'.passed, s'.ahead, i, groups, depth⟩ := by
  refine ⟨?_, rfl, rfl, rfl, hstep⟩
  rcases h.tokens with ⟨hpassed, hahead⟩ | ⟨ls, hdone, hne, hlines, hpassed, hahead⟩
  · exact .inl ⟨hpassed, hahead⟩
  · exact .inr ⟨ls, hdone, hne, hlines, hpassed, hahead⟩

theorem withDepth (h : c.Beside s s') (f : Nat → Nat) :
    c.Beside { s with depth := f s.depth } { s' with depth := f s'.depth } := by
  rw [h.indentation, h.groups, h.depth]
  exact h.reframe _ _ h.step_pos

/-- While tokens are left, nothing of the lines behind was passed. -/
theorem behind (h : c.Beside s s') (hs : s.ahead ≠ []) : c.Behind s s' :=
  h.tokens.resolve_right fun ⟨_, hreached⟩ => hs hreached.done

theorem current? (h : c.Beside s s') (ht : s.current? = some token) : s'.current? = some token := by
  obtain ⟨rest, hs⟩ := State.current?_eq_some_iff.1 ht
  have hahead := (h.behind (hs ▸ List.cons_ne_nil _ _)).ahead
  rw [State.current?, hahead, hs]
  rfl

theorem isNext (h : c.Beside s s') (hnext : s.isNext kind) : s'.isNext kind := by
  obtain ⟨k, hk, hkind⟩ := State.isNext_iff.1 hnext
  exact State.isNext_iff.2 ⟨k, h.current? hk, hkind⟩

/-- What is not next is not next with the lines behind either, while tokens are left. -/
theorem not_isNext (h : c.Beside s s') (hs : s.ahead ≠ []) (hnext : ¬s.isNext kind) :
    ¬s'.isNext kind := by
  obtain ⟨k, ks, hk⟩ := List.exists_cons_of_ne_nil hs
  have hcurrent : s.current? = some k := congrArg List.head? hk
  rw [State.isNext, h.current? hcurrent]
  rwa [State.isNext, hcurrent] at hnext

theorem not_isNext_of_behind (h : c.Beside s s') (hbehind : c.Behind s s') (hk : kind ≠ .newline)
    (hnext : ¬s.isNext kind) : ¬s'.isNext kind := by
  by_cases hs : s.ahead = []
  · have hahead := hbehind.ahead
    rw [hs, List.nil_append] at hahead
    simp [State.isNext, State.current?, hahead, c.line_kind, hk.symm]
  · exact h.not_isNext hs hnext

theorem takes (h : c.Beside s s') (ht : s.Takes token t) :
    ∃ t', s'.Takes token t' ∧ c.Beside t t' ∧ c.Behind t t' := by
  have hs := ht.passes.ahead
  have hbehind := h.behind (hs ▸ List.cons_ne_nil _ _)
  have ht' : s'.Takes token s'.advance := ⟨h.current? ht.1, rfl⟩
  have hbehind' : c.Behind t s'.advance := by
    constructor
    · rw [ht'.passes.passed, ht.passes.passed, hbehind.passed]
    · have hahead := ht'.passes.ahead
      rw [hbehind.ahead, hs] at hahead
      exact (List.cons.inj hahead).2.symm
  refine ⟨s'.advance, ht', ⟨.inl hbehind', ?_, ?_, ?_, ?_⟩, hbehind'⟩
  · rw [ht'.passes.indentation, ht.passes.indentation, h.indentation]
  · rw [ht'.passes.groups, ht.passes.groups, h.groups]
  · rw [ht'.passes.depth, ht.passes.depth, h.depth]
  · rw [ht.passes.indentation]
    exact h.step_pos

theorem skipLineBreaks (h : c.Beside s s') : c.Beside s.skipLineBreaks s'.skipLineBreaks := by
  refine ⟨?_, h.indentation, h.groups, h.depth, h.step_pos⟩
  have hsplit : ∀ ts : List Token,
      ts.takeWhile (·.kind = .newline) ++ ts.dropWhile (·.kind = .newline) = ts := fun _ =>
    List.takeWhile_append_dropWhile
  have hlines : ∀ ts : List Token,
      ∀ k ∈ ts.takeWhile (·.kind = .newline), decide (k.kind = .newline) :=
    fun ts k hk => by simpa using State.kind_of_mem_takeWhile hk
  rcases h.tokens with ⟨hpassed, hahead⟩ | ⟨ls, hdone, hne, hkinds, hpassed, hahead⟩
  · cases hrest : s.ahead.dropWhile (·.kind = .newline) with
    | nil =>
      -- The line breaks left are passed together with those of the lines behind.
      have hall := hsplit s.ahead
      rw [hrest, List.append_nil] at hall
      have hkinds := hlines s.ahead
      rw [hall] at hkinds
      have htake : (c.line :: c.tokens).takeWhile (·.kind = .newline) ≠ [] := by
        simp [c.line_kind]
      refine .inr ⟨(c.line :: c.tokens).takeWhile (·.kind = .newline), hrest, htake, fun l hl =>
        State.kind_of_mem_takeWhile hl, ?_, ?_⟩
      · simp only [State.skipLineBreaks, hahead, hpassed, hall, List.takeWhile_append_of_pos hkinds,
          List.reverse_append, List.append_assoc]
      · simp only [State.skipLineBreaks, hahead, List.dropWhile_append_of_pos hkinds, hsplit]
    | cons k ks =>
      have hk : k.kind ≠ .newline := by
        have hhead := List.head?_dropWhile_not (·.kind = .newline) s.ahead
        rw [hrest] at hhead
        simpa using hhead
      have hs : s.ahead = s.ahead.takeWhile (·.kind = .newline) ++ k :: ks := by
        rw [← hrest, hsplit]
      have hs' : s'.ahead =
          s.ahead.takeWhile (·.kind = .newline) ++ k :: (ks ++ c.line :: c.tokens) := by
        rw [hahead, ← List.cons_append, ← List.append_assoc, ← hs]
      rw [State.skipLineBreaks_eq hs (fun _ => State.kind_of_mem_takeWhile) hk,
        State.skipLineBreaks_eq hs' (fun _ => State.kind_of_mem_takeWhile) hk]
      exact .inl ⟨by simp only [hpassed], rfl⟩
  · refine .inr ⟨ls ++ s'.ahead.takeWhile (·.kind = .newline), ?_, ?_, ?_, ?_, ?_⟩
    · simp only [State.skipLineBreaks, hdone, List.dropWhile_nil]
    · exact List.append_ne_nil_of_left_ne_nil hne _
    · intro l hl
      exact (List.mem_append.1 hl).elim (hkinds l) State.kind_of_mem_takeWhile
    · simp only [State.skipLineBreaks, hpassed, hdone, List.takeWhile_nil, List.reverse_nil,
        List.nil_append, List.reverse_append, List.append_assoc]
    · rw [hahead, List.append_assoc]
      exact congrArg (ls ++ ·) (hsplit s'.ahead).symm

theorem skipGroupedLineBreaks (h : c.Beside s s') :
    c.Beside s.skipGroupedLineBreaks s'.skipGroupedLineBreaks := by
  unfold State.skipGroupedLineBreaks
  rw [h.inGroup]
  split
  · exact h.skipLineBreaks
  · exact h

theorem openGroup (h : c.Beside s s') : c.Beside s.openGroup s'.openGroup := by
  unfold State.openGroup
  rw [h.groups]
  split
  · exact h
  · rw [h.indentation, h.depth]
    exact h.reframe _ _ h.step_pos

theorem openBlock (h : c.Beside s s') : c.Beside s.openBlock s'.openBlock := by
  unfold State.openBlock
  rw [h.indentation, h.groups, h.depth]
  exact h.reframe _ _ h.step_pos

theorem closeGroup? {u : State} (h : c.Beside s s') (hu : s.closeGroup? = some u) :
    ∃ u', s'.closeGroup? = some u' ∧ c.Beside u u' := by
  unfold State.closeGroup? at hu ⊢
  rw [h.groups]
  split at hu
  · cases hu
    refine ⟨_, rfl, ?_⟩
    rw [h.indentation, h.depth]
    exact h.reframe _ _ h.step_pos
  · cases hu

theorem closeBlock? {u : State} (h : c.Beside s s') (hu : s.closeBlock? = some u) :
    ∃ u', s'.closeBlock? = some u' ∧ c.Beside u u' := by
  unfold State.closeBlock? Indentation.decrease? at hu ⊢
  rw [h.indentation]
  split at hu
  · cases hu
  · cases hu
    refine ⟨_, rfl, ?_⟩
    rw [h.groups, h.depth]
    exact h.reframe _ _ h.step_pos

theorem closes {close : Kind} {stop : Token} (h : c.Beside s s') (hstop : s.Closes close stop t) :
    ∃ t', s'.Closes close stop t' ∧ c.Beside t t' ∧ c.Behind t t' := by
  obtain ⟨u, hu, htakes, hk⟩ := hstop
  obtain ⟨u', hu', hbeside⟩ := h.closeGroup? hu
  obtain ⟨t', ht', hbeside', hbehind⟩ := hbeside.takes htakes
  exact ⟨t', ⟨u', hu', ht', hk⟩, hbeside', hbehind⟩

/-- A line break is next where the lines behind start. -/
theorem takes_line (h : c.Beside s s') (hbehind : c.Behind s s') (hs : s.ahead = []) :
    ∃ t', s'.Takes c.line t' ∧ c.Beside s t' := by
  have hahead : s'.ahead = c.line :: c.tokens := by rw [hbehind.ahead, hs, List.nil_append]
  have ht' : s'.Takes c.line s'.advance := ⟨State.current?_eq_some_iff.2 ⟨_, hahead⟩, rfl⟩
  have hrest := ht'.passes.ahead
  refine ⟨s'.advance, ht', .inr ⟨[c.line], hs, List.cons_ne_nil _ _, ?_, ?_, ?_⟩, ?_, ?_, ?_,
    h.step_pos⟩
  · exact fun l hl => List.mem_singleton.1 hl ▸ c.line_kind
  · rw [ht'.passes.passed, hbehind.passed]
  · rw [← hahead, hrest]
  · rw [ht'.passes.indentation, h.indentation]
  · rw [ht'.passes.groups, h.groups]
  · rw [ht'.passes.depth, h.depth]

theorem afterLineBreak_of_reached {ls : List Token} (h : c.Reached ls s s') : s'.afterLineBreak := by
  cases hls : ls.reverse with
  | nil => exact absurd (List.reverse_eq_nil_iff.1 hls) h.lines_ne
  | cons k ks =>
    have hk : k.kind = .newline := h.lines k (List.mem_reverse.1 (hls ▸ List.mem_cons_self))
    simp [State.afterLineBreak, h.passed, hls, hk]

/-- A statement that ends with the tokens ends its line with the first line break behind them. -/
theorem endsLine (h : c.Beside s s') (hline : s.EndsLine t) :
    ∃ t', s'.EndsLine t' ∧ c.Beside t t' := by
  unfold State.EndsLine at hline ⊢
  rcases h.tokens with hbehind | ⟨ls, hreached⟩
  · have hafter : s'.afterLineBreak = s.afterLineBreak := by
      rw [State.afterLineBreak, hbehind.passed, State.afterLineBreak]
    have hopen : ¬s'.done := by simp [State.done, hbehind.ahead]
    by_cases hs : s.ahead = []
    · rw [if_pos (.inl (State.done_iff.2 hs))] at hline
      rw [hline]
      by_cases hbreak : s'.afterLineBreak
      · exact ⟨s', by rw [if_pos (.inr hbreak)], h⟩
      · obtain ⟨t', ht', hbeside⟩ := h.takes_line hbehind hs
        exact ⟨t', by rw [if_neg (not_or.2 ⟨hopen, hbreak⟩)]; exact ⟨_, ht', c.line_kind⟩, hbeside⟩
    · have hdone : ¬s.done := fun hdone => hs (State.done_iff.1 hdone)
      by_cases hbreak : s.afterLineBreak
      · rw [if_pos (.inr hbreak)] at hline
        rw [hline]
        exact ⟨s', by rw [if_pos (.inr (hafter.trans hbreak))], h⟩
      · rw [if_neg (not_or.2 ⟨hdone, hbreak⟩)] at hline
        obtain ⟨stop, htakes, hk⟩ := hline
        obtain ⟨t', ht', hbeside, _⟩ := h.takes htakes
        have hbreak' : ¬s'.afterLineBreak := by rwa [hafter]
        exact ⟨t', by rw [if_neg (not_or.2 ⟨hopen, hbreak'⟩)]; exact ⟨stop, ht', hk⟩, hbeside⟩
  · rw [if_pos (.inl (State.done_iff.2 hreached.done))] at hline
    rw [hline]
    exact ⟨s', by rw [if_pos (.inr (afterLineBreak_of_reached hreached))], h⟩

/-- Behind the line breaks stands a token at column zero, if any. -/
theorem column_skipLineBreaks (h : c.Beside s s') (hs : s.skipLineBreaks.current? = none)
    (ht : s'.skipLineBreaks.current? = some token) : token.column = 0 := by
  obtain ⟨rest, hahead⟩ := State.current?_eq_some_iff.1 ht
  have hk := State.ne_newline_of_skipLineBreaks ht
  refine c.column token ?_
  have hfound : (c.line :: c.tokens).find? (·.kind ≠ .newline) = some token := by
    rcases h.skipLineBreaks.tokens with hbehind | ⟨ls, hreached⟩
    · have hnil : s.skipLineBreaks.ahead = [] := by simpa [State.current?] using hs
      rw [← List.nil_append (c.line :: c.tokens), ← hnil, ← hbehind.ahead, hahead]
      simp [hk]
    · have hnone : ls.find? (·.kind ≠ .newline) = none :=
        List.find?_eq_none.2 fun l hl => by simpa using hreached.lines l hl
      rw [hreached.ahead, List.find?_append, hnone, Option.none_or, hahead]
      simp [hk]
  rwa [List.find?_cons_of_neg (by simpa using c.line_kind)] at hfound

variable {source : String} {settings : Settings} {least : Int}

/-- The lines behind bind to nothing that was read: a line break has no power, and behind a line break no
token has. -/
theorem loose_iff (h : c.Beside s s') (hs : s.Backed) (hends : settings.lineBreaksEndExpressions)
    (hleast : 0 ≤ least) :
    (s'.done ∨ (Program.setup source settings).power s' ≤ least) ↔
      (s.done ∨ (Program.setup source settings).power s ≤ least) := by
  cases hahead : s.ahead with
  | nil =>
    have hout : ¬s'.inGroup := by
      rw [h.inGroup]
      intro hin
      obtain ⟨k, hk, _⟩ := hs hin
      rw [hahead] at hk
      cases hk
    refine iff_of_true (.inr ?_) (.inl (State.done_iff.2 hahead))
    suffices hpower : (Program.setup source settings).power s' = 0 by rwa [hpower]
    unfold Setup.power State.power
    rw [if_neg hout]
    split
    next => rfl
    next hbreak =>
      rcases h.tokens with hbehind | ⟨ls, hreached⟩
      · obtain ⟨_, ht', _⟩ := h.takes_line hbehind hahead
        simp only [ht'.1, c.line_kind, Program.setup_power]
        rfl
      · refine absurd ?_ hbreak
        simp [afterLineBreak_of_reached hreached, hends]
  | cons k ks =>
    have hbehind := h.behind (hahead ▸ List.cons_ne_nil k ks)
    have hdone : s'.done = s.done := by simp [State.done, hbehind.ahead, hahead]
    suffices hpower : (Program.setup source settings).power s' =
        (Program.setup source settings).power s by
      rw [hdone, hpower]
    have hafter : s'.afterLineBreak = s.afterLineBreak := by
      rw [State.afterLineBreak, hbehind.passed, State.afterLineBreak]
    have hcurrent : s.current? = some k := congrArg List.head? hahead
    unfold Setup.power State.power
    rw [h.inGroup, hafter, h.current? hcurrent, hcurrent]
    split
    next hin =>
      obtain ⟨l, hl, hkind⟩ := hs hin
      have hfound : (s.ahead.find? (·.kind ≠ .newline)).isSome :=
        List.find?_isSome.2 ⟨l, hl, by simpa using hkind⟩
      rw [hbehind.ahead, List.find?_append, Option.or_of_isSome hfound]
    next => rfl

end Beside

end Sequel

namespace Run

variable {c : Sequel} {source : String} {settings : Settings} {task : Task} {s t u : State}
  {out : List Tree}

/-- What is known of a task that lines may follow: an operator binds no looser than a token that binds to
nothing, the rest of a bracketed sequence has its bracket ahead, and a block is an indented one. -/
def Asks (s t : State) : Task → Prop
  | .expression least | .climb least | .extension least _ => 0 ≤ least ∧ t.Backed
  | .items _ => ∃ k ∈ t.ahead, k.kind ≠ .newline
  | .statements level => 0 < level ∧ ¬s.inGroup
  | .start _ _ | .continuation _ _ _ | .body => t.Backed

/-- With the lines behind the task is carried out in the same way. -/
def Follows (c : Sequel) (setup : Setup PrefixRule InfixRule) (s : State) (out : List Tree) (t : State)
    (task : Task) : Prop :=
  ∀ s', c.Beside s s' → ∃ t', Run setup task s' out t' ∧ c.Beside t t'

theorem ahead_ne_nil {setup : Setup PrefixRule InfixRule} {least : Int}
    (h : Run setup (.expression least) s out t) : s.ahead ≠ [] := by
  intro hnil
  have hlength := h.length_ahead_lt
  rw [hnil] at hlength
  exact Nat.not_lt_zero _ hlength

namespace Follows

variable {items trees : List Tree} {tree : Tree} {s' v : State} {token stop comma : Token} {close : Kind}

/-- What stands between brackets is read up to the same closing bracket. -/
theorem bracketed {setup : Setup PrefixRule InfixRule}
    (h : Asks s.openGroup t (.items close) → Follows c setup s.openGroup items t (.items close))
    (hs : c.Beside s s') (hclose : close ≠ .newline) (hstop : t.Closes close stop u) :
    ∃ t' u', Run setup (.items close) s'.openGroup items t' ∧ t'.Closes close stop u' ∧
      c.Beside u u' ∧ c.Behind u u' := by
  obtain ⟨t', hitems, ht⟩ := h (State.exists_of_isNext hstop.isNext hclose) _ hs.openGroup
  obtain ⟨u', hstop', hu⟩ := ht.closes hstop
  exact ⟨t', u', hitems, hstop', hu⟩

theorem item {setup : Setup PrefixRule InfixRule} (hopen : ¬s.skipLineBreaks.isNext close)
    (hitem : Run setup (.expression 0) s.skipLineBreaks [tree] t)
    (hcomma : t.skipLineBreaks.Takes comma u) (hkind : comma.kind = .comma)
    (h : Asks s.skipLineBreaks t (.expression 0) →
      Follows c setup s.skipLineBreaks [tree] t (.expression 0))
    (h' : Follows c setup u items v (.items close)) :
    Follows c setup s (tree :: items) v (.items close) := by
  intro s' hs
  have hbacked := State.Backed.of_skipLineBreaks
    (State.exists_of_isNext hcomma.isNext (by rw [hkind]; decide))
  obtain ⟨t', hitem', ht⟩ := h ⟨Int.le_refl 0, hbacked⟩ _ hs.skipLineBreaks
  obtain ⟨u', hcomma', hu, _⟩ := ht.skipLineBreaks.takes hcomma
  obtain ⟨v', hitems', hv⟩ := h' u' hu
  exact ⟨v', .item (hs.skipLineBreaks.not_isNext hitem.ahead_ne_nil hopen) hitem' hcomma' hkind
    hitems', hv⟩

theorem statement {setup : Setup PrefixRule InfixRule} {level : Nat}
    (htoken : s.skipLineBreaks.current? = some token) (hcolumn : token.column = level)
    (hline : t.EndsLine u) (h : Follows c setup s.skipLineBreaks [tree] t (.expression 0))
    (h' : Follows c setup u trees v (.statements level)) :
    Follows c setup s (tree :: trees) v (.statements level) := by
  intro s' hs
  obtain ⟨t', htree', ht⟩ := h _ hs.skipLineBreaks
  obtain ⟨u', hline', hu⟩ := ht.endsLine hline
  obtain ⟨v', htrees', hv⟩ := h' u' hu
  exact ⟨v', .statement (hs.skipLineBreaks.current? htoken) hcolumn htree' hline' htrees', hv⟩

theorem indentedBody {setup : Setup PrefixRule InfixRule} (hbreak : s.isNext .newline)
    (htoken : s.skipLineBreaks.current? = some token)
    (hcolumn : s.skipLineBreaks.openBlock.indentation.current ≤ token.column)
    (hclose : t.closeBlock? = some u)
    (h : Follows c setup s.skipLineBreaks.openBlock trees t
      (.statements s.skipLineBreaks.openBlock.indentation.current)) :
    Follows c setup s trees u .body := by
  intro s' hs
  have hlevel : s'.skipLineBreaks.openBlock.indentation = s.skipLineBreaks.openBlock.indentation :=
    hs.skipLineBreaks.openBlock.indentation
  obtain ⟨t', htrees, ht⟩ := h _ hs.skipLineBreaks.openBlock
  obtain ⟨u', hclose', hu⟩ := ht.closeBlock? hclose
  exact ⟨u', .indentedBody (hs.isNext hbreak) (hs.skipLineBreaks.current? htoken)
    (by rwa [hlevel]) (by rwa [hlevel]) hclose', hu⟩

end Follows

/-- The lines behind do not change what is read of tokens that end before them. -/
theorem follows (h : Run (Program.setup source settings) task s out t) (hf : Program.Fits task)
    (hasks : Asks s t task) (hends : settings.lineBreaksEndExpressions) :
    Follows c (Program.setup source settings) s out t task := by
  induction h with
  | nested hdepth _ ih =>
    intro s' hs
    obtain ⟨t', hrun, ht⟩ := ih trivial hasks _ (hs.withDepth (· + 1))
    exact ⟨_, .nested (by rw [hs.depth]; exact hdepth) hrun, ht.withDepth (· - 1)⟩
  | first htoken hrule hstart hextension ih ih' =>
    intro s' hs
    obtain ⟨ks, hpasses⟩ := hextension.passes
    obtain ⟨t', htoken', ht, _⟩ := hs.skipGroupedLineBreaks.takes htoken
    obtain ⟨u', hstart', hu⟩ := ih (Program.fits_start hrule) (hasks.2.of_passes hpasses) t' ht
    obtain ⟨v', hextension', hv⟩ := ih' trivial hasks u' hu
    exact ⟨v', .first htoken' hrule hstart' hextension', hv⟩
  | stop hloose =>
    intro s' hs
    exact ⟨s', .stop ((hs.loose_iff hasks.2 hends hasks.1).2 hloose), hs⟩
  | next htight htoken hrule hcontinuation hextension ih ih' =>
    intro s' hs
    obtain ⟨ks, hpasses⟩ := hextension.passes
    obtain ⟨ls, hpasses'⟩ := hcontinuation.passes
    have hu := hasks.2.of_passes hpasses
    have hs' := hu.of_passes (((State.passes_skipGroupedLineBreaks _).trans htoken.passes).trans hpasses')
    obtain ⟨t', htoken', ht, _⟩ := hs.skipGroupedLineBreaks.takes htoken
    obtain ⟨u', hcontinuation', hbeside⟩ := ih (Program.fits_continuation hrule) hu t' ht
    obtain ⟨v', hextension', hv⟩ := ih' trivial hasks u' hbeside
    exact ⟨v', .next (fun hloose => htight ((hs.loose_iff hs' hends hasks.1).1 hloose)) htoken' hrule
      hcontinuation' hextension', hv⟩
  | identifier => exact fun s' hs => ⟨s', .identifier, hs⟩
  | number hvalue => exact fun s' hs => ⟨s', .number hvalue, hs⟩
  | string hinside => exact fun s' hs => ⟨s', .string hinside, hs⟩
  | boolean => exact fun s' hs => ⟨s', .boolean, hs⟩
  | unary hoperator _ ih =>
    intro s' hs
    obtain ⟨t', hrun, ht⟩ := ih trivial ⟨by decide, hasks⟩ s' hs
    exact ⟨t', .unary hoperator hrun, ht⟩
  | parameters _ hstop harrow hnames ih =>
    intro s' hs
    obtain ⟨t', u', hitems', hstop', hu, _⟩ := Follows.bracketed (ih trivial) hs (by decide) hstop
    exact ⟨u', .parameters hitems' hstop' (hu.isNext harrow) hnames, hu⟩
  | grouping _ hstop harrow ih =>
    intro s' hs
    obtain ⟨t', u', hitem', hstop', hu, hbehind⟩ :=
      Follows.bracketed (ih trivial) hs (by decide) hstop
    exact ⟨u', .grouping hitem' hstop' (hu.not_isNext_of_behind hbehind (by decide) harrow), hu⟩
  | list _ hstop ih =>
    intro s' hs
    obtain ⟨t', u', hitems', hstop', hu, _⟩ := Follows.bracketed (ih trivial) hs (by decide) hstop
    exact ⟨u', .list hitems' hstop', hu⟩
  | binary hoperator _ ih =>
    intro s' hs
    obtain ⟨t', hrun, ht⟩ :=
      ih trivial ⟨by rw [Program.setup_power]; exact Program.power_nonneg _, hasks⟩ s' hs
    exact ⟨t', .binary hoperator hrun, ht⟩
  | assignment htarget _ ih =>
    intro s' hs
    have hk := Program.kind_of_infixRule hf
    obtain ⟨t', hrun, ht⟩ := ih trivial ⟨by rw [Program.setup_power, hk]; decide, hasks⟩ s' hs
    exact ⟨t', .assignment htarget hrun, ht⟩
  | conditional _ ih =>
    intro s' hs
    obtain ⟨t', hbody, ht⟩ := ih trivial hasks s' hs
    exact ⟨t', .conditional hbody, ht⟩
  | function hnames _ ih =>
    intro s' hs
    obtain ⟨t', hbody, ht⟩ := ih trivial hasks s' hs
    exact ⟨t', .function hnames hbody, ht⟩
  | call _ hstop ih =>
    intro s' hs
    obtain ⟨t', u', hitems', hstop', hu, _⟩ := Follows.bracketed (ih trivial) hs (by decide) hstop
    exact ⟨u', .call hitems' hstop', hu⟩
  | index _ hstop ih =>
    intro s' hs
    have hbacked := State.Backed.of_skipLineBreaks (State.exists_of_isNext hstop.isNext (by decide))
    obtain ⟨t', hitem', ht⟩ := ih trivial ⟨by decide, hbacked⟩ _ hs.openGroup
    obtain ⟨u', hstop', hu, _⟩ := ht.skipLineBreaks.closes hstop
    exact ⟨u', .index hitem' hstop', hu⟩
  | noItems hclosed =>
    intro s' hs
    exact ⟨_, .noItems (hs.skipLineBreaks.isNext hclosed), hs.skipLineBreaks⟩
  | lastItem hopen hitem hlast ih =>
    intro s' hs
    obtain ⟨k, hk, hkind⟩ := hasks
    obtain ⟨t', hitem', ht⟩ :=
      ih trivial ⟨by decide, .of_skipLineBreaks ⟨k, hk, hkind⟩⟩ _ hs.skipLineBreaks
    exact ⟨_, .lastItem (hs.skipLineBreaks.not_isNext hitem.ahead_ne_nil hopen) hitem'
      (ht.skipLineBreaks.not_isNext (List.ne_nil_of_mem hk) hlast), ht.skipLineBreaks⟩
  | item hopen hitem hcomma hkind _ ih ih' =>
    exact .item hopen hitem hcomma hkind (ih trivial) (ih' trivial hasks)
  | noTokens hdone =>
    intro s' hs
    cases htoken : s'.skipLineBreaks.current? with
    | none => exact ⟨_, .noTokens htoken, hs.skipLineBreaks⟩
    | some token =>
      have hcolumn := hs.column_skipLineBreaks hdone htoken
      exact ⟨_, .outdent htoken (by rw [hcolumn]; exact hasks.1), hs.skipLineBreaks⟩
  | outdent htoken hcolumn =>
    intro s' hs
    exact ⟨_, .outdent (hs.skipLineBreaks.current? htoken) hcolumn, hs.skipLineBreaks⟩
  | statement htoken hcolumn htree hline _ ih ih' =>
    obtain ⟨ks, hpasses⟩ := htree.passes
    obtain ⟨ls, _, hpasses'⟩ := hline.passes
    have ht := fun hin => hasks.2 (hpasses.inGroup.symm.trans hin)
    have hu := fun hin => ht (hpasses'.inGroup.symm.trans hin)
    exact .statement htoken hcolumn hline (ih trivial ⟨by decide, .of_not_inGroup ht⟩)
      (ih' trivial ⟨hasks.1, hu⟩)
  | inlineBody hinline htree ih =>
    intro s' hs
    obtain ⟨t', hrun, ht⟩ := ih trivial ⟨by decide, hasks⟩ s' hs
    exact ⟨t', .inlineBody (hs.not_isNext htree.ahead_ne_nil hinline) hrun, ht⟩
  | @indentedBody s _ _ _ _ hbreak htoken hcolumn htrees hclose ih =>
    intro s' hs
    have hlevel : 0 < s.skipLineBreaks.openBlock.indentation.current :=
      Nat.lt_of_lt_of_le hs.step_pos (Nat.le_add_left _ _)
    have hout : ¬s.skipLineBreaks.openBlock.inGroup := Bool.false_ne_true
    exact Follows.indentedBody hbreak htoken hcolumn hclose (ih trivial ⟨hlevel, hout⟩) s' hs

end Run

end Offside
