import Offside.Proofs.Finished
import Offside.Proofs.OneLine.Reading
import Offside.Proofs.Excerpt.Scanning

set_option autoImplicit false

/-!
# Reading an excerpt

What is read of the tokens of a line is read of an excerpt that starts at the same token, up to its end. The
trees are the same but for their positions, which are counted from the start of the excerpt. Only a parameter
list is not read where the excerpt ends, as it needs its arrow.
-/
namespace Offside

open Reading OneLine

namespace Tree

mutual

/-- The tree with every position counted from another place of the line. -/
def shift (start : Position) : Tree → Tree
  | .identifier span name => .identifier (span.shift start) name
  | .number span value => .number (span.shift start) value
  | .string span value => .string (span.shift start) value
  | .boolean span value => .boolean (span.shift start) value
  | .parameters span names => .parameters (span.shift start) names
  | .function span params body => .function (span.shift start) params (shiftAll start body)
  | .call span callee arguments =>
    .call (span.shift start) (shift start callee) (shiftAll start arguments)
  | .list span items => .list (span.shift start) (shiftAll start items)
  | .index span target item => .index (span.shift start) (shift start target) (shift start item)
  | .binary span operator left right =>
    .binary (span.shift start) operator (shift start left) (shift start right)
  | .unary span operator operand => .unary (span.shift start) operator (shift start operand)
  | .assign span target value => .assign (span.shift start) (shift start target) (shift start value)
  | .conditional span condition body =>
    .conditional (span.shift start) (shift start condition) (shiftAll start body)

def shiftAll (start : Position) : List Tree → List Tree
  | [] => []
  | t :: ts => shift start t :: shiftAll start ts

end

variable {start : Position}

theorem shiftAll_eq_map (ts : List Tree) : shiftAll start ts = ts.map (shift start) := by
  induction ts with
  | nil => rfl
  | cons t ts ih => rw [shiftAll, ih, List.map_cons]

@[simp] theorem span_shift (t : Tree) : (t.shift start).span = t.span.shift start := by
  cases t <;> simp only [shift, span]

theorem shift_withSpan (span : Span) (t : Tree) :
    (t.withSpan span).shift start = (t.shift start).withSpan (span.shift start) := by
  cases t <;> simp only [withSpan, shift]

@[simp] theorem name?_shift (t : Tree) : (t.shift start).name? = t.name? := by
  cases t <;> simp only [shift, name?]

theorem map_name?_shift (ts : List Tree) : (ts.map (shift start)).map name? = ts.map name? := by
  rw [List.map_map]
  exact List.map_congr_left fun t _ => name?_shift t

@[simp] theorem isAssignable_shift (t : Tree) : (t.shift start).isAssignable = t.isAssignable := by
  cases t <;> simp only [shift, isAssignable]

@[simp] theorem parameters?_shift (t : Tree) :
    Reader.parameters? (t.shift start) = Reader.parameters? t := by
  cases t <;> simp only [shift, Reader.parameters?]

end Tree

theorem Reader.spanThrough_shift (start : Position) (a : Span) (trees : List Tree) :
    (spanThrough a trees).shift start = spanThrough (a.shift start) (trees.map (Tree.shift start)) := by
  rw [spanThrough, spanThrough, List.getLast?_map]
  cases trees.getLast? with
  | none => rfl
  | some last => exact congrArg (a.shift start).through last.span_shift.symm

namespace Reading.State

variable {s t : State} {token : Token} {ks rest : List Token}

theorem Takes.ne_of_suffix (h : s.Takes token t) (hrest : rest <:+ t.ahead) : s.ahead ≠ rest := by
  rintro rfl
  have hlength := hrest.length_le
  rw [h.passes.ahead, List.length_append, List.length_singleton] at hlength
  omega

theorem eq_of_closeGroup? (h : s.closeGroup? = some t) : ∃ groups, t = { s with groups := groups } := by
  unfold closeGroup? at h
  split at h
  · exact ⟨_, (Option.some.inj h).symm⟩
  · cases h

theorem closeGroup?_of_passes (h : s.openGroup.Passes ks t) (hgroups : s.groups ≠ []) :
    t.closeGroup? = some { t with groups := s.groups } := by
  obtain ⟨n, outer, hs⟩ := List.exists_cons_of_ne_nil hgroups
  have ht : t.groups = (n + 1) :: outer := by rw [h.groups]; simp [openGroup, hs]
  simp [closeGroup?, ht, hs]

end Reading.State

/-- A part of a line of the source, and the tokens behind it. -/
structure Excerpt (source : String) where
  text : String
  start : Position
  rest : List Token

namespace Excerpt

variable {source : String} {settings : Settings} {task task' : Task} {s s' t u : State}
  {out items : List Tree} {least : Int} {n left : Tree} {token token' stop : Token} {kind close : Kind}

/-- The second token is read from the excerpt where the first one is read from the source. -/
structure Shows (c : Excerpt source) (token token' : Token) : Prop where
  eq : token = token'.shift c.start
  text : token'.text c.text = token.text source

/-- The two states stand before the same tokens, up to the end of the excerpt. -/
structure Beside (c : Excerpt source) (s s' : State) : Prop where
  ahead : s.ahead = s'.ahead.map (Token.shift c.start) ++ c.rest
  shows : ∀ k ∈ s'.ahead, c.Shows (k.shift c.start) k
  line : OnLine s
  line' : OnLine s'
  groups : s'.groups ≠ []
  depth : s'.depth ≤ s.depth

variable {c : Excerpt source}

theorem Shows.kind_eq (h : c.Shows token token') : token.kind = token'.kind := by
  rw [h.eq]
  rfl

theorem Shows.span_eq (h : c.Shows token token') : token.span = token'.span.shift c.start := by
  rw [h.eq]
  rfl

namespace Beside

theorem withDepth (h : c.Beside s s') {depth depth' : Nat} (hdepth : depth' ≤ depth) :
    c.Beside { s with depth := depth } { s' with depth := depth' } :=
  ⟨h.ahead, h.shows, h.line.nested _, h.line'.nested _, h.groups, hdepth⟩

theorem withGroups (h : c.Beside s s') (groups : List Nat) {groups' : List Nat} (hgroups : groups' ≠ []) :
    c.Beside { s with groups := groups } { s' with groups := groups' } :=
  ⟨h.ahead, h.shows, ⟨h.line.ahead, h.line.behind⟩, ⟨h.line'.ahead, h.line'.behind⟩, hgroups, h.depth⟩

theorem openGroup (h : c.Beside s s') : c.Beside s.openGroup s'.openGroup := by
  obtain ⟨n, outer, hgroups⟩ := List.exists_cons_of_ne_nil h.groups
  refine ⟨?_, ?_, h.line.openGroup, h.line'.openGroup, ?_, ?_⟩
  · rw [State.ahead_openGroup, State.ahead_openGroup]
    exact h.ahead
  · rw [State.ahead_openGroup]
    exact h.shows
  · simp [State.openGroup, hgroups]
  · rw [State.depth_openGroup, State.depth_openGroup]
    exact h.depth

/-- Behind tokens that are passed on both sides the states are beside each other if what is ahead is. -/
theorem of_passes {ks ks' : List Token} (h : c.Beside s s') (hks : s.Passes ks t) (hks' : s'.Passes ks' u)
    (hahead : t.ahead = u.ahead.map (Token.shift c.start) ++ c.rest) : c.Beside t u where
  ahead := hahead
  shows k hk := h.shows k (hks'.ahead ▸ List.mem_append_right _ hk)
  line := h.line.passes hks
  line' := h.line'.passes hks'
  groups := hks'.groups ▸ h.groups
  depth := by rw [hks.depth, hks'.depth]; exact h.depth

theorem exists_current? (h : c.Beside s s') (hs : s.ahead ≠ c.rest) :
    ∃ token', s'.current? = some token' ∧ s.current? = some (token'.shift c.start) := by
  have hahead := h.ahead
  cases hs' : s'.ahead with
  | nil =>
    rw [hs'] at hahead
    exact absurd hahead hs
  | cons token' rest' =>
    rw [hs'] at hahead
    exact ⟨token', congrArg List.head? hs', congrArg List.head? hahead⟩

theorem isNext (h : c.Beside s s') (hnext : s.isNext kind) (hs : s.ahead ≠ c.rest) : s'.isNext kind := by
  obtain ⟨token', hcurrent', hcurrent⟩ := h.exists_current? hs
  rw [State.isNext, hcurrent] at hnext
  rwa [State.isNext, hcurrent']

theorem not_isNext (h : c.Beside s s') (hnext : ¬s.isNext kind) : ¬s'.isNext kind := by
  intro hnext'
  obtain ⟨token', hcurrent', rfl⟩ := State.isNext_iff.1 hnext'
  obtain ⟨rest', hs'⟩ := State.current?_eq_some_iff.1 hcurrent'
  have hahead := h.ahead
  rw [hs'] at hahead
  exact hnext (State.isNext_iff.2 ⟨_, congrArg List.head? hahead, rfl⟩)

/-- What binds loosely binds loosely in the excerpt too, where nothing may be left to bind. -/
theorem nextPower_le (h : c.Beside s s') (hleast : 0 ≤ least) (hs : nextPower s.ahead ≤ least) :
    nextPower s'.ahead ≤ least := by
  have hahead := h.ahead
  cases hs' : s'.ahead with
  | nil => exact hleast
  | cons token' rest' =>
    rw [hs'] at hahead
    rw [hahead] at hs
    exact hs

/-- What binds to the left binds in the excerpt too, while a token is left in it. -/
theorem tight (h : c.Beside s s') (hs : s.ahead ≠ c.rest)
    (htight : ¬(s.done ∨ (Program.setup source settings).power s ≤ least)) :
    ¬(s'.done ∨ (Program.setup c.text settings).power s' ≤ least) := by
  obtain ⟨token', hcurrent', hcurrent⟩ := h.exists_current? hs
  obtain ⟨rest', hs'⟩ := State.current?_eq_some_iff.1 hcurrent'
  obtain ⟨rest, hs⟩ := State.current?_eq_some_iff.1 hcurrent
  have hsame : nextPower (token'.shift c.start :: rest) = nextPower (token' :: rest') := rfl
  rw [h.line.power, hs, hsame] at htight
  rw [h.line'.power, hs']
  simpa [State.done, hs, hs'] using htight

theorem takes (h : c.Beside s s') (htoken : s.Takes token t) (hrest : c.rest <:+ t.ahead) :
    ∃ token' t', s'.Takes token' t' ∧ c.Shows token token' ∧ c.Beside t t' ∧ s.ahead ≠ c.rest := by
  have hs : s.ahead = token :: t.ahead := htoken.passes.ahead
  have hne := htoken.ne_of_suffix hrest
  obtain ⟨token', hcurrent', hcurrent⟩ := h.exists_current? hne
  obtain rfl : token = token'.shift c.start := Option.some.inj (htoken.1.symm.trans hcurrent)
  obtain ⟨rest', hs'⟩ := State.current?_eq_some_iff.1 hcurrent'
  have htoken' : s'.Takes token' s'.advance := ⟨hcurrent', rfl⟩
  have hmem : token' ∈ s'.ahead := hs' ▸ List.mem_cons_self
  refine ⟨token', _, htoken', h.shows token' hmem, ?_, hne⟩
  refine h.of_passes htoken.passes htoken'.passes ?_
  have hahead := h.ahead
  rw [hs, htoken'.passes.ahead] at hahead
  exact (List.cons.inj hahead).2

end Beside

/-- What is read of the excerpt where the task is carried out on the source. -/
inductive Corresponds (c : Excerpt source) : Task → Task → Prop
  | extension {least : Int} {left left' : Tree} (hleft : left = left'.shift c.start) :
      Corresponds c (.extension least left) (.extension least left')
  | start {rule : PrefixRule} {token token' : Token} (htoken : c.Shows token token') :
      Corresponds c (.start rule token) (.start rule token')
  | continuation {rule : InfixRule} {left left' : Tree} {token token' : Token}
      (hleft : left = left'.shift c.start) (htoken : c.Shows token token') :
      Corresponds c (.continuation rule left token) (.continuation rule left' token')
  | expression {least : Int} : Corresponds c (.expression least) (.expression least)
  | climb {least : Int} : Corresponds c (.climb least) (.climb least)
  | items {close : Kind} : Corresponds c (.items close) (.items close)
  | body : Corresponds c .body .body

/-- The trees may stand at the end of the excerpt, where a parameter list would need its arrow. -/
def Ends (c : Excerpt source) (out : List Tree) (t : State) : Prop :=
  t.ahead = c.rest → ∀ n ∈ out, n.AllFinished

/-- The task may end before the state; a sequence needs its bracket there. -/
def Complete (c : Excerpt source) (out : List Tree) (t : State) : Task → Prop
  | .items _ => t.ahead ≠ c.rest
  | _ => c.Ends out t

/-- The task has a rule of the default grammar, or asks for operators that bind to something. -/
def Allowed : Task → Prop
  | .expression least | .climb least | .extension least _ => 0 ≤ least
  | task => Program.Fits task

theorem Ends.children (h : c.Ends [n] t) (hchildren : ∀ m ∈ out, m ∈ n.children) : c.Ends out t :=
  fun ht m hm => (h ht n (List.mem_singleton_self n)).children m (hchildren m hm)

/-- The task is carried out on the excerpt too, if it ends within it, with the same trees but for their
positions. -/
def Follows (c : Excerpt source) (settings : Settings) (s : State) (out : List Tree) (t : State)
    (task : Task) : Prop :=
  ∀ task' s', c.Corresponds task task' → c.Beside s s' → c.rest <:+ t.ahead → c.Complete out t task →
    ∃ out' t', Run (Program.setup c.text settings) task' s' out' t' ∧
      out = out'.map (Tree.shift c.start) ∧ c.Beside t t'

namespace Follows

/-- A task that gives one tree is carried out if it gives one with the same nodes. -/
theorem of_one (h : ∀ task' s', c.Corresponds task task' → c.Beside s s' → c.rest <:+ t.ahead →
    c.Complete [n] t task → ∃ n' t', Run (Program.setup c.text settings) task' s' [n'] t' ∧
      n = n'.shift c.start ∧ c.Beside t t') :
    c.Follows settings s [n] t task := by
  intro task' s' htask hs hrest hcomplete
  obtain ⟨n', t', hrun, hn, ht⟩ := h task' s' htask hs hrest hcomplete
  exact ⟨[n'], t', hrun, congrArg ([·]) hn, ht⟩

theorem one (h : c.Follows settings s [n] t task) (htask : c.Corresponds task task') (hs : c.Beside s s')
    (hrest : c.rest <:+ t.ahead) (hcomplete : c.Complete [n] t task) :
    ∃ n' t', Run (Program.setup c.text settings) task' s' [n'] t' ∧ n = n'.shift c.start ∧
      c.Beside t t' := by
  obtain ⟨out', t', hrun, hout, ht⟩ := h task' s' htask hs hrest hcomplete
  obtain ⟨n', rfl, hn⟩ := List.map_eq_singleton_iff.1 hout.symm
  exact ⟨n', t', hrun, hn.symm, ht⟩

theorem bracketed (h : c.Follows settings s.openGroup items t task) (htask : c.Corresponds task task')
    (hs : c.Beside s s') (hstop : t.Closes close stop u) (hrest : c.rest <:+ u.ahead)
    (hcomplete : t.ahead ≠ c.rest → c.Complete items t task) :
    ∃ items' stop' t' u', Run (Program.setup c.text settings) task' s'.openGroup items' t' ∧
      t'.Closes close stop' u' ∧ c.Shows stop stop' ∧ items = items'.map (Tree.shift c.start) ∧
      c.Beside u u' := by
  obtain ⟨v, hv, htoken, hkind⟩ := hstop
  have hrest' : c.rest <:+ t.ahead := State.ahead_of_closeGroup? hv ▸ hrest.trans htoken.suffix
  have hne : t.ahead ≠ c.rest := State.ahead_of_closeGroup? hv ▸ htoken.ne_of_suffix hrest
  obtain ⟨items', t', hrun, hitems, ht⟩ := h task' s'.openGroup htask hs.openGroup hrest' (hcomplete hne)
  obtain ⟨ks, hpasses⟩ := hrun.passes
  obtain ⟨groups, rfl⟩ := State.eq_of_closeGroup? hv
  obtain ⟨stop', u', htoken', hshows, hu, _⟩ := (ht.withGroups groups hs.groups).takes htoken hrest
  exact ⟨items', stop', t', u', hrun,
    ⟨_, State.closeGroup?_of_passes hpasses hs.groups, htoken', hshows.kind_eq ▸ hkind⟩, hshows, hitems, hu⟩

end Follows

/-- Where a tree ends the excerpt, it is not extended. -/
theorem ends_of_extension {setup : Setup PrefixRule InfixRule}
    (h : Run setup (.extension least left) s [n] t) (hrest : c.rest <:+ t.ahead) (hends : c.Ends [n] t) :
    c.Ends [left] s := by
  intro hs
  cases h with
  | stop => exact hends hs
  | next _ htoken _ hcontinuation hextension =>
    have hlength := hrest.length_le
    have hpasses := ((State.passes_skipGroupedLineBreaks s).trans htoken.passes).length_ahead
    have := hcontinuation.length_ahead_le
    have := hextension.length_ahead_le
    rw [hs] at hpasses
    simp only [List.length_append, List.length_singleton] at hpasses
    omega

theorem power_pred_nonneg {kind : Kind} (h : kind = .assignment) : 0 ≤ Program.power kind - 1 := by
  subst h
  decide

theorem follows_of_run (h : Run (Program.setup source settings) task s out t) (htask : Allowed task)
    (c : Excerpt source) : c.Follows settings s out t task := by
  -- both sides carry out the same steps; only the end of the excerpt can come between, and `hrest` and `hends`
  -- say that the task is over by then
  induction h with
  | nested hdepth _ ih =>
    refine .of_one ?_
    rintro task' s' ⟨⟩ hs hrest hends
    obtain ⟨n', t', hrun, hn, ht⟩ :=
      (ih htask).one .climb (hs.withDepth (Nat.succ_le_succ hs.depth)) hrest hends
    exact ⟨n', _, .nested (Nat.lt_of_le_of_lt hs.depth hdepth) hrun, hn,
      ht.withDepth (Nat.sub_le_sub_right ht.depth 1)⟩
  | first htoken hrule hstart hextension ih ih' =>
    refine .of_one ?_
    rintro task' s' ⟨⟩ hs hrest hends
    have hrest' := hrest.trans hextension.suffix
    rw [hs.line.skipGroupedLineBreaks] at htoken
    obtain ⟨token', t', htoken', hshows, ht, _⟩ := hs.takes htoken (hrest'.trans hstart.suffix)
    obtain ⟨left', u', hstart', hleft, hu⟩ := (ih (Program.fits_start hrule)).one (.start hshows) ht hrest'
      (ends_of_extension hextension hrest hends)
    obtain ⟨n', v', hextension', hn, hv⟩ := (ih' htask).one (.extension hleft) hu hrest hends
    rw [← hs.line'.skipGroupedLineBreaks] at htoken'
    rw [hshows.kind_eq] at hrule
    exact ⟨n', v', .first htoken' hrule hstart' hextension', hn, hv⟩
  | stop hloose =>
    refine .of_one ?_
    rintro task' s' ⟨hleft⟩ hs hrest hends
    refine ⟨_, s', .stop (.inr ?_), hleft, hs⟩
    rw [hs.line'.power]
    exact hs.nextPower_le htask (hs.line.nextPower_le htask hloose)
  | @next _ _ _ _ _ left _ _ token rule htight htoken hrule hcontinuation hextension ih ih' =>
    refine .of_one ?_
    rintro task' s' ⟨hleft⟩ hs hrest hends
    have hrest' := hrest.trans hextension.suffix
    rw [hs.line.skipGroupedLineBreaks] at htoken
    obtain ⟨token', t', htoken', hshows, ht, hne⟩ := hs.takes htoken (hrest'.trans hcontinuation.suffix)
    have hfits : Program.Fits (.continuation rule left token) := Program.fits_continuation hrule
    obtain ⟨longer', u', hcontinuation', hlonger, hu⟩ := (ih hfits).one (.continuation hleft hshows) ht
      hrest' (ends_of_extension hextension hrest hends)
    obtain ⟨n', v', hextension', hn, hv⟩ := (ih' htask).one (.extension hlonger) hu hrest hends
    rw [← hs.line'.skipGroupedLineBreaks] at htoken'
    rw [hshows.kind_eq] at hrule
    exact ⟨n', v', .next (hs.tight hne htight) htoken' hrule hcontinuation' hextension', hn, hv⟩
  | identifier =>
    refine .of_one ?_
    rintro task' s' (_ | htoken) hs _ _
    refine ⟨_, s', .identifier, ?_, hs⟩
    simp only [Tree.shift, htoken.span_eq, Program.setup_source, htoken.text]
  | number hvalue =>
    refine .of_one ?_
    rintro task' s' (_ | htoken) hs _ _
    rw [Program.setup_source, ← htoken.text] at hvalue
    exact ⟨_, s', .number hvalue, by simp only [Tree.shift, htoken.span_eq], hs⟩
  | string hinside =>
    refine .of_one ?_
    rintro task' s' (_ | htoken) hs _ _
    rw [Program.setup_source, ← htoken.text] at hinside
    exact ⟨_, s', .string hinside, by simp only [Tree.shift, htoken.span_eq], hs⟩
  | boolean =>
    refine .of_one ?_
    rintro task' s' (_ | htoken) hs _ _
    exact ⟨_, s', .boolean, by simp only [Tree.shift, htoken.span_eq, htoken.kind_eq], hs⟩
  | unary hoperator _ ih =>
    refine .of_one ?_
    rintro task' s' (_ | htoken) hs hrest hends
    obtain ⟨operand', t', hoperand', hoperand, ht⟩ :=
      (ih (by decide : (0 : Int) ≤ Level.unary.power)).one .expression hs hrest
        (hends.children (by simp [Tree.children]))
    rw [htoken.kind_eq] at hoperator
    refine ⟨_, t', .unary hoperator hoperand', ?_, ht⟩
    simp only [Tree.shift, hoperand, htoken.span_eq, Tree.span_shift, Span.through, Span.shift]
  | parameters _ hstop harrow hnames ih =>
    refine .of_one ?_
    rintro task' s' (_ | htoken) hs hrest hends
    obtain ⟨items', stop', t', u', hitems', hstop', hshows, rfl, hu⟩ :=
      (ih trivial).bracketed .items hs hstop hrest id
    -- the arrow behind the list is in the excerpt: what ends it is a finished tree
    have hopen : _ ≠ c.rest := fun hrest => (hends hrest _ (List.mem_singleton_self _)).finished
    rw [Tree.map_name?_shift] at hnames
    refine ⟨_, u', .parameters hitems' hstop' (hu.isNext harrow hopen) hnames, ?_, hu⟩
    simp only [Tree.shift, htoken.span_eq, hshows.span_eq, Span.through, Span.shift]
  | grouping _ hstop harrow ih =>
    refine .of_one ?_
    rintro task' s' (_ | htoken) hs hrest hends
    obtain ⟨items', stop', t', u', hitems', hstop', hshows, hitems, hu⟩ :=
      (ih trivial).bracketed .items hs hstop hrest id
    obtain ⟨item', rfl, rfl⟩ := List.map_eq_singleton_iff.1 hitems.symm
    refine ⟨_, u', .grouping hitems' hstop' (hu.not_isNext harrow), ?_, hu⟩
    simp only [Tree.shift_withSpan, htoken.span_eq, hshows.span_eq, Span.through, Span.shift]
  | list _ hstop ih =>
    refine .of_one ?_
    rintro task' s' (_ | htoken) hs hrest hends
    obtain ⟨items', stop', t', u', hitems', hstop', hshows, rfl, hu⟩ :=
      (ih trivial).bracketed .items hs hstop hrest id
    refine ⟨_, u', .list hitems' hstop', ?_, hu⟩
    simp only [Tree.shift, Tree.shiftAll_eq_map, htoken.span_eq, hshows.span_eq, Span.through, Span.shift]
  | binary hoperator _ ih =>
    refine .of_one ?_
    rintro task' s' (_ | _ | ⟨rfl, htoken⟩) hs hrest hends
    rw [Program.setup_power] at ih
    obtain ⟨right', t', hright', rfl, ht⟩ := (ih (Program.power_nonneg _)).one .expression hs hrest
      (hends.children (by simp [Tree.children]))
    rw [htoken.kind_eq] at hoperator hright'
    refine ⟨_, t', .binary hoperator (by rwa [Program.setup_power]), ?_, ht⟩
    simp only [Tree.shift, Tree.span_shift, Span.through, Span.shift]
  | assignment htarget _ ih =>
    refine .of_one ?_
    rintro task' s' (_ | _ | ⟨rfl, htoken⟩) hs hrest hends
    rw [Program.setup_power] at ih
    have hkind := Program.kind_of_infixRule htask
    obtain ⟨value', t', hvalue', rfl, ht⟩ := (ih (power_pred_nonneg hkind)).one .expression hs hrest
      (hends.children (by simp [Tree.children]))
    rw [htoken.kind_eq] at hvalue'
    rw [Tree.isAssignable_shift] at htarget
    refine ⟨_, t', .assignment htarget (by rwa [Program.setup_power]), ?_, ht⟩
    simp only [Tree.shift, Tree.span_shift, Span.through, Span.shift]
  | conditional _ ih =>
    refine .of_one ?_
    rintro task' s' (_ | _ | ⟨rfl, htoken⟩) hs hrest hends
    obtain ⟨trees', t', hbody', rfl, ht⟩ := ih trivial _ _ .body hs hrest
      (hends.children fun _ => List.mem_cons_of_mem _)
    refine ⟨_, t', .conditional hbody', ?_, ht⟩
    simp only [Tree.shift, Tree.shiftAll_eq_map, Tree.span_shift, Reader.spanThrough_shift]
  | function hnames _ ih =>
    refine .of_one ?_
    rintro task' s' (_ | _ | ⟨rfl, htoken⟩) hs hrest hends
    obtain ⟨trees', t', hbody', rfl, ht⟩ := ih trivial _ _ .body hs hrest (hends.children fun _ => id)
    rw [Tree.parameters?_shift] at hnames
    refine ⟨_, t', .function hnames hbody', ?_, ht⟩
    simp only [Tree.shift, Tree.shiftAll_eq_map, Tree.span_shift, Reader.spanThrough_shift]
  | call _ hstop ih =>
    refine .of_one ?_
    rintro task' s' (_ | _ | ⟨rfl, htoken⟩) hs hrest hends
    obtain ⟨items', stop', t', u', hitems', hstop', hshows, rfl, hu⟩ :=
      (ih trivial).bracketed .items hs hstop hrest id
    refine ⟨_, u', .call hitems' hstop', ?_, hu⟩
    simp only [Tree.shift, Tree.shiftAll_eq_map, Tree.span_shift, hshows.span_eq, Span.through, Span.shift]
  | @index _ _ _ t _ _ _ hitem hstop ih =>
    refine .of_one ?_
    rintro task' s' (_ | _ | ⟨rfl, htoken⟩) hs hrest hends
    obtain ⟨ks, hpasses⟩ := hitem.passes
    rw [(hs.line.openGroup.passes hpasses).skipLineBreaks] at hstop
    obtain ⟨items', stop', t', u', hitems', hstop', hshows, hitems, hu⟩ :=
      (ih (Int.le_refl 0)).bracketed .expression hs hstop hrest fun hopen hrest => absurd hrest hopen
    obtain ⟨item', rfl, rfl⟩ := List.map_eq_singleton_iff.1 hitems.symm
    obtain ⟨ks', hpasses'⟩ := hitems'.passes
    rw [← (hs.line'.openGroup.passes hpasses').skipLineBreaks] at hstop'
    refine ⟨_, u', .index hitems' hstop', ?_, hu⟩
    simp only [Tree.shift, Tree.span_shift, hshows.span_eq, Span.through, Span.shift]
  | noItems hclosed =>
    rintro task' s' ⟨⟩ hs hrest hopen
    rw [hs.line.skipLineBreaks] at hclosed hopen ⊢
    have hclosed' := hs.isNext hclosed hopen
    rw [← hs.line'.skipLineBreaks] at hclosed'
    exact ⟨_, _, .noItems hclosed', rfl, by rwa [hs.line'.skipLineBreaks]⟩
  | lastItem hopen hitem hlast ih =>
    rintro task' s' ⟨⟩ hs hrest hclosed
    rw [hs.line.skipLineBreaks] at hopen hitem ih
    obtain ⟨ks, hpasses⟩ := hitem.passes
    rw [(hs.line.passes hpasses).skipLineBreaks] at hlast hrest hclosed ⊢
    obtain ⟨item', t', hitem', rfl, ht⟩ := (ih (Int.le_refl 0)).one .expression hs hrest
      fun hrest => absurd hrest hclosed
    have hopen' := hs.not_isNext hopen
    have hlast' := ht.not_isNext hlast
    rw [← hs.line'.skipLineBreaks] at hitem' hopen'
    rw [← ht.line'.skipLineBreaks] at hlast'
    exact ⟨_, _, .lastItem hopen' hitem' hlast', rfl, by rwa [ht.line'.skipLineBreaks]⟩
  | item hopen hitem hcomma hkind hitems ih ih' =>
    rintro task' s' ⟨⟩ hs hrest hclosed
    rw [hs.line.skipLineBreaks] at hopen hitem ih
    obtain ⟨ks, hpasses⟩ := hitem.passes
    rw [(hs.line.passes hpasses).skipLineBreaks] at hcomma
    have hrest' := hrest.trans hitems.suffix
    obtain ⟨item', t', hitem', rfl, ht⟩ := (ih (Int.le_refl 0)).one .expression hs
      (hrest'.trans hcomma.suffix) fun hrest => absurd hrest (hcomma.ne_of_suffix hrest')
    obtain ⟨comma', u', hcomma', hshows, hu, _⟩ := ht.takes hcomma hrest'
    obtain ⟨items', v', hitems', rfl, hv⟩ := ih' trivial _ _ .items hu hrest hclosed
    have hopen' := hs.not_isNext hopen
    rw [← hs.line'.skipLineBreaks] at hitem' hopen'
    rw [← ht.line'.skipLineBreaks] at hcomma'
    exact ⟨_, v', .item hopen' hitem' hcomma' (hshows.kind_eq ▸ hkind) hitems', rfl, hv⟩
  | noTokens hdone | outdent | statement =>
    rintro task' s' ⟨⟩
  | inlineBody hinline _ ih =>
    refine .of_one ?_
    rintro task' s' ⟨⟩ hs hrest hends
    obtain ⟨tree', t', htree', htree, ht⟩ := (ih (Int.le_refl 0)).one .expression hs hrest hends
    exact ⟨_, t', .inlineBody (hs.not_isNext hinline) htree', htree, ht⟩
  | indentedBody hbreak _ _ _ _ _ =>
    rintro task' s' ⟨⟩ hs
    obtain ⟨token, hcurrent, hkind⟩ := State.isNext_iff.1 hbreak
    exact absurd hkind (hs.line.ahead token (List.mem_of_mem_head? hcurrent))

end Excerpt

end Offside
