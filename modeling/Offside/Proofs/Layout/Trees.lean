import Offside.Proofs.Layout.Reading

set_option autoImplicit false

/-!
# Reading trees back

For each kind of tree: what is written for it is read as the tree. A tree is read in two places, as an
operand, in parentheses or not, and as a statement; either follows from how it is read as a whole
expression, and that from how its children are read in the places where they stand.
-/
namespace Offside

open Reading
open Run (Starts)

/-- The state stands inside `k` blocks of the layout. -/
structure Inside (l : Layout) (k : Nat) (s : State) : Prop where
  step : s.indentation.step = l.width
  current : s.indentation.current = k * l.width
  groups : s.groups ≠ []

namespace Inside

variable {l : Layout} {k : Nat} {s t : State} {ks : List Token}

theorem passes (h : Inside l k s) (hp : s.Passes ks t) : Inside l k t where
  step := by rw [hp.indentation, h.step]
  current := by rw [hp.indentation, h.current]
  groups := by
    rw [hp.groups]
    exact h.groups

theorem openGroup (h : Inside l k s) : Inside l k s.openGroup := by
  obtain ⟨n, outer, hs⟩ := List.exists_cons_of_ne_nil h.groups
  have ho : s.openGroup = { s with groups := (n + 1) :: outer } := by simp [State.openGroup, hs]
  rw [ho]
  exact ⟨h.step, h.current, List.cons_ne_nil _ _⟩

theorem openBlock (h : Inside l k s) : Inside l (k + 1) s.openBlock where
  step := h.step
  current := by
    change s.indentation.current + s.indentation.step = (k + 1) * l.width
    rw [h.current, h.step, Nat.succ_mul]
  groups := List.cons_ne_nil _ _

theorem deeper (h : Inside l k s) : Inside l k { s with depth := s.depth + 1 } :=
  ⟨h.step, h.current, h.groups⟩

end Inside

namespace Layout

theorem width_pos (l : Layout) : 0 < l.width := by
  have h := l.closing_lt 0
  rw [Nat.zero_add, Nat.one_mul] at h
  exact Nat.lt_of_le_of_lt (Nat.zero_le _) h

variable {l : Layout} {k : Nat}

/-- The text of an operand starts with a token. -/
theorem exists_word_operand (l : Layout) (k : Nat) (t : Tree) :
    ∃ kind text ps, l.operand k t (l.print k t) = .word kind text :: ps := by
  unfold operand
  by_cases h : l.encloses t
  · rw [if_pos h]
    exact ⟨_, _, _, rfl⟩
  · rw [if_neg h]
    cases t with
    | boolean span value => cases value <;> exact ⟨_, _, _, rfl⟩
    | identifier _ _ | number _ _ | string _ _ | list _ _ => exact ⟨_, _, _, rfl⟩
    | _ => exact absurd rfl h

/-- The text of a tree starts with a token. -/
theorem exists_word_print (l : Layout) (k : Nat) (t : Tree) :
    ∃ kind text ps, l.print k t = .word kind text :: ps := by
  have hoperand : ∀ (t : Tree) (qs : List Piece),
      ∃ kind text ps, l.operand k t (l.print k t) ++ qs = .word kind text :: ps := by
    intro t qs
    obtain ⟨kind, text, ps, h⟩ := l.exists_word_operand k t
    rw [h]
    exact ⟨kind, text, ps ++ qs, rfl⟩
  cases t with
  | boolean span value => cases value <;> exact ⟨_, _, _, rfl⟩
  | call _ _ _ | index _ _ _ | binary _ _ _ _ | assign _ _ _ | conditional _ _ _ => exact hoperand _ _
  | _ => exact ⟨_, _, _, rfl⟩

/-- A block starts with a line break and a token behind it. -/
theorem dedents_lines {level : Nat} {rest : List Piece} (l : Layout) (k : Nat) (ts : List Tree)
    (hlevel : k * l.width < level) (hrest : Dedents level rest) :
    Dedents level (l.lines k ts ++ rest) := by
  cases ts with
  | nil => exact hrest
  | cons t ts =>
    obtain ⟨kind, text, ps, h⟩ := l.exists_word_print k t
    rw [lines, h]
    exact .line hlevel

end Layout

variable (source : String) (settings : Settings) (l : Layout)

/-- The pieces are read as the start of an expression that is the tree. -/
def ReadsStart (k : Nat) (ps : List Piece) (t : Tree) (room : Nat) : Prop :=
  ∀ s rest, Inside l k s → s.depth + room ≤ settings.maxDepth → Written source (ps ++ rest) s.ahead →
    (∀ text qs, rest ≠ .word .arrow text :: qs) →
    ∃ left u ks, left.bare = t.bare ∧
      (∀ least, Starts (Program.setup source settings) least s left u) ∧ s.Passes ks u ∧
      Written source rest u.ahead ∧ u.afterLineBreak = false

/-- The pieces are read as an expression that is the tree, from operators of the given power on. -/
def ReadsExpression (k : Nat) (ps : List Piece) (t : Tree) (room : Nat) (least : Int) : Prop :=
  ∀ s rest, Inside l k s → s.depth + room ≤ settings.maxDepth → Written source (ps ++ rest) s.ahead →
    Stops s rest →
    ∃ n u, n.bare = t.bare ∧ Run (Program.setup source settings) (.expression least) s [n] u ∧
      Written source rest u.ahead ∧ u.afterLineBreak = false

/-- The pieces are read as the tree by a climb inside an expression. -/
def ReadsClimb (k : Nat) (ps : List Piece) (t : Tree) (room : Nat) (least : Int) : Prop :=
  ∀ s rest, Inside l k s → s.depth + room ≤ settings.maxDepth → Written source (ps ++ rest) s.ahead →
    Stops s rest →
    ∃ n u, n.bare = t.bare ∧ Run (Program.setup source settings) (.climb least) s [n] u ∧
      Written source rest u.ahead ∧ u.afterLineBreak = false

/-- What is written for the tree is read as an expression that ends with a block. -/
def ReadsBlock (t : Tree) : Prop :=
  ∀ k s rest, Inside l k s → s.depth + l.room t ≤ settings.maxDepth →
    Written source (l.print k t ++ rest) s.ahead → Stops s rest → Dedents ((k + 1) * l.width) rest →
    ∃ n u, n.bare = t.bare ∧ Run (Program.setup source settings) (.expression 0) s [n] u ∧
      AtLine source u rest ∧ (u.done ∨ u.afterLineBreak)

/-- What is written for the tree is read as an operand. -/
def ReadsOperand (t : Tree) : Prop :=
  ∀ k, ReadsStart source settings l k (l.operand k t (l.print k t)) t (l.operandRoom t (l.room t))

/-- What is written for the tree is read as a statement. -/
def ReadsStatement (t : Tree) : Prop :=
  ∀ k s rest, Inside l k s → ¬s.inGroup → s.depth + l.room t ≤ settings.maxDepth →
    Written source (l.print k t ++ rest) s.ahead → Dedents ((k + 1) * l.width) rest →
    ∃ n u v, n.bare = t.bare ∧ Run (Program.setup source settings) (.expression 0) s [n] u ∧
      u.EndsLine v ∧ AtLine source v rest ∧ (v.done ∨ v.afterLineBreak)

variable {source settings l} {k : Nat} {s t u v : State} {token : Token} {kind : Kind}
  {text : List Char} {ps qs rest : List Piece} {ks : List Token} {tree : Tree} {room : Nat}
  {least : Int}

/-! ### Steps -/

/-- The next piece starts an expression. -/
theorem Written.starts (h : Written source (.word kind text :: ps) s.ahead)
    (htoken : s.Takes token t) {rule : PrefixRule} (hrule : Program.prefixRule? token.kind = some rule)
    {left : Tree} (hstart : Run (Program.setup source settings) (.start rule token) t [left] u)
    (least : Int) : Starts (Program.setup source settings) least s left u := by
  intro v n hextension
  refine .first ?_ (Program.setup_prefixRule?.trans hrule) hstart hextension
  rwa [h.skipGroupedLineBreaks]

/-- The next piece continues an expression. -/
theorem Written.continues (h : Written source (.word kind text :: ps) s.ahead)
    (hs : s.afterLineBreak = false) (hless : least < Program.power kind) (htoken : s.Takes token t)
    {rule : InfixRule} (hrule : (Program.infixRule? token.kind).map Prod.snd = some rule)
    {left longer n : Tree}
    (hcontinuation : Run (Program.setup source settings) (.continuation rule left token) t [longer] u)
    (hextension : Run (Program.setup source settings) (.extension least longer) u [n] v) :
    Run (Program.setup source settings) (.extension least left) s [n] v := by
  refine .next ?_ ?_ (Program.setup_infixRule?.trans hrule) hcontinuation hextension
  · have hahead : s.ahead = token :: t.ahead := htoken.passes.ahead
    rw [h.power hs]
    simpa [State.done, hahead] using hless
  · rwa [h.skipGroupedLineBreaks]

/-- The next piece closes the bracket that is open. -/
theorem Written.closes (h : Written source (.word kind text :: ps) t.ahead)
    (hp : s.openGroup.Passes ks t) (hs : s.groups ≠ []) :
    ∃ stop u, t.Closes kind stop u ∧ s.Passes (ks ++ [stop]) u ∧ Written source ps u.ahead ∧
      u.afterLineBreak = false := by
  obtain ⟨n, outer, hgroups⟩ := List.exists_cons_of_ne_nil hs
  have ho : s.openGroup.groups = (n + 1) :: outer := by simp [State.openGroup, hgroups]
  have hclose : t.closeGroup? = some { t with groups := n :: outer } := by
    simp [State.closeGroup?, hp.groups, ho]
  obtain ⟨stop, u, htakes, hkind, _, hrest, hline⟩ :=
    @Written.takes source { t with groups := n :: outer } _ _ _ h
  have hcloses : t.Closes kind stop u := ⟨_, hclose, htakes, hkind⟩
  exact ⟨stop, u, hcloses, hcloses.passes hp, hrest, hline⟩

/-- A start that nothing continues is a climb. -/
theorem ReadsStart.climb (h : ReadsStart source settings l k ps tree room) (hleast : 0 ≤ least) :
    ReadsClimb source settings l k ps tree room least := by
  intro s rest hs hdepth hwritten hstops
  obtain ⟨left, u, ks, hleft, hstarts, hp, hrest, hline⟩ :=
    h s rest hs hdepth hwritten hstops.ne_arrow
  exact ⟨left, u, hleft, hstarts least _ _ ((hstops.of_inGroup hp.inGroup).stop hrest hleast), hrest,
    hline⟩

/-- A climb needs the room of one more expression around it. -/
theorem ReadsClimb.expression (h : ReadsClimb source settings l k ps tree room least) :
    ReadsExpression source settings l k ps tree (1 + room) least := by
  intro s rest hs hdepth hwritten hstops
  obtain ⟨n, u, hn, hrun, hrest, hline⟩ :=
    h { s with depth := s.depth + 1 } rest hs.deeper (by change s.depth + 1 + room ≤ _; omega)
      hwritten (hstops.of_inGroup rfl)
  exact ⟨n, _, hn, .nested (by rw [Program.setup_settings]; omega) hrun, hrest, hline⟩

theorem ReadsStart.expression (h : ReadsStart source settings l k ps tree room) (hleast : 0 ≤ least) :
    ReadsExpression source settings l k ps tree (1 + room) least := (h.climb hleast).expression

/-! ### Bracketed sequences -/

/-- Expressions with commas between them are read as a sequence up to its closing bracket. -/
theorem items_of_reads {α : Type} (f : α → List Piece) (g : α → Tree) {room : Nat} (xs : List α)
    (hword : ∀ x ∈ xs, ∃ kind text qs, f x = .word kind text :: qs)
    (hreads : ∀ x ∈ xs, ReadsExpression source settings l k (f x) (g x) room 0) {close : Kind}
    (hclose : close = .closeParen ∨ close = .closeBracket) (hs : Inside l k s)
    (hdepth : s.depth + room ≤ settings.maxDepth)
    (hwritten : Written source (Piece.separated (xs.map f) ++ .word close text :: rest) s.ahead) :
    ∃ items u, items.map Tree.bare = xs.map (fun x => (g x).bare) ∧
      Run (Program.setup source settings) (.items close) s items u ∧
      Written source (.word close text :: rest) u.ahead := by
  have hloose : Program.power close ≤ 0 := by rcases hclose with rfl | rfl <;> decide
  have hskip : ∀ x ∈ xs, ∀ {s : State} {qs : List Piece}, Written source (f x ++ qs) s.ahead →
      s.skipLineBreaks = s := by
    intro x hx s qs h
    obtain ⟨kind, text, qs', hf⟩ := hword x hx
    rw [hf] at h
    exact h.skipLineBreaks
  induction xs generalizing s with
  | nil =>
    have hnext := hwritten.skipLineBreaks
    refine ⟨[], s.skipLineBreaks, rfl, .noItems ?_, ?_⟩
    · rw [hnext]
      exact hwritten.isNext
    · rwa [hnext]
  | cons x xs ih =>
    rw [List.forall_mem_cons] at hreads
    cases xs with
    | nil =>
      obtain ⟨item, u, hitem, hrun, hrest, _⟩ := hreads.1 s _ hs hdepth hwritten (.word hloose)
      have hskip' := hskip x List.mem_cons_self hwritten
      have hlast : ¬u.skipLineBreaks.isNext .comma := by
        rw [hrest.skipLineBreaks]
        exact fun hcomma => Kind.ne_comma hclose (State.kind_eq_of_isNext hrest.isNext hcomma)
      refine ⟨[item], u.skipLineBreaks, by simp [hitem], .lastItem ?_ ?_ hlast, ?_⟩
      · rw [hskip']
        exact hrun.not_isNext_close hclose
      · rwa [hskip']
      · rwa [hrest.skipLineBreaks]
    | cons y ys =>
      rw [List.map_cons, List.map_cons, Piece.separated, List.append_assoc] at hwritten
      obtain ⟨item, u, hitem, hrun, hcomma, _⟩ :=
        hreads.1 s _ hs hdepth hwritten (.word (by decide))
      obtain ⟨comma, v, htakes, hkind, _, hrest, _⟩ := hcomma.takes
      obtain ⟨ks, hp⟩ := hrun.passes
      have hpasses := hp.trans htakes.passes
      obtain ⟨items, w, hitems, hrun', hlast⟩ := ih
        (fun x hx => hword x (List.mem_cons_of_mem _ hx)) hreads.2 (hs.passes hpasses)
        (by rw [hpasses.depth]; exact hdepth) hrest
        (fun x hx => hskip x (List.mem_cons_of_mem _ hx))
      have hskip' := hskip x List.mem_cons_self hwritten
      refine ⟨item :: items, w, by simp [hitem, hitems], .item (t := u) ?_ ?_ ?_ hkind hrun', hlast⟩
      · rw [hskip']
        exact hrun.not_isNext_close hclose
      · rwa [hskip']
      · rwa [hcomma.skipLineBreaks]

theorem le_itemsRoom {ts : List Tree} (h : tree ∈ ts) :
    1 + l.operandRoom tree (l.room tree) ≤ l.itemsRoom ts := by
  induction ts with
  | nil => cases h
  | cons t ts ih =>
    rw [Layout.itemsRoom]
    rcases List.mem_cons.1 h with rfl | h
    · exact Nat.le_max_left _ _
    · exact Nat.le_trans (ih h) (Nat.le_max_right _ _)

theorem ReadsExpression.of_le {room' : Nat} (h : ReadsExpression source settings l k ps tree room least)
    (hle : room ≤ room') : ReadsExpression source settings l k ps tree room' least := by
  intro s rest hs hdepth
  exact h s rest hs (by omega)

/-- A bracket with operands in it is read as a sequence, and closed. -/
theorem items_of_operands {ts : List Tree} (h : ∀ t ∈ ts, ReadsOperand source settings l t)
    {close : Kind} (hclose : close = .closeParen ∨ close = .closeBracket) (hs : Inside l k s)
    (hdepth : s.depth + l.itemsRoom ts ≤ settings.maxDepth)
    (hwritten : Written source
      (Piece.separated (l.operands k ts) ++ .sign close :: rest) s.ahead) :
    ∃ items t stop u ks, items.map Tree.bare = ts.map Tree.bare ∧
      Run (Program.setup source settings) (.items close) s.openGroup items t ∧
      t.Closes close stop u ∧ s.Passes ks u ∧ Written source rest u.ahead ∧
      u.afterLineBreak = false := by
  rw [Layout.operands_eq_map] at hwritten
  rw [← State.ahead_openGroup] at hwritten
  obtain ⟨items, t, hitems, hrun, hstop⟩ := items_of_reads _ id ts
    (fun t _ => l.exists_word_operand k t)
    (fun t ht => ((h t ht k).expression (Int.le_refl 0)).of_le (le_itemsRoom ht)) hclose hs.openGroup
    (by rw [State.depth_openGroup]; exact hdepth) hwritten
  obtain ⟨ks, hp⟩ := hrun.passes
  obtain ⟨stop, u, hcloses, hp', hrest, hline⟩ := hstop.closes hp hs.groups
  exact ⟨items, t, stop, u, _, hitems, hrun, hcloses, hp', hrest, hline⟩

/-! ### Operands in parentheses -/

theorem Written.not_isNext_arrow (h : Written source rest s.ahead)
    (harrow : ∀ text qs, rest ≠ .word .arrow text :: qs) : ¬s.isNext .arrow := by
  intro hnext
  cases rest with
  | nil =>
    cases hs : s.ahead with
    | nil => simp [State.isNext, State.current?, hs] at hnext
    | cons token ts =>
      rw [hs] at h
      cases h
  | cons p ps =>
    cases p with
    | word kind text =>
      cases State.kind_eq_of_isNext h.isNext hnext
      exact harrow text ps rfl
    | line column =>
      obtain ⟨token, t, htakes, hkind, _⟩ := h.takes_line
      have hline := htakes.isNext
      rw [hkind] at hline
      cases State.kind_eq_of_isNext hline hnext

/-- A parenthesis around an expression is read as the start of one. -/
theorem Written.group {item : Tree} (h : Written source (.sign .openParen :: ps) s.ahead)
    (hs : Inside l k s) (htoken : s.Takes token t) (hkind : token.kind = .openParen)
    (hword : Written source (.word kind text :: qs) t.openGroup.ahead)
    (hitem : Run (Program.setup source settings) (.expression 0) t.openGroup [item] u)
    (hstop : Written source (.sign .closeParen :: rest) u.ahead)
    (harrow : ∀ text qs, rest ≠ .word .arrow text :: qs) :
    ∃ left v ks, left.bare = item.bare ∧
      (∀ least, Starts (Program.setup source settings) least s left v) ∧ s.Passes ks v ∧
      Written source rest v.ahead ∧ v.afterLineBreak = false := by
  obtain ⟨ks, hp⟩ := hitem.passes
  have hgroups := (hs.passes htoken.passes).groups
  obtain ⟨stop, v, hcloses, hp', hrest, hline⟩ := hstop.closes hp hgroups
  have hitems : Run (Program.setup source settings) (.items .closeParen) t.openGroup [item] u := by
    rw [← hstop.skipLineBreaks]
    refine .lastItem ?_ ?_ ?_
    · rw [hword.skipLineBreaks]
      exact hitem.not_isNext_close (.inl rfl)
    · rwa [hword.skipLineBreaks]
    · rw [hstop.skipLineBreaks]
      intro hcomma
      cases State.kind_eq_of_isNext hstop.isNext hcomma
  refine ⟨item.withSpan (token.span.through stop.span), v, _, Tree.bare_withSpan _ _, ?_,
    htoken.passes.trans hp', hrest, hline⟩
  exact h.starts htoken (by rw [hkind]; rfl)
    (.grouping hitems hcloses (hrest.not_isNext_arrow harrow))

/-- A tree that is put in parentheses is read as an operand if it is read as an expression there. -/
theorem operand_of_enclosed (henclosed : l.encloses tree)
    (h : ∀ k s rest, Inside l k s → s.depth + l.room tree ≤ settings.maxDepth →
      Written source (l.print k tree ++ (l.ending k tree ++ .sign .closeParen :: rest)) s.ahead →
      ∃ n u, n.bare = tree.bare ∧ Run (Program.setup source settings) (.expression 0) s [n] u ∧
        Written source (.sign .closeParen :: rest) u.ahead) :
    ReadsOperand source settings l tree := by
  intro k s rest hs hdepth hwritten harrow
  rw [Layout.operandRoom, if_pos henclosed] at hdepth
  rw [Layout.operand, if_pos henclosed, List.cons_append, List.append_assoc,
    List.append_assoc] at hwritten
  obtain ⟨start, u, htakes, hkind, _, hinner, _⟩ := hwritten.takes
  rw [← State.ahead_openGroup] at hinner
  obtain ⟨item, v, hitem, hrun, hstop⟩ := h k u.openGroup rest (hs.passes htakes.passes).openGroup
    (by rw [State.depth_openGroup, htakes.passes.depth]; exact hdepth) hinner
  obtain ⟨kind, text, qs, hprint⟩ := l.exists_word_print k tree
  rw [hprint] at hinner
  obtain ⟨left, w, ks, hleft, hrest⟩ := hwritten.group hs htakes hkind hinner hrun hstop harrow
  exact ⟨left, w, ks, hleft.trans hitem, hrest⟩

theorem operand_of_flat (henclosed : l.encloses tree) (hflat : tree.endsInBlock = false)
    (h : ∀ k, ReadsExpression source settings l k (l.print k tree) tree (l.room tree) 0) :
    ReadsOperand source settings l tree := by
  apply operand_of_enclosed henclosed
  intro k s rest hs hdepth hwritten
  rw [Layout.ending, hflat] at hwritten
  obtain ⟨n, u, hn, hrun, hrest, _⟩ := h k s _ hs hdepth hwritten (.word (by decide))
  exact ⟨n, u, hn, hrun, hrest⟩

theorem operand_of_block (henclosed : l.encloses tree) (hblock : tree.endsInBlock)
    (h : ReadsBlock source settings l tree) : ReadsOperand source settings l tree := by
  apply operand_of_enclosed henclosed
  intro k s rest hs hdepth hwritten
  rw [Layout.ending, hblock] at hwritten
  obtain ⟨n, u, hn, hrun, hrest, _⟩ :=
    h k s _ hs hdepth hwritten (.closed (by decide)) (.line (l.closing_lt k))
  exact ⟨n, u, hn, hrun, hrest.written⟩

theorem operand_of_start (hplain : l.encloses tree = false)
    (h : ∀ k, ReadsStart source settings l k (l.print k tree) tree (l.room tree - 1)) :
    ReadsOperand source settings l tree := by
  intro k
  rw [Layout.operandRoom, Layout.operand, hplain]
  exact h k

/-! ### Statements and blocks -/

theorem statement_of_flat
    (h : ∀ k, ReadsExpression source settings l k (l.print k tree) tree (l.room tree) 0) :
    ReadsStatement source settings l tree := by
  intro k s rest hs hout hdepth hwritten hdedents
  have hstops : Stops s rest := by
    cases hdedents with
    | done => exact .done
    | line _ => exact .line hout
  obtain ⟨n, u, hn, hrun, hrest, hline⟩ := h k s rest hs hdepth hwritten hstops
  obtain ⟨v, hends, hat, hafter⟩ := hdedents.endsLine hrest hline
  exact ⟨n, u, v, hn, hrun, hends, hat, hafter⟩

theorem statement_of_block (h : ReadsBlock source settings l tree) :
    ReadsStatement source settings l tree := by
  intro k s rest hs hout hdepth hwritten hdedents
  have hstops : Stops s rest := by
    cases hdedents with
    | done => exact .done
    | line _ => exact .line hout
  obtain ⟨n, u, hn, hrun, hat, hafter⟩ := h k s rest hs hdepth hwritten hstops hdedents
  exact ⟨n, u, u, hn, hrun, AtLine.endsLine hafter, hat, hafter⟩

/-- Where a line starts that does not belong to the block, no statement of it is read. -/
theorem statements_of_dedents {level : Nat} (hat : AtLine source s rest) (hrest : Dedents level rest) :
    Run (Program.setup source settings) (.statements level) s [] s := by
  cases hat with
  | done hahead =>
    have hskip := State.skipLineBreaks_of_ahead_eq_nil hahead
    have hrun : Run (Program.setup source settings) (.statements level) s [] s.skipLineBreaks :=
      .noTokens (by simp [hskip, State.current?, hahead])
    rwa [hskip] at hrun
  | line hcolumn hwritten =>
    cases hrest with
    | line hlt =>
      obtain ⟨token, t, htakes, _⟩ := hwritten.takes
      have hskip := hwritten.skipLineBreaks
      have hrun : Run (Program.setup source settings) (.statements level) s [] s.skipLineBreaks :=
        .outdent (by rw [hskip]; exact htakes.1) (by rwa [hcolumn token htakes.1])
      rwa [hskip] at hrun

/-- The lines of a block are read as its statements. -/
theorem statements_of_reads {ts : List Tree} (h : ∀ t ∈ ts, ReadsStatement source settings l t)
    (hs : Inside l k s) (hout : ¬s.inGroup) (hdepth : s.depth + l.bodyRoom ts ≤ settings.maxDepth)
    (hat : AtLine source s (l.lines k ts ++ rest)) (hrest : Dedents (k * l.width) rest) :
    ∃ trees u, trees.map Tree.bare = ts.map Tree.bare ∧
      Run (Program.setup source settings) (.statements (k * l.width)) s trees u ∧
      AtLine source u rest ∧ (ts ≠ [] ∨ s.done ∨ s.afterLineBreak → u.done ∨ u.afterLineBreak) := by
  induction ts generalizing s with
  | nil =>
    refine ⟨[], s, rfl, statements_of_dedents hat hrest, hat, ?_⟩
    rintro (hne | hafter)
    · exact absurd rfl hne
    · exact hafter
  | cons t ts ih =>
    rw [List.forall_mem_cons] at h
    rw [Layout.bodyRoom] at hdepth
    rw [Layout.lines, List.cons_append, List.append_assoc] at hat
    have hwritten := hat.written
    have hlevel : k * l.width < (k + 1) * l.width := by
      rw [Nat.succ_mul]
      have := l.width_pos
      omega
    obtain ⟨n, u, v, hn, hrun, hends, hat', hafter⟩ := h.1 k s _ hs hout (by omega) hwritten
      (l.dedents_lines k ts hlevel (hrest.mono (Nat.le_of_lt hlevel)))
    obtain ⟨ks, hp⟩ := hrun.passes
    obtain ⟨js, _, hp'⟩ := hends.passes
    have hpasses := hp.trans hp'
    obtain ⟨trees, w, htrees, hrun', hat'', hafter'⟩ := ih h.2 (hs.passes hpasses)
      (by rw [hpasses.inGroup]; exact hout) (by rw [hpasses.depth]; omega) hat'
    obtain ⟨kind, text, qs, hprint⟩ := l.exists_word_print k t
    rw [hprint] at hwritten
    obtain ⟨token, x, htakes, _⟩ := hwritten.takes
    have hskip : s.skipLineBreaks = s := hwritten.skipLineBreaks
    have hcolumn : token.column = k * l.width := by
      cases hat with
      | line hcolumn _ => exact hcolumn token htakes.1
    refine ⟨n :: trees, w, by simp [hn, htrees], .statement ?_ hcolumn ?_ hends hrun', hat'',
      fun _ => hafter' (.inr hafter)⟩
    · rw [hskip]
      exact htakes.1
    · rwa [hskip]

/-- The lines of a block, one step deeper, are read as a body. -/
theorem body_of_reads {ts : List Tree} (h : ∀ t ∈ ts, ReadsStatement source settings l t)
    (hne : ts ≠ []) (hs : Inside l k s) (hdepth : s.depth + l.bodyRoom ts ≤ settings.maxDepth)
    (hwritten : Written source (l.lines (k + 1) ts ++ rest) s.ahead)
    (hrest : Dedents ((k + 1) * l.width) rest) :
    ∃ trees u, trees.map Tree.bare = ts.map Tree.bare ∧
      Run (Program.setup source settings) .body s trees u ∧ AtLine source u rest ∧
      (u.done ∨ u.afterLineBreak) := by
  obtain ⟨first, others, rfl⟩ := List.exists_cons_of_ne_nil hne
  obtain ⟨kind, text, qs, hprint⟩ := l.exists_word_print (k + 1) first
  have hlines : Written source (.line ((k + 1) * l.width) ::
      (.word kind text :: (qs ++ l.lines (k + 1) others) ++ rest)) s.ahead := by
    rw [Layout.lines, hprint] at hwritten
    exact hwritten
  obtain ⟨line, t, htakes, hkind, hinner, hcolumn, hafter⟩ := hlines.takes_line
  have hbreak : s.isNext .newline := hkind ▸ htakes.isNext
  have hskip : s.skipLineBreaks = t := by
    rw [← State.advance_skipLineBreaks hbreak, htakes.2]
    exact hinner.skipLineBreaks
  have ht := hs.passes htakes.passes
  have hlevel : t.openBlock.indentation.current = (k + 1) * l.width := ht.openBlock.current
  have hat : AtLine source t.openBlock (l.lines (k + 1) (first :: others) ++ rest) := by
    rw [Layout.lines, hprint]
    exact .line hcolumn hinner
  obtain ⟨trees, u, htrees, hrun, hat', hafter'⟩ := statements_of_reads h ht.openBlock
    (by simp [State.inGroup, State.openBlock])
    (by change t.depth + _ ≤ _; rw [htakes.passes.depth]; exact hdepth) hat hrest
  obtain ⟨ks, hp⟩ := hrun.passes
  have hclose := State.closeBlock?_of_passes hp
  obtain ⟨token, x, htoken, _⟩ := hinner.takes
  have hcurrent : s.skipLineBreaks.current? = some token := by
    rw [hskip]
    exact htoken.1
  refine ⟨trees, _, htrees, .indentedBody hbreak hcurrent ?_ ?_ hclose, ?_, hafter' (.inl hne)⟩
  · rw [hskip, hlevel]
    exact Nat.le_of_eq (hcolumn token htoken.1).symm
  · rw [hskip, hlevel]
    exact hrun
  · cases hat' with
    | done hahead => exact .done hahead
    | line hcolumn' hwritten' => exact .line hcolumn' hwritten'

/-! ### The kinds of trees -/

/-- A single token is read as the start of an expression. -/
theorem start_of_token {rule : PrefixRule} (hrule : Program.prefixRule? kind = some rule)
    (hstart : ∀ token : Token, token.kind = kind → token.text source = String.ofList text →
      ∃ left : Tree, left.bare = tree.bare ∧
        ∀ s, Run (Program.setup source settings) (.start rule token) s [left] s) :
    ReadsStart source settings l k [.word kind text] tree 0 := by
  intro s rest hs _ hwritten _
  have hwritten' : Written source (.word kind text :: rest) s.ahead := hwritten
  obtain ⟨token, u, htakes, hkind, htext, hrest, hline⟩ := hwritten'.takes
  obtain ⟨left, hleft, hrun⟩ := hstart token hkind htext
  exact ⟨left, u, _, hleft, hwritten'.starts htakes (by rw [hkind]; exact hrule) (hrun u),
    htakes.passes, hrest, hline⟩

theorem start_of_name {span : Span} (name : String) :
    ReadsStart source settings l k [.word .identifier name.toList] (.identifier span name) 0 := by
  apply start_of_token rfl
  intro token hkind htext
  refine ⟨.identifier token.span (token.text source), ?_, fun s => .identifier⟩
  rw [htext, String.ofList_toList]
  rfl

theorem start_of_number {span : Span} {value : Binary64}
    (h : Binary64.ofText? (String.ofList (l.numeral value)) = some value) :
    ReadsStart source settings l k [.word .number (l.numeral value)] (.number span value) 0 := by
  apply start_of_token rfl
  intro token hkind htext
  exact ⟨.number token.span value, rfl, fun s => .number (by rw [Program.setup_source, htext, h])⟩

theorem start_of_string {span : Span} (value : String) :
    ReadsStart source settings l k [.word .string (Text.literal value)] (.string span value) 0 := by
  apply start_of_token rfl
  intro token hkind htext
  refine ⟨.string token.span
    (Text.unescape (String.ofList (value.toList.flatMap Text.literalChar))), ?_, fun s => .string ?_⟩
  · rw [Text.unescape_literal]
    rfl
  · rw [Program.setup_source, htext, String.toList_ofList]
    exact Reader.unquoted?_quotes _

theorem start_of_boolean {span : Span} (value : Bool) :
    ReadsStart source settings l k (l.print k (.boolean span value)) (.boolean span value) 0 := by
  cases value with
  | true =>
    have hrule : Program.prefixRule? .trueWord = some .boolean := rfl
    apply start_of_token hrule
    intro token hkind htext
    exact ⟨_, by simp [Tree.bare, hkind], fun s => .boolean⟩
  | false =>
    have hrule : Program.prefixRule? .falseWord = some .boolean := rfl
    apply start_of_token hrule
    intro token hkind htext
    exact ⟨_, by simp [Tree.bare, hkind], fun s => .boolean⟩

theorem start_of_list {span : Span} {items : List Tree}
    (h : ∀ t ∈ items, ReadsOperand source settings l t) :
    ReadsStart source settings l k (l.print k (.list span items)) (.list span items)
      (l.itemsRoom items) := by
  intro s rest hs hdepth hwritten _
  rw [Layout.print, List.cons_append, List.append_assoc] at hwritten
  obtain ⟨start, u, htakes, hkind, _, hinner, _⟩ := hwritten.takes
  obtain ⟨items', t, stop, v, ks, hitems, hrun, hcloses, hp, hrest, hline⟩ :=
    items_of_operands h (.inr rfl) (hs.passes htakes.passes)
      (by rw [htakes.passes.depth]; exact hdepth) hinner
  refine ⟨.list (start.span.through stop.span) items', v, _, ?_, ?_, htakes.passes.trans hp, hrest,
    hline⟩
  · simp only [Tree.bare, Tree.bareAll_eq_map, hitems]
  · exact hwritten.starts htakes (by rw [hkind]; rfl) (.list hrun hcloses)

/-- A parameter list is read as what an arrow continues. -/
theorem Written.parameters {names : List String}
    (h : Written source (Layout.parameters names ++ .word .arrow text :: rest) s.ahead)
    (hs : Inside l k s) (hdepth : s.depth + 1 ≤ settings.maxDepth) :
    ∃ left u ks, Reader.parameters? left = some names ∧
      (∀ least, Starts (Program.setup source settings) least s left u) ∧ s.Passes ks u ∧
      Written source (.word .arrow text :: rest) u.ahead ∧ u.afterLineBreak = false := by
  rw [Layout.parameters, List.cons_append, List.append_assoc] at h
  obtain ⟨start, u, htakes, hkind, _, hinner, _⟩ := h.takes
  rw [← State.ahead_openGroup] at hinner
  have hu := hs.passes htakes.passes
  obtain ⟨items, t, hitems, hrun, hstop⟩ := items_of_reads
    (fun name : String => [.word .identifier name.toList]) (.identifier default) names
    (fun name _ => ⟨_, _, _, rfl⟩)
    (fun name _ => (start_of_name name).expression (Int.le_refl 0)) (.inl rfl) hu.openGroup
    (by rw [State.depth_openGroup, htakes.passes.depth]; exact hdepth) hinner
  obtain ⟨ks, hp⟩ := hrun.passes
  obtain ⟨stop, v, hcloses, hp', hrest, hline⟩ := hstop.closes hp hu.groups
  have hnames : items.map Tree.name? = names.map some := by
    rw [← Tree.map_name?_bareAll, Tree.bareAll_eq_map, hitems, List.map_map]
    rfl
  exact ⟨.parameters (start.span.through stop.span) names, v, _, rfl,
    h.starts htakes (by rw [hkind]; rfl) (.parameters hrun hcloses hrest.isNext hnames),
    htakes.passes.trans hp', hrest, hline⟩

section Kinds

variable {span : Span}

theorem climb_of_unary {operator : Operator} {operand : Tree}
    (hoperator : Operator.unary? operator.kind = some operator)
    (h : ReadsOperand source settings l operand) :
    ReadsClimb source settings l k (l.print k (.unary span operator operand))
      (.unary span operator operand) (1 + l.operandRoom operand (l.room operand)) 0 := by
  intro s rest hs hdepth hwritten hstops
  rw [Layout.print, List.cons_append] at hwritten
  obtain ⟨token, u, htakes, hkind, _, hinner, _⟩ := hwritten.takes
  have hu := htakes.passes
  obtain ⟨n, v, hn, hrun, hrest, hline⟩ := (h k).expression (by decide : (0 : Int) ≤ 80) u rest
    (hs.passes hu) (by rw [hu.depth]; exact hdepth) hinner (hstops.of_inGroup hu.inGroup)
  obtain ⟨ks, hp⟩ := hrun.passes
  have hrule : Program.prefixRule? token.kind = some .unary := by
    rw [hkind]
    cases operator <;> first | rfl | cases hoperator
  have hstart : Run (Program.setup source settings) (.start .unary token) u
      [.unary (token.span.through n.span) operator n] v := .unary (by rw [hkind, hoperator]) hrun
  have hstops' : Stops v rest := hstops.of_inGroup (hu.trans hp).inGroup
  refine ⟨_, v, ?_, hwritten.starts htakes hrule hstart 0 _ _ (hstops'.stop hrest (Int.le_refl 0)),
    hrest, hline⟩
  simp only [Tree.bare, hn]

/-- An operand, a sign and what the sign makes of the operand are a climb. -/
theorem climb_of_sign {sign : Kind} {left : Tree} {inner : List Piece} {roomAfter : Nat}
    {rule : InfixRule} (h : ReadsOperand source settings l left)
    (hpower : 0 < Program.power sign) (harrow : sign ≠ .arrow)
    (hrule : (Program.infixRule? sign).map Prod.snd = some rule)
    (hinner : ∀ s rest left' token, Inside l k s → s.depth + roomAfter ≤ settings.maxDepth →
      Written source (inner ++ rest) s.ahead → Stops s rest → left'.bare = left.bare →
      token.kind = sign → ∃ n u, n.bare = tree.bare ∧
        Run (Program.setup source settings) (.continuation rule left' token) s [n] u ∧
        Written source rest u.ahead ∧ u.afterLineBreak = false) :
    ReadsClimb source settings l k (l.operand k left (l.print k left) ++ .sign sign :: inner) tree
      (max (l.operandRoom left (l.room left)) roomAfter) 0 := by
  intro s rest hs hdepth hwritten hstops
  rw [List.append_assoc, List.cons_append] at hwritten
  obtain ⟨left', u, ks, hleft, hstarts, hp, hsign, hline⟩ := h k s _ hs (by omega) hwritten
    fun text qs he => harrow (Piece.word.inj (List.cons.inj he).1).1
  obtain ⟨token, v, htakes, hkind, _, hafter, _⟩ := hsign.takes
  have hv := hp.trans htakes.passes
  obtain ⟨n, w, hn, hrun, hrest, hline'⟩ := hinner v rest left' token (hs.passes hv)
    (by rw [hv.depth]; omega) hafter (hstops.of_inGroup hv.inGroup) hleft hkind
  obtain ⟨js, hp'⟩ := hrun.passes
  have hstops' : Stops w rest := hstops.of_inGroup (hv.trans hp').inGroup
  refine ⟨n, w, hn, hstarts 0 _ _ ?_, hrest, hline'⟩
  exact hsign.continues hline hpower htakes (by rw [hkind]; exact hrule) hrun
    (hstops'.stop hrest (Int.le_refl 0))

theorem climb_of_binary {operator : Operator} {left right : Tree}
    (hoperator : Operator.binary? operator.kind = some operator)
    (h : ReadsOperand source settings l left) (h' : ReadsOperand source settings l right) :
    ReadsClimb source settings l k (l.print k (.binary span operator left right))
      (.binary span operator left right)
      (max (l.operandRoom left (l.room left)) (1 + l.operandRoom right (l.room right))) 0 := by
  have hsign : 0 < Program.power operator.kind ∧ operator.kind ≠ .arrow ∧
      (Program.infixRule? operator.kind).map Prod.snd = some .binary := by
    cases operator <;> first | exact ⟨by decide, by decide, rfl⟩ | cases hoperator
  refine climb_of_sign h hsign.1 hsign.2.1 hsign.2.2
    fun s rest left' token hs hdepth hwritten hstops hleft hkind => ?_
  obtain ⟨right', u, hright, hrun, hrest, hline⟩ :=
    (h' k).expression (Int.le_of_lt hsign.1) s rest hs hdepth hwritten hstops
  refine ⟨.binary (left'.span.through right'.span) operator left' right', u, ?_,
    .binary (by rw [hkind, hoperator]) (by rw [Program.setup_power, hkind]; exact hrun), hrest, hline⟩
  simp only [Tree.bare, hleft, hright]

theorem climb_of_assign {target value : Tree} (htarget : target.isAssignable)
    (h : ReadsOperand source settings l target) (h' : ReadsOperand source settings l value) :
    ReadsClimb source settings l k (l.print k (.assign span target value))
      (.assign span target value)
      (max (l.operandRoom target (l.room target)) (1 + l.operandRoom value (l.room value))) 0 := by
  have hrule : (Program.infixRule? .assignment).map Prod.snd = some .assignment := rfl
  refine climb_of_sign h (by decide) (by decide) hrule
    fun s rest left' token hs hdepth hwritten hstops hleft hkind => ?_
  obtain ⟨right', u, hright, hrun, hrest, hline⟩ :=
    (h' k).expression (by decide : (0 : Int) ≤ 9) s rest hs hdepth hwritten hstops
  have htarget' : left'.isAssignable := by rwa [← Tree.isAssignable_bare, hleft, Tree.isAssignable_bare]
  refine ⟨.assign (left'.span.through right'.span) left' right', u, ?_,
    .assignment htarget' (by rw [Program.setup_power, hkind]; exact hrun), hrest, hline⟩
  simp only [Tree.bare, hleft, hright]

theorem climb_of_call {callee : Tree} {arguments : List Tree}
    (h : ReadsOperand source settings l callee)
    (h' : ∀ t ∈ arguments, ReadsOperand source settings l t) :
    ReadsClimb source settings l k (l.print k (.call span callee arguments))
      (.call span callee arguments)
      (max (l.operandRoom callee (l.room callee)) (l.itemsRoom arguments)) 0 := by
  have hrule : (Program.infixRule? .openParen).map Prod.snd = some .call := rfl
  refine climb_of_sign h (by decide) (by decide) hrule
    fun s rest left' token hs hdepth hwritten hstops hleft hkind => ?_
  rw [List.append_assoc] at hwritten
  obtain ⟨items, t, stop, u, ks, hitems, hrun, hcloses, _, hrest, hline⟩ :=
    items_of_operands h' (.inl rfl) hs hdepth hwritten
  refine ⟨.call (left'.span.through stop.span) left' items, u, ?_, .call hrun hcloses, hrest, hline⟩
  simp only [Tree.bare, Tree.bareAll_eq_map, hleft, hitems]

theorem climb_of_index {target item : Tree} (h : ReadsOperand source settings l target)
    (h' : ReadsOperand source settings l item) :
    ReadsClimb source settings l k (l.print k (.index span target item)) (.index span target item)
      (max (l.operandRoom target (l.room target)) (1 + l.operandRoom item (l.room item))) 0 := by
  have hrule : (Program.infixRule? .openBracket).map Prod.snd = some .index := rfl
  refine climb_of_sign h (by decide) (by decide) hrule
    fun s rest left' token hs hdepth hwritten hstops hleft hkind => ?_
  rw [List.append_assoc, ← State.ahead_openGroup] at hwritten
  obtain ⟨item', t, hitem, hrun, hstop, _⟩ := (h' k).expression (Int.le_refl 0) _ _ hs.openGroup
    (by rw [State.depth_openGroup]; exact hdepth) hwritten (.word (by decide))
  obtain ⟨ks, hp⟩ := hrun.passes
  obtain ⟨stop, u, hcloses, _, hrest, hline⟩ := hstop.closes hp hs.groups
  refine ⟨.index (left'.span.through stop.span) left' item', u, ?_,
    .index hrun (by rw [hstop.skipLineBreaks]; exact hcloses), hrest, hline⟩
  simp only [Tree.bare, hleft, hitem]

/-- Behind a sign a block is read as a body. -/
theorem Written.block {sign : Kind} {body : List Tree}
    (h : Written source (.sign sign :: (l.lines (k + 1) body ++ rest)) s.ahead)
    (hline : s.afterLineBreak = false) (hpower : 0 < Program.power sign) (hs : Inside l k s)
    (hdepth : s.depth + l.bodyRoom body ≤ settings.maxDepth)
    (hends : settings.lineBreaksEndExpressions) (hstops : Stops s rest)
    (hrest : Dedents ((k + 1) * l.width) rest)
    (hbody : ∀ t ∈ body, ReadsStatement source settings l t) (hne : body ≠ []) :
    ∃ token t trees u, token.kind = sign ∧ trees.map Tree.bare = body.map Tree.bare ∧
      Run (Program.setup source settings) .body t trees u ∧ AtLine source u rest ∧
      (u.done ∨ u.afterLineBreak) ∧ ∀ rule left n,
        (Program.infixRule? sign).map Prod.snd = some rule →
        Run (Program.setup source settings) (.continuation rule left token) t [n] u →
        Run (Program.setup source settings) (.extension 0 left) s [n] u := by
  obtain ⟨token, t, htakes, hkind, _, hinner, _⟩ := h.takes
  have ht := htakes.passes
  obtain ⟨trees, u, htrees, hrun, hat, hafter⟩ := body_of_reads hbody hne (hs.passes ht)
    (by rw [ht.depth]; exact hdepth) hinner hrest
  obtain ⟨ks, hp⟩ := hrun.passes
  have hstops' : Stops u rest := hstops.of_inGroup (ht.trans hp).inGroup
  refine ⟨token, t, trees, u, hkind, htrees, hrun, hat, hafter, fun rule left n hrule hn => ?_⟩
  exact h.continues hline hpower htakes (by rw [hkind]; exact hrule) hn
    (hat.stop hstops' hafter hends (Int.le_refl 0))

theorem block_of_function {names : List String} {body : List Tree}
    (hends : settings.lineBreaksEndExpressions)
    (hbody : ∀ t ∈ body, ReadsStatement source settings l t) (hne : body ≠ []) :
    ReadsBlock source settings l (.function span names body) := by
  intro k s rest hs hdepth hwritten hstops hdedents
  rw [Layout.room] at hdepth
  rw [Layout.print, List.append_assoc, List.cons_append] at hwritten
  obtain ⟨left, u, ks, hleft, hstarts, hp, hsign, hline⟩ :=
    @Written.parameters source settings l k { s with depth := s.depth + 1 } _ _ _ hwritten hs.deeper
      (by change s.depth + 1 + 1 ≤ _; omega)
  obtain ⟨token, t, trees, v, hkind, htrees, hrun, hat, hafter, hextends⟩ :=
    hsign.block hline (by decide) (hs.deeper.passes hp)
      (by rw [hp.depth]; change s.depth + 1 + _ ≤ _; omega) hends (hstops.of_inGroup hp.inGroup)
      hdedents hbody hne
  refine ⟨_, _, ?_, .nested (by rw [Program.setup_settings]; omega)
    (hstarts 0 _ _ (hextends _ _ _ rfl (.function hleft hrun))), hat.of_ahead rfl, hafter⟩
  simp only [Tree.bare, Tree.bareAll_eq_map, htrees]

theorem block_of_conditional {condition : Tree} {body : List Tree}
    (hends : settings.lineBreaksEndExpressions) (h : ReadsOperand source settings l condition)
    (hbody : ∀ t ∈ body, ReadsStatement source settings l t) (hne : body ≠ []) :
    ReadsBlock source settings l (.conditional span condition body) := by
  intro k s rest hs hdepth hwritten hstops hdedents
  rw [Layout.room] at hdepth
  rw [Layout.print, List.append_assoc, List.cons_append] at hwritten
  obtain ⟨left, u, ks, hleft, hstarts, hp, hsign, hline⟩ :=
    h k { s with depth := s.depth + 1 } _ hs.deeper (by change s.depth + 1 + _ ≤ _; omega) hwritten
      fun text qs he => by cases he
  obtain ⟨token, t, trees, v, hkind, htrees, hrun, hat, hafter, hextends⟩ :=
    hsign.block hline (by decide) (hs.deeper.passes hp)
      (by rw [hp.depth]; change s.depth + 1 + _ ≤ _; omega) hends (hstops.of_inGroup hp.inGroup)
      hdedents hbody hne
  refine ⟨_, _, ?_, .nested (by rw [Program.setup_settings]; omega)
    (hstarts 0 _ _ (hextends _ _ _ rfl (.conditional hrun))), hat.of_ahead rfl, hafter⟩
  simp only [Tree.bare, Tree.bareAll_eq_map, hleft, htrees]

end Kinds

/-! ### All trees -/

theorem reads_of_flat (henclosed : l.encloses tree) (hflat : tree.endsInBlock = false)
    (h : ∀ k, ReadsExpression source settings l k (l.print k tree) tree (l.room tree) 0) :
    ReadsOperand source settings l tree ∧ ReadsStatement source settings l tree :=
  ⟨operand_of_flat henclosed hflat h, statement_of_flat h⟩

theorem reads_of_block (henclosed : l.encloses tree) (hblock : tree.endsInBlock)
    (h : ReadsBlock source settings l tree) :
    ReadsOperand source settings l tree ∧ ReadsStatement source settings l tree :=
  ⟨operand_of_block henclosed hblock h, statement_of_block h⟩

theorem reads_of_start (hplain : l.encloses tree = false)
    (h : ∀ k, ReadsStart source settings l k (l.print k tree) tree (l.room tree - 1))
    (hroom : 1 + (l.room tree - 1) = l.room tree) :
    ReadsOperand source settings l tree ∧ ReadsStatement source settings l tree := by
  refine ⟨operand_of_start hplain h, statement_of_flat fun k => ?_⟩
  have hexpression := (h k).expression (Int.le_refl 0)
  rwa [hroom] at hexpression

/-- Every well-formed tree is read back, as an operand and as a statement. -/
theorem reads_of_wellFormed (hends : settings.lineBreaksEndExpressions)
    (h : tree.WellFormed l.numeral) :
    ReadsOperand source settings l tree ∧ ReadsStatement source settings l tree := by
  induction h with
  | @node tree hsound _ ih =>
    cases tree with
    | identifier span name => exact reads_of_start rfl (fun k => start_of_name name) rfl
    | number span value => exact reads_of_start rfl (fun k => start_of_number hsound.2) rfl
    | string span value => exact reads_of_start rfl (fun k => start_of_string value) rfl
    | boolean span value => exact reads_of_start rfl (fun k => start_of_boolean value) rfl
    | parameters span names => exact hsound.elim
    | function span names body =>
      exact reads_of_block rfl rfl (block_of_function hends (fun t ht => (ih t ht).2) hsound.2)
    | call span callee arguments =>
      exact reads_of_flat rfl rfl fun k =>
        (climb_of_call (ih callee List.mem_cons_self).1
          fun t ht => (ih t (List.mem_cons_of_mem _ ht)).1).expression
    | list span items =>
      have hstart : ∀ k, ReadsStart source settings l k (l.print k (.list span items))
          (.list span items) (l.itemsRoom items) := fun k => start_of_list fun t ht => (ih t ht).1
      by_cases hlists : l.enclosesLists
      · exact reads_of_flat hlists rfl fun k => (hstart k).expression (Int.le_refl 0)
      · refine reads_of_start (Bool.eq_false_iff.2 hlists) ?_ ?_
        · rw [Layout.room, Nat.add_sub_cancel_left]
          exact hstart
        · rw [Layout.room, Nat.add_sub_cancel_left]
    | index span target item =>
      exact reads_of_flat rfl rfl fun k =>
        (climb_of_index (ih target (by simp [Tree.children])).1
          (ih item (by simp [Tree.children])).1).expression
    | binary span operator left right =>
      exact reads_of_flat rfl rfl fun k =>
        (climb_of_binary hsound (ih left (by simp [Tree.children])).1
          (ih right (by simp [Tree.children])).1).expression
    | unary span operator operand =>
      exact reads_of_flat rfl rfl fun k =>
        (climb_of_unary hsound (ih operand (by simp [Tree.children])).1).expression
    | assign span target value =>
      exact reads_of_flat rfl rfl fun k =>
        (climb_of_assign hsound (ih target (by simp [Tree.children])).1
          (ih value (by simp [Tree.children])).1).expression
    | conditional span condition body =>
      exact reads_of_block rfl rfl (block_of_conditional hends (ih condition List.mem_cons_self).1
        (fun t ht => (ih t (List.mem_cons_of_mem _ ht)).2) hsound)

end Offside
