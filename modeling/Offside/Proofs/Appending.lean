import Offside.Proofs.Joining.Followed
import Offside.Proofs.Run.Reported

set_option autoImplicit false

/-!
# Tokens behind a fault

A fault that was reported about a token stays the same fault when tokens are put behind all others: what was
read before it did not look at the end of the tokens. Only a fault that says that the tokens ended, or that
was found by looking for an arrow at their end, or that expressions are nested too deeply, can become
another one.
-/
namespace Offside

open Reading

/-- The cause does not depend on the tokens having ended. -/
def Cause.IsFinal : Cause → Prop
  | .endOfInput => False
  | .nestedTooDeeply _ => False
  | .misplaced _ message => message ≠ "expected `->` after a parameter list"
  | _ => True

namespace Reading.State

/-- The same state with tokens behind those ahead. -/
def followedBy (s : State) (rest : List Token) : State := { s with ahead := s.ahead ++ rest }

/-- A token that is no line break is ahead. -/
def HasToken (s : State) : Prop := ∃ k ∈ s.ahead, k.kind ≠ .newline

/-- A token is ahead by which an expression goes on or stops: any one, inside a bracket one that is no line
break. -/
def Decided (s : State) : Prop := ∃ k ∈ s.ahead, s.inGroup → k.kind ≠ .newline

variable {s t u : State} {ks rest : List Token} {token stop : Token} {kind close : Kind}

theorem HasToken.decided (h : s.HasToken) : s.Decided := by
  obtain ⟨k, hk, hkind⟩ := h
  exact ⟨k, hk, fun _ => hkind⟩

theorem HasToken.of_passes (ht : t.HasToken) (h : s.Passes ks t) : s.HasToken := by
  obtain ⟨k, hk, hkind⟩ := ht
  exact ⟨k, h.ahead ▸ List.mem_append_right _ hk, hkind⟩

theorem Decided.of_passes (ht : t.Decided) (h : s.Passes ks t) : s.Decided := by
  obtain ⟨k, hk, hkind⟩ := ht
  exact ⟨k, h.ahead ▸ List.mem_append_right _ hk, h.inGroup ▸ hkind⟩

theorem Decided.ahead_ne_nil (h : s.Decided) : s.ahead ≠ [] := by
  obtain ⟨k, hk, _⟩ := h
  exact List.ne_nil_of_mem hk

theorem ahead_ne_nil_of_current? (h : s.current? = some token) : s.ahead ≠ [] := by
  obtain ⟨rest, hs⟩ := current?_eq_some_iff.1 h
  exact hs ▸ List.cons_ne_nil _ _

theorem ahead_ne_nil_of_isNext (h : s.isNext kind) : s.ahead ≠ [] := by
  obtain ⟨token, htoken, _⟩ := isNext_iff.1 h
  exact ahead_ne_nil_of_current? htoken

theorem exists_current? (hs : s.ahead ≠ []) : ∃ token, s.current? = some token := by
  obtain ⟨k, ks, hk⟩ := List.exists_cons_of_ne_nil hs
  exact ⟨k, congrArg List.head? hk⟩

theorem HasToken.of_current? (h : s.current? = some token) (hkind : token.kind ≠ .newline) :
    s.HasToken :=
  exists_of_isNext (isNext_iff.2 ⟨token, h, rfl⟩) hkind

/-- Behind the line breaks that are skipped stands a token that is none. -/
theorem HasToken.of_skipLineBreaks (h : s.skipLineBreaks.ahead ≠ []) : s.HasToken := by
  obtain ⟨token, htoken⟩ := exists_current? h
  exact (of_current? htoken (ne_newline_of_skipLineBreaks htoken)).of_passes (passes_skipLineBreaks s)

theorem Decided.of_not_inGroup (hs : s.ahead ≠ []) (hout : ¬s.inGroup) : s.Decided := by
  obtain ⟨k, hk⟩ := List.exists_mem_of_ne_nil _ hs
  exact ⟨k, hk, fun hin => absurd hin hout⟩

/-- The next token that an expression looks at decides. -/
theorem Decided.of_skipGroupedLineBreaks (h : s.skipGroupedLineBreaks.current? = some token) :
    s.Decided := by
  have hs := ahead_ne_nil_of_current? h
  unfold skipGroupedLineBreaks at hs
  split at hs
  next => exact (HasToken.of_skipLineBreaks hs).decided
  next hout => exact .of_not_inGroup hs hout

theorem Closes.hasToken (h : s.Closes close stop t) (hclose : close ≠ .newline) : s.HasToken :=
  exists_of_isNext h.isNext hclose

/-! ### Steps with tokens behind -/

theorem current?_followedBy (hs : s.ahead ≠ []) : (s.followedBy rest).current? = s.current? := by
  obtain ⟨k, ks, hk⟩ := List.exists_cons_of_ne_nil hs
  simp [current?, followedBy, hk]

theorem done_followedBy (hs : s.ahead ≠ []) : (s.followedBy rest).done ↔ s.done := by
  simp [done_iff, followedBy, hs]

theorem isNext_followedBy (hs : s.ahead ≠ []) : (s.followedBy rest).isNext kind = s.isNext kind := by
  rw [isNext, isNext, current?_followedBy hs]

theorem Takes.followedBy (h : s.Takes token t) (rest : List Token) :
    (s.followedBy rest).Takes token (t.followedBy rest) := by
  have hpasses := h.passes
  refine takes_iff.2 ⟨?_, hpasses.passed, hpasses.indentation, hpasses.groups, hpasses.depth⟩
  change s.ahead ++ rest = [token] ++ (t.ahead ++ rest)
  rw [hpasses.ahead, List.append_assoc]

theorem skipLineBreaks_followedBy (h : s.HasToken) :
    (s.followedBy rest).skipLineBreaks = s.skipLineBreaks.followedBy rest := by
  obtain ⟨k, hk, hkind⟩ := h
  have hne : s.ahead.dropWhile (·.kind = .newline) ≠ [] := fun hnil =>
    hkind (by simpa using List.dropWhile_eq_nil_iff.1 hnil k hk)
  have hdrop : (s.ahead ++ rest).dropWhile (·.kind = .newline) =
      s.ahead.dropWhile (·.kind = .newline) ++ rest := by
    rw [List.dropWhile_append, if_neg (by simpa using hne)]
  have htake : (s.ahead ++ rest).takeWhile (·.kind = .newline) =
      s.ahead.takeWhile (·.kind = .newline) := by
    rw [List.takeWhile_append, if_neg]
    intro hlength
    have hall : s.ahead.takeWhile (·.kind = .newline) = s.ahead :=
      (List.takeWhile_prefix _).eq_of_length hlength
    exact hkind (kind_of_mem_takeWhile (hall.symm ▸ hk))
  simp only [skipLineBreaks, followedBy, hdrop, htake]

theorem current?_skipLineBreaks_followedBy (h : s.skipLineBreaks.current? = some token) :
    (s.followedBy rest).skipLineBreaks.current? = some token := by
  have hs := ahead_ne_nil_of_current? h
  rw [skipLineBreaks_followedBy (.of_skipLineBreaks hs), current?_followedBy hs, h]

theorem isNext_skipLineBreaks_followedBy (hs : s.skipLineBreaks.ahead ≠ []) :
    (s.followedBy rest).skipLineBreaks.isNext kind = s.skipLineBreaks.isNext kind := by
  rw [skipLineBreaks_followedBy (.of_skipLineBreaks hs), isNext_followedBy hs]

theorem skipGroupedLineBreaks_followedBy (h : s.Decided) :
    (s.followedBy rest).skipGroupedLineBreaks = s.skipGroupedLineBreaks.followedBy rest := by
  obtain ⟨k, hk, hkind⟩ := h
  by_cases hin : s.inGroup
  · have hin' : (s.followedBy rest).inGroup := hin
    rw [skipGroupedLineBreaks, if_pos hin', skipGroupedLineBreaks, if_pos hin,
      skipLineBreaks_followedBy ⟨k, hk, hkind hin⟩]
  · have hout : ¬(s.followedBy rest).inGroup := hin
    rw [skipGroupedLineBreaks, if_neg hout, skipGroupedLineBreaks, if_neg hin]

/-- What an expression takes next it takes also with tokens behind. -/
theorem Takes.grouped_followedBy (h : s.skipGroupedLineBreaks.Takes token t) (rest : List Token) :
    (s.followedBy rest).skipGroupedLineBreaks.Takes token (t.followedBy rest) := by
  rw [skipGroupedLineBreaks_followedBy (.of_skipGroupedLineBreaks h.1)]
  exact h.followedBy rest

theorem current?_grouped_followedBy (h : s.skipGroupedLineBreaks.current? = some token) :
    (s.followedBy rest).skipGroupedLineBreaks.current? = some token := by
  rw [skipGroupedLineBreaks_followedBy (.of_skipGroupedLineBreaks h),
    current?_followedBy (ahead_ne_nil_of_current? h), h]

theorem openGroup_followedBy : (s.followedBy rest).openGroup = s.openGroup.followedBy rest := by
  cases hg : s.groups <;> simp [openGroup, followedBy, hg]

theorem closeGroup?_followedBy (h : s.closeGroup? = some t) :
    (s.followedBy rest).closeGroup? = some (t.followedBy rest) := by
  unfold closeGroup? at h ⊢
  split at h
  next n outer hg =>
    cases h
    simp [followedBy, hg]
  next => cases h

theorem closeBlock?_followedBy (h : s.closeBlock? = some t) :
    (s.followedBy rest).closeBlock? = some (t.followedBy rest) := by
  obtain ⟨i, hi, rfl⟩ := Option.map_eq_some_iff.1 h
  exact Option.map_eq_some_iff.2 ⟨i, hi, rfl⟩

theorem Closes.followedBy (h : s.Closes close stop t) (rest : List Token) :
    (s.followedBy rest).Closes close stop (t.followedBy rest) := by
  obtain ⟨u, hu, htakes, hkind⟩ := h
  exact ⟨_, closeGroup?_followedBy hu, htakes.followedBy rest, hkind⟩

theorem EndsLine.followedBy (h : s.EndsLine t) (hs : s.ahead ≠ []) (rest : List Token) :
    (s.followedBy rest).EndsLine (t.followedBy rest) := by
  have hends : ((s.followedBy rest).done ∨ (s.followedBy rest).afterLineBreak) ↔
      (s.done ∨ s.afterLineBreak) := or_congr_left (done_followedBy hs)
  unfold EndsLine at h ⊢
  by_cases hend : s.done ∨ s.afterLineBreak
  · rw [if_pos hend] at h
    rw [if_pos (hends.2 hend), h]
  · rw [if_neg hend] at h
    obtain ⟨stop, htakes, hkind⟩ := h
    rw [if_neg (hend ∘ hends.1)]
    exact ⟨stop, htakes.followedBy rest, hkind⟩

theorem power_followedBy {power : Kind → Int} {lineBreaksEnd : Bool} (h : s.Decided) :
    (s.followedBy rest).power power lineBreaksEnd = s.power power lineBreaksEnd := by
  obtain ⟨k, hk, hkind⟩ := h
  have hcurrent : (s.followedBy rest).current? = s.current? :=
    current?_followedBy (List.ne_nil_of_mem hk)
  have hgroup : (s.followedBy rest).inGroup = s.inGroup := rfl
  have hbreak : (s.followedBy rest).afterLineBreak = s.afterLineBreak := rfl
  unfold State.power
  rw [hgroup, hbreak, hcurrent]
  split
  next hin =>
    have hfound : (s.ahead.find? (·.kind ≠ .newline)).isSome :=
      List.find?_isSome.2 ⟨k, hk, by simpa using hkind hin⟩
    rw [State.followedBy, List.find?_append, Option.or_of_isSome hfound]
  next => rfl

/-- Tokens behind bind no tighter or looser to what was read than those ahead. -/
theorem loose_followedBy {setup : Setup PrefixRule InfixRule} {least : Int} (h : s.Decided) :
    ((s.followedBy rest).done ∨ setup.power (s.followedBy rest) ≤ least) ↔
      (s.done ∨ setup.power s ≤ least) := by
  have hpower : setup.power (s.followedBy rest) = setup.power s := power_followedBy h
  rw [hpower]
  exact or_congr_left (done_followedBy h.ahead_ne_nil)

/-- What is missing is missing also with tokens behind, if it is missed at a token. -/
theorem Misses.followedBy {source : String} {d : Diagnostic} (h : s.Misses source kind d)
    (hd : d.cause.IsFinal) (rest : List Token) : (s.followedBy rest).Misses source kind d := by
  cases h with
  | ended _ => exact absurd hd id
  | other htoken hkind =>
    refine .other ?_ hkind
    rw [current?_followedBy (ahead_ne_nil_of_current? htoken), htoken]

theorem Unclosed.followedBy {source : String} {d : Diagnostic} (h : s.Unclosed source close d)
    (hd : d.cause.IsFinal) (rest : List Token) : (s.followedBy rest).Unclosed source close d := by
  obtain ⟨u, hu, hmiss⟩ := h
  exact ⟨_, closeGroup?_followedBy hu, hmiss.followedBy hd rest⟩

/-- What is missed before the tokens end is missed at a token. -/
theorem Misses.exists_token {source : String} {d : Diagnostic} (h : s.Misses source kind d)
    (hd : d.cause.IsFinal) : ∃ token, s.current? = some token ∧ token.kind ≠ kind := by
  cases h with
  | ended _ => exact absurd hd id
  | other htoken hkind => exact ⟨_, htoken, hkind⟩

theorem Unclosed.exists_token {source : String} {d : Diagnostic} (h : s.Unclosed source close d)
    (hd : d.cause.IsFinal) : ∃ token, s.current? = some token := by
  obtain ⟨u, hu, hmiss⟩ := h
  obtain ⟨token, htoken, _⟩ := hmiss.exists_token hd
  refine ⟨token, ?_⟩
  rwa [current?, ← ahead_of_closeGroup? hu]

end Reading.State

variable {setup : Setup PrefixRule InfixRule} {task : Task} {s t : State} {out : List Tree}
  {d : Diagnostic}

namespace Run

/-- Behind the items of a bracketed sequence no line break is ahead. -/
theorem skipLineBreaks_of_items {close : Kind} (h : Run setup task s out t)
    (htask : task = .items close) : t.skipLineBreaks = t := by
  induction h with
  | noItems _ | lastItem _ _ _ _ => exact State.skipLineBreaks_skipLineBreaks _
  | item _ _ _ _ _ _ ih => exact ih htask
  | _ => cases htask

/-- What is read up to a closing bracket is read up to it with tokens behind. -/
theorem bracketed_followedBy {close : Kind} {stop : Token} {u : State} {rest : List Token}
    (hstop : t.Closes close stop u) (hclose : close ≠ .newline)
    (h : t.Decided → Run setup task (s.openGroup.followedBy rest) out (t.followedBy rest)) :
    Run setup task (s.followedBy rest).openGroup out (t.followedBy rest) ∧
      (t.followedBy rest).Closes close stop (u.followedBy rest) := by
  rw [State.openGroup_followedBy]
  exact ⟨h (hstop.hasToken hclose).decided, hstop.followedBy rest⟩

/-- With tokens behind, line breaks before an expression are skipped up to the same place. -/
theorem skipping_followedBy {least : Int} {out' : List Tree} {t' : State} {rest : List Token}
    (h : Run setup (.expression least) s.skipLineBreaks out t)
    (h' : Run setup task (s.skipLineBreaks.followedBy rest) out' t') :
    Run setup task (s.followedBy rest).skipLineBreaks out' t' := by
  rwa [State.skipLineBreaks_followedBy (.of_skipLineBreaks h.ahead_ne_nil)]

/-- With tokens behind those ahead the same is read, if a token ahead decides where it ends. -/
theorem followedBy (h : Run setup task s out t) (ht : t.Decided) (rest : List Token) :
    Run setup task (s.followedBy rest) out (t.followedBy rest) := by
  induction h with
  | @nested _ s _ _ hdepth _ ih => exact .nested (s := s.followedBy rest) hdepth (ih ht)
  | first htoken hrule _ hextension ih ih' =>
    obtain ⟨ks, hpasses⟩ := hextension.passes
    exact .first (htoken.grouped_followedBy rest) hrule (ih (ht.of_passes hpasses)) (ih' ht)
  | stop hloose => exact .stop ((State.loose_followedBy ht).2 hloose)
  | next htight htoken hrule _ hextension ih ih' =>
    obtain ⟨ks, hpasses⟩ := hextension.passes
    exact .next (htight ∘ (State.loose_followedBy (.of_skipGroupedLineBreaks htoken.1)).1)
      (htoken.grouped_followedBy rest) hrule
      (ih (ht.of_passes hpasses)) (ih' ht)
  | identifier => exact .identifier
  | number hvalue => exact .number hvalue
  | string hinside => exact .string hinside
  | boolean => exact .boolean
  | unary hoperator _ ih => exact .unary hoperator (ih ht)
  | parameters _ hstop harrow hnames ih =>
    obtain ⟨hitems', hstop'⟩ := bracketed_followedBy hstop (by decide) ih
    exact .parameters hitems' hstop' (by rwa [State.isNext_followedBy ht.ahead_ne_nil]) hnames
  | grouping _ hstop harrow ih =>
    obtain ⟨hitem', hstop'⟩ := bracketed_followedBy hstop (by decide) ih
    exact .grouping hitem' hstop' (by rwa [State.isNext_followedBy ht.ahead_ne_nil])
  | list _ hstop ih =>
    obtain ⟨hitems', hstop'⟩ := bracketed_followedBy hstop (by decide) ih
    exact .list hitems' hstop'
  | binary hoperator _ ih => exact .binary hoperator (ih ht)
  | assignment htarget _ ih => exact .assignment htarget (ih ht)
  | conditional _ ih => exact .conditional (ih ht)
  | function hnames _ ih => exact .function hnames (ih ht)
  | call _ hstop ih =>
    obtain ⟨hitems', hstop'⟩ := bracketed_followedBy hstop (by decide) ih
    exact .call hitems' hstop'
  | index _ hstop ih =>
    have hbracket := (hstop.hasToken (by decide)).of_passes (State.passes_skipLineBreaks _)
    have hitem := ih hbracket.decided
    rw [← State.openGroup_followedBy] at hitem
    refine .index hitem ?_
    rw [State.skipLineBreaks_followedBy hbracket]
    exact hstop.followedBy rest
  | noItems hclosed =>
    rw [← State.skipLineBreaks_followedBy (.of_skipLineBreaks ht.ahead_ne_nil)]
    exact .noItems (by rwa [State.isNext_skipLineBreaks_followedBy ht.ahead_ne_nil])
  | lastItem hopen hitem hlast ih =>
    have htoken := State.HasToken.of_skipLineBreaks ht.ahead_ne_nil
    have hitem' := hitem.skipping_followedBy (ih htoken.decided)
    rw [← State.skipLineBreaks_followedBy htoken]
    exact .lastItem (by rwa [State.isNext_skipLineBreaks_followedBy hitem.ahead_ne_nil]) hitem'
      (by rwa [State.isNext_skipLineBreaks_followedBy ht.ahead_ne_nil])
  | item hopen hitem hcomma hkind _ ih ih' =>
    have hcomma' := hcomma.followedBy rest
    have htoken := State.HasToken.of_skipLineBreaks (State.ahead_ne_nil_of_current? hcomma.1)
    have hitem' := hitem.skipping_followedBy (ih htoken.decided)
    rw [← State.skipLineBreaks_followedBy htoken] at hcomma'
    exact .item (by rwa [State.isNext_skipLineBreaks_followedBy hitem.ahead_ne_nil]) hitem' hcomma'
      hkind (ih' ht)
  | noTokens hdone =>
    obtain ⟨token, htoken⟩ := State.exists_current? ht.ahead_ne_nil
    cases hdone.symm.trans htoken
  | outdent htoken hcolumn =>
    rw [← State.skipLineBreaks_followedBy (.of_skipLineBreaks ht.ahead_ne_nil)]
    exact .outdent (State.current?_skipLineBreaks_followedBy htoken) hcolumn
  | statement htoken hcolumn htree hline htrees ih ih' =>
    obtain ⟨ks, hpasses⟩ := htrees.passes
    obtain ⟨ls, _, hpasses'⟩ := hline.passes
    have hu := (ht.of_passes hpasses).of_passes hpasses'
    have htree' := htree.skipping_followedBy (ih hu)
    exact .statement (State.current?_skipLineBreaks_followedBy htoken) hcolumn htree'
      (hline.followedBy hu.ahead_ne_nil rest) (ih' ht)
  | inlineBody hinline htree ih =>
    exact .inlineBody (by rwa [State.isNext_followedBy htree.ahead_ne_nil]) (ih ht)
  | @indentedBody s t _ _ _ hbreak htoken hcolumn htrees hclose ih =>
    have hs := State.ahead_ne_nil_of_current? htoken
    have htoken' := State.HasToken.of_skipLineBreaks hs
    have ht' : t.Decided := by
      obtain ⟨ks, hpasses⟩ := htrees.passes
      have hout : ¬t.inGroup := by rw [hpasses.inGroup]; exact Bool.false_ne_true
      refine .of_not_inGroup ?_ hout
      rw [← State.ahead_of_closeBlock? hclose]
      exact ht.ahead_ne_nil
    have htrees' : Run setup (.statements s.skipLineBreaks.openBlock.indentation.current)
        (s.skipLineBreaks.followedBy rest).openBlock _ _ := ih ht'
    rw [← State.skipLineBreaks_followedBy htoken'] at htrees'
    have hlevel : (s.followedBy rest).skipLineBreaks.openBlock.indentation.current =
        s.skipLineBreaks.openBlock.indentation.current := rfl
    exact .indentedBody (by rwa [State.isNext_followedBy htoken'.decided.ahead_ne_nil])
      (State.current?_skipLineBreaks_followedBy htoken) (by rwa [hlevel]) (by rwa [hlevel])
      (State.closeBlock?_followedBy hclose)

end Run

namespace Failure

/-- Where no token is left an expression reports that, or that it is nested too deeply. -/
theorem ahead_ne_nil {least : Int} (h : Failure setup (.expression least) s d)
    (hd : d.cause.IsFinal) : s.ahead ≠ [] := by
  intro hs
  obtain ⟨_, rfl⟩ | ⟨_, hclimb⟩ := Language.failure_expression_iff.1 h
  · exact hd
  · obtain rfl := (Language.failure_climb_of_done (s := { s with depth := s.depth + 1 }) hs).1 hclimb
    exact hd

/-- What an expression reports at its next operator is about a token. -/
theorem decided_of_extension (h : Failure setup task s d) (hd : d.cause.IsFinal) {least : Int}
    {left : Tree} (htask : task = .extension least left) : s.Decided := by
  subst htask
  cases h with
  | noOperator _ _ => exact absurd hd id
  | noInfix _ htoken _ =>
    exact .of_skipGroupedLineBreaks htoken
  | continuation _ htoken _ _ | next _ htoken _ _ _ =>
    exact .of_skipGroupedLineBreaks htoken.1
  | refused hnone | operand hnone _ | inside hnone _ | unclosed hnone _ _ => cases hnone

/-- What the statements of a block report is about a token. -/
theorem hasToken_of_statements {level : Nat} (h : Failure setup (.statements level) s d) :
    s.HasToken := by
  cases h with
  | overindented htoken _ | statement htoken _ _ | line htoken _ _ _ _
  | laterStatement htoken _ _ _ _ =>
    exact .of_skipLineBreaks (State.ahead_ne_nil_of_current? htoken)
  | refused hnone | operand hnone _ | inside hnone _ | unclosed hnone _ _ => cases hnone

/-- With tokens behind those ahead the same is reported, if it is final. -/
theorem followedBy (h : Failure setup task s d) (hd : d.cause.IsFinal) (rest : List Token) :
    Failure setup task (s.followedBy rest) d := by
  induction h with
  | limit _ | noToken _ | noOperator _ _ | noBody _ _ => exact absurd hd id
  | noFollower _ _ _ _ => exact absurd rfl hd
  | @nested _ s _ hdepth _ ih => exact .nested (s := s.followedBy rest) hdepth (ih hd)
  | noPrefix htoken hrule => exact .noPrefix (State.current?_grouped_followedBy htoken) hrule
  | start htoken hrule _ ih => exact .start (htoken.grouped_followedBy rest) hrule (ih hd)
  | extension htoken hrule hstart hextension ih =>
    have hu := hextension.decided_of_extension hd rfl
    exact .extension (htoken.grouped_followedBy rest) hrule (hstart.followedBy hu rest) (ih hd)
  | noInfix htight htoken hrule =>
    exact .noInfix (htight ∘ (State.loose_followedBy (.of_skipGroupedLineBreaks htoken)).1)
      (State.current?_grouped_followedBy htoken) hrule
  | continuation htight htoken hrule _ ih =>
    exact .continuation (htight ∘ (State.loose_followedBy (.of_skipGroupedLineBreaks htoken.1)).1)
      (htoken.grouped_followedBy rest)
      hrule (ih hd)
  | next htight htoken hrule hcontinuation hextension ih =>
    have hu := hextension.decided_of_extension hd rfl
    exact .next (htight ∘ (State.loose_followedBy (.of_skipGroupedLineBreaks htoken.1)).1)
      (htoken.grouped_followedBy rest) hrule
      (hcontinuation.followedBy hu rest) (ih hd)
  | refused hrefusal => exact .refused hrefusal
  | operand hreads _ ih => exact .operand hreads (ih hd)
  | inside hclose _ ih =>
    have hitems := ih hd
    rw [← State.openGroup_followedBy] at hitems
    exact .inside hclose hitems
  | unclosed hclose hitems hstop =>
    obtain ⟨token, htoken⟩ := hstop.exists_token hd
    have hskip := hitems.skipLineBreaks_of_items rfl
    have ht := State.HasToken.of_skipLineBreaks (hskip.symm ▸ State.ahead_ne_nil_of_current? htoken)
    have hitems' := hitems.followedBy ht.decided rest
    rw [← State.openGroup_followedBy] at hitems'
    exact .unclosed hclose hitems' (hstop.followedBy hd rest)
  | parameter hitems hstop harrow hitem =>
    obtain ⟨hitems', hstop'⟩ := Run.bracketed_followedBy hstop (by decide) (hitems.followedBy · rest)
    exact .parameter hitems' hstop'
      (by rwa [State.isNext_followedBy (State.ahead_ne_nil_of_isNext harrow)]) hitem
  | noArrow hitems hstop hsingle hfollower hkind =>
    obtain ⟨hitems', hstop'⟩ := Run.bracketed_followedBy hstop (by decide) (hitems.followedBy · rest)
    refine .noArrow hitems' hstop' hsingle ?_ hkind
    rw [State.current?_followedBy (State.ahead_ne_nil_of_current? hfollower), hfollower]
  | index _ ih =>
    have hitem := ih hd
    rw [← State.openGroup_followedBy] at hitem
    exact .index hitem
  | unclosedIndex hitem hstop =>
    obtain ⟨token, htoken⟩ := hstop.exists_token hd
    have ht := State.HasToken.of_skipLineBreaks (State.ahead_ne_nil_of_current? htoken)
    have hitem' := hitem.followedBy ht.decided rest
    rw [← State.openGroup_followedBy] at hitem'
    refine .unclosedIndex hitem' ?_
    rw [State.skipLineBreaks_followedBy ht]
    exact hstop.followedBy hd rest
  | item hopen hitem ih =>
    have hs := hitem.ahead_ne_nil hd
    have hitem' := ih hd
    rw [← State.skipLineBreaks_followedBy (.of_skipLineBreaks hs)] at hitem'
    exact .item (by rwa [State.isNext_skipLineBreaks_followedBy hs]) hitem'
  | laterItem hopen hitem hcomma hkind _ ih =>
    have hcomma' := hcomma.followedBy rest
    have htoken := State.HasToken.of_skipLineBreaks (State.ahead_ne_nil_of_current? hcomma.1)
    have hitem' := hitem.skipping_followedBy (hitem.followedBy htoken.decided rest)
    rw [← State.skipLineBreaks_followedBy htoken] at hcomma'
    exact .laterItem (by rwa [State.isNext_skipLineBreaks_followedBy hitem.ahead_ne_nil]) hitem'
      hcomma' hkind (ih hd)
  | overindented htoken hcolumn =>
    exact .overindented (State.current?_skipLineBreaks_followedBy htoken) hcolumn
  | statement htoken hcolumn _ ih =>
    have hs := State.ahead_ne_nil_of_current? htoken
    have htree := ih hd
    rw [← State.skipLineBreaks_followedBy (.of_skipLineBreaks hs)] at htree
    exact .statement (State.current?_skipLineBreaks_followedBy htoken) hcolumn htree
  | @line _ _ t _ _ _ htoken hcolumn htree hopen hline =>
    obtain ⟨k, hk, hkind⟩ := hline.exists_token hd
    have ht := (State.HasToken.of_current? hk hkind).decided
    have htree' := htree.skipping_followedBy (htree.followedBy ht rest)
    have hopen' : ¬((t.followedBy rest).done ∨ (t.followedBy rest).afterLineBreak) :=
      hopen ∘ Or.imp_left (State.done_followedBy ht.ahead_ne_nil).1
    exact .line (State.current?_skipLineBreaks_followedBy htoken) hcolumn htree' hopen'
      (hline.followedBy hd rest)
  | laterStatement htoken hcolumn htree hline htrees ih =>
    obtain ⟨ls, _, hpasses⟩ := hline.passes
    have ht := htrees.hasToken_of_statements.of_passes hpasses
    have htree' := htree.skipping_followedBy (htree.followedBy ht.decided rest)
    exact .laterStatement (State.current?_skipLineBreaks_followedBy htoken) hcolumn htree'
      (hline.followedBy ht.decided.ahead_ne_nil rest) (ih hd)
  | inlineBody hinline htree ih =>
    exact .inlineBody (by rwa [State.isNext_followedBy (htree.ahead_ne_nil hd)]) (ih hd)
  | @shallowBody s _ hbreak htoken hcolumn =>
    exact .shallowBody (s := s.followedBy rest)
      (by rwa [State.isNext_followedBy (State.ahead_ne_nil_of_isNext hbreak)])
      (State.current?_skipLineBreaks_followedBy htoken) hcolumn
  | @indentedBody s _ _ hbreak htoken hcolumn _ ih =>
    have hs := State.ahead_ne_nil_of_current? htoken
    have htrees : Failure setup (.statements s.skipLineBreaks.openBlock.indentation.current)
        (s.skipLineBreaks.followedBy rest).openBlock _ := ih hd
    rw [← State.skipLineBreaks_followedBy (.of_skipLineBreaks hs)] at htrees
    exact .indentedBody (s := s.followedBy rest)
      (by rwa [State.isNext_followedBy (State.ahead_ne_nil_of_isNext hbreak)])
      (State.current?_skipLineBreaks_followedBy htoken) hcolumn htrees

end Failure

namespace Program

variable {source : String} {settings : Settings} {tokens : List Token}

/-- What is reported about the tokens of a program is reported whatever tokens come behind them, unless
it is that the tokens ended, that an arrow is missing at their end, or that expressions are nested too
deeply. -/
theorem parse_append_of_reported (hparse : parse source settings tokens = .error (.reported d))
    (hd : d.cause.IsFinal) (rest : List Token) :
    parse source settings (tokens ++ rest) = .error (.reported d) := by
  have hfailure := (parse_eq_reported_iff.1 hparse).followedBy hd rest
  exact parse_eq_reported_iff.2 hfailure

/-- In a block inside brackets a second name on a line is reported before the block and the brackets are
seen to end. -/
theorem parse_append_of_reported_in_block : ∃ tokens rest d,
    Tokens.ofSource "f(x ->\n  y z\n)" = .ok (tokens ++ rest) ∧ rest.map (·.kind) = [.newline, .closeParen] ∧
    parse "f(x ->\n  y z\n)" {} tokens = .error (.reported d) ∧
    d.cause = .unexpected .newline .identifier "z" ∧ d.cause.IsFinal ∧
    parse "f(x ->\n  y z\n)" {} (tokens ++ rest) = .error (.reported d) := by
  obtain ⟨tokens, htokens, hf⟩ : ∃ tokens, Tokens.ofSource "f(x ->\n  y z\n)" = .ok tokens ∧
      ((tokens.drop 7).map (·.kind),
        (reported? (parse "f(x ->\n  y z\n)" {} (tokens.take 7))).map (·.cause)) =
      ([.newline, .closeParen], some (.unexpected .newline .identifier "z")) :=
    Tokens.exists_of_ofSource (by decide +kernel)
  simp only [Prod.mk.injEq, Option.map_eq_some_iff] at hf
  obtain ⟨hkinds, d, hd, hcause⟩ := hf
  have hparse := reported?_eq_some_iff.1 hd
  have hfinal : d.cause.IsFinal := by rw [hcause]; trivial
  exact ⟨tokens.take 7, tokens.drop 7, d, by rw [List.take_append_drop, htokens], hkinds, hparse, hcause,
    hfinal, parse_append_of_reported hparse hfinal _⟩

end Program

end Offside
