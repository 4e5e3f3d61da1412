import Offside.Proofs.Grouping
import Offside.Proofs.Parallel.Agreeing
import Offside.Proofs.Reading.Climbing
import Offside.Proofs.Run.LineStarts

set_option autoImplicit false

/-!
# Inside a bracket line breaks are as good as absent

Names with operators between them are read inside a bracket as the same tokens are read outside brackets when
the line breaks are taken out of them. Inside, the next operator is looked for behind any number of line
breaks and these are passed in a step of their own; outside, it is the next token.
-/
namespace Offside.Bracketing

open Reading

variable {setup : Setup PrefixRule InfixRule} {operand operand' : Int → Reading String}
  {s s' t t' : State} {token : Token} {least : Int}

/-! ### States inside and outside brackets -/

/-- The first state is inside a bracket. The second one is outside brackets and within a line, with the same
tokens ahead but for line breaks. -/
structure Smoothed (s s' : State) : Prop where
  ahead : s'.ahead = s.ahead.filter (·.kind ≠ .newline)
  depth : s'.depth = s.depth
  inside : s.inGroup
  outside : ¬s'.inGroup
  withinLine : ¬s'.afterLineBreak

namespace Smoothed

theorem current? (h : Smoothed s s') : s'.current? = s.skipLineBreaks.current? := by
  rw [← State.find?_eq_current?, State.current?, h.ahead, List.head?_filter]

theorem withDepth (h : Smoothed s s') (f : Nat → Nat) :
    Smoothed { s with depth := f s.depth } { s' with depth := f s'.depth } :=
  ⟨h.ahead, congrArg f h.depth, h.inside, h.outside, h.withinLine⟩

theorem skipGroupedLineBreaks_left (h : Smoothed s s') : s.skipGroupedLineBreaks = s.skipLineBreaks :=
  if_pos h.inside

theorem skipGroupedLineBreaks_right (h : Smoothed s s') : s'.skipGroupedLineBreaks = s' :=
  if_neg h.outside

/-- The next token binds as tightly inside as outside. -/
theorem power (h : Smoothed s s') : setup.power s' = setup.power s := by
  have hnext : s.ahead.find? (·.kind ≠ .newline) = s'.current? :=
    (State.find?_eq_current? s).trans h.current?.symm
  simp only [Setup.power, State.power, h.inside, h.outside, h.withinLine, hnext, if_true]
  rfl

theorem current?_eq_none_of_done (h : Smoothed s s') (hdone : s.done) : s'.current? = none := by
  rw [State.current?, h.ahead, State.done_iff.1 hdone]
  rfl

/-- The loop over the operators ends inside where it ends outside: with only line breaks ahead nothing binds
tighter than zero. -/
theorem loose_iff (h : Smoothed s s') (hleast : 0 ≤ least) :
    (s'.done ∨ setup.power s' ≤ least) ↔ (s.done ∨ setup.power s ≤ least) := by
  have hnothing : s'.current? = none → setup.power s' ≤ least := fun hnone => by
    have hzero : setup.power s' = 0 := by
      simp [Setup.power, State.power, h.outside, h.withinLine, hnone]
    omega
  constructor
  · rintro (hdone | hpower)
    · have hpower : setup.power s' = setup.power s := h.power
      refine .inr (hpower ▸ hnothing ?_)
      rw [State.current?, State.done_iff.1 hdone]
      rfl
    · exact .inr (h.power ▸ hpower)
  · rintro (hdone | hpower)
    · exact .inr (hnothing (h.current?_eq_none_of_done hdone))
    · exact .inr (h.power.symm ▸ hpower)

/-- How tightly the next token binds is how tightly its kind binds. -/
theorem power_of_takes (h : Smoothed s s') (htakes : s'.skipGroupedLineBreaks.Takes token t') :
    setup.power s = setup.grammar.power token.kind := by
  rw [h.skipGroupedLineBreaks_right] at htakes
  rw [← h.power]
  simp [Setup.power, State.power, h.outside, h.withinLine, htakes.1]

/-- Only line breaks are ahead inside and nothing outside, or the same token is taken by both. -/
theorem ended_or_takes (h : Smoothed s s') :
    (s.skipGroupedLineBreaks.current? = none ∧ s'.skipGroupedLineBreaks.current? = none) ∨
    ∃ token t t', s.skipGroupedLineBreaks.Takes token t ∧ s'.skipGroupedLineBreaks.Takes token t' ∧
      Smoothed t t' := by
  rw [h.skipGroupedLineBreaks_left, h.skipGroupedLineBreaks_right, h.current?]
  cases hcurrent : s.skipLineBreaks.current? with
  | none => exact .inl ⟨rfl, rfl⟩
  | some token =>
    have hkind := State.ne_newline_of_skipLineBreaks hcurrent
    have htakes : s.skipLineBreaks.Takes token s.skipLineBreaks.advance := ⟨hcurrent, rfl⟩
    have htakes' : s'.Takes token s'.advance := ⟨h.current?.trans hcurrent, rfl⟩
    refine .inr ⟨token, _, _, htakes, htakes', ?_⟩
    have hpasses := (State.passes_skipLineBreaks s).trans htakes.passes
    have hpasses' := htakes'.passes
    have hskipped : (s.ahead.takeWhile (·.kind = .newline)).filter (·.kind ≠ .newline) = [] :=
      List.filter_eq_nil_iff.2 fun k hk => by simp [State.kind_of_mem_takeWhile hk]
    refine ⟨?_, hpasses'.depth.trans (h.depth.trans hpasses.depth.symm), hpasses.inGroup ▸ h.inside,
      hpasses'.inGroup ▸ h.outside, ?_⟩
    · have hahead := h.ahead
      rw [hpasses.ahead, hpasses'.ahead, List.filter_append, List.filter_append, hskipped,
        List.filter_singleton, List.nil_append] at hahead
      simpa [hkind] using hahead
    · exact State.not_afterLineBreak_of_behind? (State.behind?_of_takes htakes') hkind

end Smoothed

/-! ### Readings inside and outside brackets -/

/-- Both readings give the same text, with at most so many tokens left inside and outside the bracket, or they
report the same cause. -/
inductive SameOutcome (size size' : Nat) :
    EStateM.Result Fault State String → EStateM.Result Fault State String → Prop
  | text (text : String) {t t' : State} (h : Smoothed t t') (hsize : t.ahead.length ≤ size)
      (hsize' : t'.ahead.length ≤ size') : SameOutcome size size' (.ok text t) (.ok text t')
  | reported (cause : Cause) (p p' : Position) (t t' : State) :
      SameOutcome size size' (.error (.reported ⟨cause, p⟩) t) (.error (.reported ⟨cause, p'⟩) t')

namespace SameOutcome

variable {f f' : Reading String} {g g' : String → Reading String} {size size' more more' : Nat}

theorem mono {r r' : EStateM.Result Fault State String} (h : SameOutcome size size' r r')
    (hsize : size ≤ more) (hsize' : size' ≤ more') : SameOutcome more more' r r' := by
  cases h with
  | text text h ht ht' => exact .text text h (ht.trans hsize) (ht'.trans hsize')
  | reported cause p p' t t' => exact .reported cause p p' t t'

theorem bind (h : SameOutcome size size' (f s) (f' s'))
    (hg : ∀ text t t', Smoothed t t' → t.ahead.length ≤ size → t'.ahead.length ≤ size' →
      SameOutcome more more' (g text t) (g' text t')) :
    SameOutcome more more' ((f >>= g) s) ((f' >>= g') s') := by
  rw [bind_apply, bind_apply]
  generalize f s = r, f' s' = r' at h
  cases h with
  | text text h ht ht' => exact hg text _ _ h ht ht'
  | reported cause p p' t t' => exact .reported cause p p' t t'

/-- The readings go on behind the next token, or there is none. -/
theorem taking {f f' : Token → Reading String} (h : Smoothed s s')
    (hf : ∀ token t t', s'.skipGroupedLineBreaks.Takes token t' → Smoothed t t' →
      t.ahead.length < s.ahead.length → t'.ahead.length < s'.ahead.length →
      SameOutcome size size' (f token t) (f' token t')) :
    SameOutcome size size' ((skipGroupedLineBreaks >>= fun _ => consume >>= f) s)
      ((skipGroupedLineBreaks >>= fun _ => consume >>= f') s') := by
  obtain ⟨hended, hended'⟩ | ⟨token, t, t', htakes, htakes', ht⟩ := h.ended_or_takes
  · rw [taking_of_ended hended, taking_of_ended hended']
    exact .reported _ _ _ _ _
  · rw [taking_of_takes htakes, taking_of_takes htakes']
    exact hf token t t' htakes' ht (Language.length_lt_of_takes htakes).1
      (Language.length_lt_of_takes htakes').1

theorem nested {limit : Nat} (h : Smoothed s s')
    (hf : ∀ t t', Smoothed t t' → t.ahead = s.ahead → t'.ahead = s'.ahead →
      SameOutcome size size' (f t) (f' t')) :
    SameOutcome size size' (nested limit f s) (nested limit f' s') := by
  have hdeeper := hf _ _ (h.withDepth (· + 1)) rfl rfl
  unfold Reading.nested
  simp only [h.depth] at hdeeper ⊢
  split
  · exact .reported _ _ _ _ _
  · generalize f { s with depth := s.depth + 1 } = r, f' { s' with depth := s.depth + 1 } = r' at hdeeper
    cases hdeeper with
    | text text ht hsize hsize' => exact .text text (ht.withDepth (· - 1)) hsize hsize'
    | reported cause p p' t t' => exact .reported cause p p' _ _

end SameOutcome

/-! ### The climbing inside and outside brackets -/

/-- With at most so many tokens ahead inside and outside, the operands read alike. -/
def Alike (size size' : Nat) (operand operand' : Int → Reading String) : Prop :=
  ∀ least s s', 0 ≤ least → Smoothed s s' → s.ahead.length ≤ size → s'.ahead.length ≤ size' →
    SameOutcome s.ahead.length s'.ahead.length (operand least s) (operand' least s')

variable {size size' rounds rounds' : Nat} {left : String}

theorem sameOutcome_first (hnames : ∀ kind rule, setup.grammar.prefixRule? kind = some rule → rule = .name)
    (h : Smoothed s s') : SameOutcome (s.ahead.length - 1) (s'.ahead.length - 1)
      (language.first setup operand s) (language.first setup operand' s') := by
  refine .taking h fun token t t' _ ht hlt hlt' => ?_
  cases hrule : setup.grammar.prefixRule? token.kind with
  | none => exact .reported _ _ _ _ _
  | some rule =>
    obtain rfl := hnames _ _ hrule
    exact .text _ ht (by omega) (by omega)

/-- An operator that binds tighter than zero asks its right operand for nothing below zero. -/
theorem sameOutcome_infixRule (hoperands : Alike size size' operand operand') (rule : InfixRule)
    (hpower : 0 < setup.grammar.power token.kind) (h : Smoothed s s') (hsize : s.ahead.length ≤ size)
    (hsize' : s'.ahead.length ≤ size') :
    SameOutcome s.ahead.length s'.ahead.length (rule.read (setup.reader operand) left token s)
      (rule.read (setup.reader operand') left token s') := by
  cases rule with
  | left =>
    have hleast : 0 ≤ (setup.reader operand).power token.kind := Int.le_of_lt hpower
    exact .bind (hoperands _ s s' hleast h hsize hsize') fun _ _ _ ht hlt hlt' => .text _ ht hlt hlt'
  | right =>
    have hleast : 0 ≤ (setup.reader operand).power token.kind - 1 := Int.le_sub_one_of_lt hpower
    exact .bind (hoperands _ s s' hleast h hsize hsize') fun _ _ _ ht hlt hlt' => .text _ ht hlt hlt'
  | trailing => exact .text _ h le_rfl le_rfl

theorem sameOutcome_next (hoperands : Alike size size' operand operand') (h : Smoothed s s')
    (hpower : 0 < setup.power s) (hsize : s.ahead.length ≤ size + 1)
    (hsize' : s'.ahead.length ≤ size' + 1) :
    SameOutcome (s.ahead.length - 1) (s'.ahead.length - 1) (language.next setup operand left s)
      (language.next setup operand' left s') := by
  refine .taking h fun token t t' htakes ht hlt hlt' => ?_
  cases setup.grammar.infixRule? token.kind with
  | none => exact .reported _ _ _ _ _
  | some rule =>
    have hread : SameOutcome t.ahead.length t'.ahead.length (rule.read (setup.reader operand) left token t)
        (rule.read (setup.reader operand') left token t') :=
      sameOutcome_infixRule hoperands rule (h.power_of_takes htakes ▸ hpower) ht (by omega) (by omega)
    exact hread.mono (by omega) (by omega)

/-- Inside and outside the loop makes the same rounds, though it may be allowed more of them inside, where
line breaks count as tokens. -/
theorem sameOutcome_extend (hoperands : Alike size size' operand operand') (hleast : 0 ≤ least)
    (h : Smoothed s s') (hsize : s.ahead.length ≤ size + 1) (hsize' : s'.ahead.length ≤ size' + 1)
    (hrounds : s.ahead.length ≤ rounds) (hrounds' : s'.ahead.length ≤ rounds') : SameOutcome s.ahead.length s'.ahead.length
      (language.extend setup operand least rounds left s)
      (language.extend setup operand' least rounds' left s') := by
  induction rounds generalizing rounds' left s s' with
  | zero =>
    have hdone : s.done := State.done_iff.2 (List.length_eq_zero_iff.1 (Nat.le_zero.1 hrounds))
    rw [Language.extend_of_loose (.inl hdone), Language.extend_of_loose ((h.loose_iff hleast).2 (.inl hdone))]
    exact .text left h le_rfl le_rfl
  | succ rounds ih =>
    by_cases hloose : s.done ∨ setup.power s ≤ least
    · rw [Language.extend_of_loose hloose, Language.extend_of_loose ((h.loose_iff hleast).2 hloose)]
      exact .text left h le_rfl le_rfl
    have htight : ¬(s'.done ∨ setup.power s' ≤ least) := mt (h.loose_iff hleast).1 hloose
    have hnonempty : 0 < s'.ahead.length := by
      simpa [State.done, List.length_pos_iff] using fun hdone => htight (.inl hdone)
    obtain ⟨rounds', rfl⟩ : ∃ k, rounds' = k + 1 := ⟨rounds' - 1, by omega⟩
    rw [Language.extend, Language.extend, look_apply, look_apply, if_neg hloose, if_neg htight]
    have hpower : 0 < setup.power s := by
      have := not_or.1 hloose
      omega
    refine .bind (sameOutcome_next hoperands h hpower hsize hsize') fun longer t t' ht hlt hlt' => ?_
    exact (ih ht (by omega) (by omega) (by omega) (by omega)).mono (by omega) (by omega)

theorem sameOutcome_climb (hnames : ∀ kind rule, setup.grammar.prefixRule? kind = some rule → rule = .name)
    (hoperands : Alike size size' operand operand') (hleast : 0 ≤ least) (h : Smoothed s s')
    (hsize : s.ahead.length ≤ size + 1) (hsize' : s'.ahead.length ≤ size' + 1) :
    SameOutcome s.ahead.length s'.ahead.length
      (language.climb setup operand least s) (language.climb setup operand' least s') := by
  refine .bind (sameOutcome_first hnames h) fun left t t' ht hlt hlt' => ?_
  rw [look_apply, look_apply]
  exact (sameOutcome_extend hoperands hleast ht (by omega) (by omega) le_rfl le_rfl).mono (by omega) (by omega)

/-- Whatever its bound is, an expression has reached the end of the input where no token is left to take. -/
theorem exists_expressionWithin_eq (setup : Setup PrefixRule InfixRule) (bound : Nat) (least : Int) :
    ∃ f : Reading String, language.expressionWithin setup bound least = nested setup.settings.maxDepth f ∧
      ∀ s, s.skipGroupedLineBreaks.current? = none →
        ∃ p t, f s = .error (.reported ⟨.endOfInput, p⟩) t := by
  cases bound with
  | zero => exact ⟨_, rfl, fun s _ => ⟨_, _, rfl⟩⟩
  | succ bound =>
    refine ⟨_, rfl, fun s hended => ?_⟩
    rw [Language.climb, bind_apply, Language.first, taking_of_ended hended]
    exact ⟨_, _, rfl⟩

theorem sameOutcome_of_ended (h : Smoothed s s') (hended : s'.current? = none) (bound bound' : Nat) :
    SameOutcome size size' (language.expressionWithin setup bound least s)
      (language.expressionWithin setup bound' least s') := by
  obtain ⟨f, hf, hreports⟩ := exists_expressionWithin_eq setup bound least
  obtain ⟨f', hf', hreports'⟩ := exists_expressionWithin_eq setup bound' least
  rw [hf, hf']
  refine .nested h fun t t' ht _ hahead' => ?_
  have hnone' : t'.current? = none := (congrArg List.head? hahead').trans hended
  have hnone : t.skipGroupedLineBreaks.current? = none := by
    rw [ht.skipGroupedLineBreaks_left, ← ht.current?, hnone']
  obtain ⟨p, u, hu⟩ := hreports t hnone
  obtain ⟨p', u', hu'⟩ := hreports' t' (ht.skipGroupedLineBreaks_right.symm ▸ hnone')
  rw [hu, hu']
  exact .reported _ _ _ _ _

/-- Each side needs a bound as large as the number of its tokens. -/
theorem sameOutcome_expressionWithin
    (hnames : ∀ kind rule, setup.grammar.prefixRule? kind = some rule → rule = .name) {bound bound' : Nat}
    (hleast : 0 ≤ least) (h : Smoothed s s') (hbound : s.ahead.length ≤ bound)
    (hbound' : s'.ahead.length ≤ bound') : SameOutcome s.ahead.length s'.ahead.length
      (language.expressionWithin setup bound least s) (language.expressionWithin setup bound' least s') := by
  induction bound generalizing bound' least s s' with
  | zero =>
    have hdone : s.done := State.done_iff.2 (List.length_eq_zero_iff.1 (Nat.le_zero.1 hbound))
    exact sameOutcome_of_ended h (h.current?_eq_none_of_done hdone) 0 bound'
  | succ bound ih =>
    cases bound' with
    | zero =>
      have hnone : s'.current? = none := by
        rw [State.current?, List.length_eq_zero_iff.1 (Nat.le_zero.1 hbound')]
        rfl
      exact sameOutcome_of_ended h hnone (bound + 1) 0
    | succ bound' =>
      have hoperands : Alike bound bound' (language.expressionWithin setup bound)
          (language.expressionWithin setup bound') := fun _ _ _ hleast h => ih hleast h
      refine .nested h fun t t' ht hahead hahead' => ?_
      rw [← hahead] at hbound ⊢
      rw [← hahead'] at hbound' ⊢
      exact sameOutcome_climb hnames hoperands hleast ht hbound hbound'

/-- Inside a bracket names and operators are read as they are outside when the line breaks are taken out: the
same text comes out, with the same tokens left but for line breaks, or the same cause is reported. -/
theorem expression_openGroup_eq_filter
    (hnames : ∀ kind rule, setup.grammar.prefixRule? kind = some rule → rule = .name) (hleast : 0 ≤ least)
    (tokens : List Token) :
    (∃ text t t',
      language.expression setup least (State.start setup.settings.indentWidth tokens).openGroup =
        .ok text t ∧
      language.expression setup least
        (.start setup.settings.indentWidth (tokens.filter (·.kind ≠ .newline))) = .ok text t' ∧
      t.ahead.filter (·.kind ≠ .newline) = t'.ahead.filter (·.kind ≠ .newline)) ∨
    ∃ d d' t t',
      language.expression setup least (State.start setup.settings.indentWidth tokens).openGroup =
        .error (.reported d) t ∧
      language.expression setup least
        (.start setup.settings.indentWidth (tokens.filter (·.kind ≠ .newline))) =
        .error (.reported d') t' ∧
      d'.cause = d.cause := by
  have hstart : Smoothed (State.start setup.settings.indentWidth tokens).openGroup
      (.start setup.settings.indentWidth (tokens.filter (·.kind ≠ .newline))) :=
    ⟨rfl, rfl, rfl, Bool.false_ne_true, Bool.false_ne_true⟩
  have houtcome := sameOutcome_expressionWithin hnames hleast hstart le_rfl le_rfl
  rw [Language.expression, look_apply, look_apply]
  generalize language.expressionWithin setup _ least (State.start setup.settings.indentWidth tokens).openGroup
    = r, language.expressionWithin setup _ least (.start setup.settings.indentWidth _) = r' at houtcome ⊢
  cases houtcome with
  | @text text t t' h _ _ =>
    refine .inl ⟨text, t, t', rfl, rfl, ?_⟩
    rw [h.ahead, List.filter_filter]
    simp
  | reported cause p p' t t' => exact .inr ⟨_, _, t, t', rfl, rfl, rfl⟩

/-- Two line breaks before the operator and one at the end make no difference inside. -/
theorem expression_openGroup_eq_filter_of_lines : ∃ tokens text t t',
    Tokens.ofSource "a\n\n+ b\n" = .ok tokens ∧
    language.expression ⟨mixedGrammar, "a\n\n+ b\n", {}⟩ 0 (State.start 2 tokens).openGroup = .ok text t ∧
    language.expression ⟨mixedGrammar, "a\n\n+ b\n", {}⟩ 0 (.start 2 (tokens.filter (·.kind ≠ .newline))) =
      .ok text t' ∧
    text = "(a + b)" ∧ t.ahead.filter (·.kind ≠ .newline) = t'.ahead.filter (·.kind ≠ .newline) := by
  let setup : Setup PrefixRule InfixRule := ⟨mixedGrammar, "a\n\n+ b\n", {}⟩
  obtain ⟨tokens, htokens, htext⟩ : ∃ tokens, Tokens.ofSource "a\n\n+ b\n" = .ok tokens ∧
      (language.expression setup 0).run' (State.start 2 tokens).openGroup = some "(a + b)" :=
    Tokens.exists_of_ofSource (by decide +kernel)
  have hnames : ∀ kind rule, mixedGrammar.prefixRule? kind = some rule → rule = .name := by
    intro kind rule h
    simp only [mixedGrammar, Grammar.extend, Grammar.empty, Option.or_none] at h
    split at h
    · exact (Option.some.inj h).symm
    · cases h
  obtain ⟨text, t, t', hread, hread', hahead⟩ | ⟨d, d', t, t', hread, -, -⟩ :=
    @expression_openGroup_eq_filter setup 0 hnames (Int.le_refl 0) tokens
  · refine ⟨tokens, text, t, t', htokens, hread, hread', ?_, hahead⟩
    exact Option.some.inj ((run'_of_eq_ok hread).symm.trans htext)
  · cases (run'_of_eq_error hread).symm.trans htext

/-- Below zero the line break at the end would be taken for an operator. -/
example : (Tokens.ofSource "a\n").toOption.map (fun tokens =>
      [(State.start 2 tokens).openGroup, .start 2 (tokens.filter (·.kind ≠ .newline))].map
        (language.expression ⟨mixedGrammar, "a\n", {}⟩ (-1)).run') =
    some [none, some "a"] := by decide +kernel

end Offside.Bracketing
