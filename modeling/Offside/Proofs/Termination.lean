import Offside.Proofs.Parallel.Same
import Offside.Proofs.Reading.Climbing
import Offside.Proofs.Reading.Recursion
import Offside.Proofs.Run.Exact

set_option autoImplicit false

/-!
# Reading ends because tokens are passed

The climbing of an expression and the loops of the climbing, of bracketed sequences and of blocks go on only
behind a token. So no bound on their depth is needed, whatever the tokens, the settings and the grammar are,
and no nesting limit.
-/
namespace Offside

open Reading

/-! ### The loops, one round each -/

section Rounds

variable {P I N : Type}

/-- The loop of the climbing: continues an expression while the next token binds tighter than `least`. -/
def Language.extension (language : Language P I N) (setup : Setup P I) (operand : Int → Reading N)
    (least : Int) (left : N) : Reading N := do
  let s ← get
  language.extend setup operand least s.ahead.length left

/-- One round of it, with what is read behind the operator. -/
def Language.extensionRound (language : Language P I N) (setup : Setup P I) (operand : Int → Reading N)
    (least : Int) (rest : N → Reading N) (left : N) : Reading N := do
  let s ← get
  if s.done ∨ setup.power s ≤ least then pure left
  else do
    let longer ← language.next setup operand left
    rest longer

/-- One round of a bracketed sequence, with what is read behind the comma. -/
def Reader.itemsRound (r : Reader Tree) (rest : Kind → Reading (List Tree)) (close : Kind) :
    Reading (List Tree) := do
  skipLineBreaks
  if ← isNext close then pure []
  else do
    let item ← r.operand 0
    skipLineBreaks
    if ← accept .comma then do
      let items ← rest close
      pure (item :: items)
    else pure [item]

/-- One round of a block, with what is read behind the statement. -/
def Reader.blockRound (r : Reader Tree) (rest : Nat → Reading (List Tree)) (level : Nat) :
    Reading (List Tree) := do
  skipLineBreaks
  let s ← get
  match s.current? with
  | none => pure []
  | some token =>
    if token.column < level then pure []
    else if level < token.column then fail (.indentation level token.column) token.span.start
    else do
      let tree ← r.statement
      let trees ← rest level
      pure (tree :: trees)

end Rounds

/-- The handlers of the languages read the same wherever a token has been passed. -/
structure Language.SameBeyond {P I N : Type} (setup : Setup P I) (language language' : Language P I N)
    (operand operand' : Int → Reading N) (s : State) : Prop where
  prefixRule (rule : P) (token : Token) (t : State) (h : s.Further t) :
    language'.prefixRule rule (setup.reader operand') token t =
      language.prefixRule rule (setup.reader operand) token t
  infixRule (rule : I) (left : N) (token : Token) (t : State) (h : s.Further t) :
    language'.infixRule rule (setup.reader operand') left token t =
      language.infixRule rule (setup.reader operand) left token t

/-! ### Steps at one state -/

namespace Reading

variable {α β : Type} {s t : State}

theorem bind_congr_at {f : Reading α} {g g' : α → Reading β} (h : ∀ a t, f s = .ok a t → g a t = g' a t) :
    (f >>= g) s = (f >>= g') s := by
  rw [bind_apply, bind_apply]
  cases hf : f s with
  | ok a t => exact h a t hf
  | error e t => rfl

theorem nested_congr_at {limit : Nat} {f g : Reading α}
    (h : f { s with depth := s.depth + 1 } = g { s with depth := s.depth + 1 }) :
    nested limit f s = nested limit g s := by
  unfold nested
  rw [h]

/-- A reading that takes the next token goes on further. -/
theorem taking_congr {f g : Token → Reading α} (h : ∀ token t, s.Further t → f token t = g token t) :
    (skipGroupedLineBreaks >>= fun _ => consume >>= f) s =
      (skipGroupedLineBreaks >>= fun _ => consume >>= g) s := by
  refine bind_congr_at fun _ t ht => bind_congr_at fun token u hu => h token u ?_
  obtain rfl := skipGroupedLineBreaks_eq_ok.1 ht
  exact s.onward_skipGroupedLineBreaks.trans_further (State.Takes.further (consume_eq_ok.1 hu))

theorem further_of_accept {kind : Kind} (h : accept kind s = .ok true t) : s.Further t := by
  obtain ⟨hnext, rfl⟩ := accept_eq_ok.1 h
  obtain ⟨token, htakes, _⟩ := State.takes_of_isNext hnext
  exact htakes.further

end Reading

namespace Language

variable {setup : Setup PrefixRule InfixRule} {language : Language PrefixRule InfixRule Tree}
  {operand operand' : Int → Reading Tree} {s t : State} {left longer : Tree}

theorem first_further (hadvances : ∀ least, Advances (operand least))
    (h : Tree.language.first setup operand s = .ok left t) : s.Further t := by
  obtain ⟨token, u, rule, htoken, _, hrule⟩ := first_eq_ok.1 h
  exact (s.onward_skipGroupedLineBreaks.trans_further htoken.further).trans_onward
    (((advances setup).prefixRule hadvances rule token).of_eq_ok hrule)

theorem next_further (hadvances : ∀ least, Advances (operand least))
    (h : Tree.language.next setup operand left s = .ok longer t) : s.Further t := by
  obtain ⟨token, u, rule, htoken, _, hrule⟩ := next_eq_ok.1 h
  exact (s.onward_skipGroupedLineBreaks.trans_further htoken.further).trans_onward
    (((advances setup).infixRule hadvances rule left token).of_eq_ok hrule)

namespace SameBeyond

variable {s₀ : State}

theorem first (h : SameBeyond setup Tree.language language operand operand' s) :
    language.first setup operand' s = Tree.language.first setup operand s := by
  refine taking_congr fun token t ht => ?_
  cases setup.grammar.prefixRule? token.kind with
  | none => rfl
  | some rule => exact h.prefixRule rule token t ht

theorem next (h : SameBeyond setup Tree.language language operand operand' s₀) (hs : s₀.Onward s)
    (left : Tree) : language.next setup operand' left s = Tree.language.next setup operand left s := by
  refine taking_congr fun token t ht => ?_
  cases setup.grammar.infixRule? token.kind with
  | none => rfl
  | some rule => exact h.infixRule rule left token t (hs.trans_further ht)

theorem extend (h : SameBeyond setup Tree.language language operand operand' s₀)
    (hadvances : ∀ least, Advances (operand least)) (hs : s₀.Onward s) (least : Int) (rounds : Nat)
    (left : Tree) : language.extend setup operand' least rounds left s =
      Tree.language.extend setup operand least rounds left s := by
  induction rounds generalizing s left with
  | zero => rfl
  | succ rounds ih =>
    rw [Language.extend, Language.extend, look_apply, look_apply]
    split
    · rfl
    · rw [bind_apply, bind_apply, h.next hs]
      cases hnext : Tree.language.next setup operand left s with
      | ok longer t => exact ih (hs.trans (next_further hadvances hnext).onward) longer
      | error e t => rfl

/-- A climb looks at its handlers only behind a token. -/
theorem climb (h : SameBeyond setup Tree.language language operand operand' s)
    (hadvances : ∀ least, Advances (operand least)) (least : Int) :
    language.climb setup operand' least s = Tree.language.climb setup operand least s := by
  rw [Language.climb, Language.climb, bind_apply, bind_apply, h.first]
  cases hfirst : Tree.language.first setup operand s with
  | ok left t => exact h.extend hadvances (first_further hadvances hfirst).onward least _ left
  | error e t => rfl

/-- The rules of the language read the same with operands that are the same further on. -/
theorem of_operand (hadvances : ∀ least, Advances (operand least))
    (h : ∀ least t, s.Further t → operand' least t = operand least t) :
    SameBeyond setup Tree.language Tree.language operand operand' s := by
  have hoperands := Parallel.operands_same setup State.Further.trans_onward hadvances h
  exact ⟨fun rule _ _ ht => (hoperands.prefixRule rule rfl trivial).eq (fun _ _ => Parallel.eq_of_same) ht,
    fun rule _ _ _ ht => (hoperands.infixRule rule rfl rfl trivial).eq (fun _ _ => Parallel.eq_of_same) ht⟩

end SameBeyond

/-- Without tokens nothing starts. -/
theorem climb_of_ahead_eq_nil (least : Int) (hs : s.ahead = []) :
    Tree.language.climb setup operand least s = endOfInput s := by
  have hskip : s.skipGroupedLineBreaks = s := by
    unfold State.skipGroupedLineBreaks
    rw [State.skipLineBreaks_of_ahead_eq_nil hs, ite_self]
  have hended : s.skipGroupedLineBreaks.current? = none := by
    rw [hskip, State.current?, hs]
    rfl
  rw [Language.climb, bind_apply, Language.first, taking_of_ended hended, hskip]
  rfl

/-- An expression is the climbing with expressions as its operands, whatever the nesting limit. -/
theorem recurs_expression (setup : Setup PrefixRule InfixRule) :
    Recurs (fun operand least => nested setup.settings.maxDepth (Tree.language.climb setup operand least))
      (Tree.language.expression setup) := by
  refine recurs_of_bounded (Tree.language.expressionWithin setup) (fun _ => rfl)
    (fun operand bound least s h => nested_congr_at ?_) fun operand least s hs => nested_congr_at ?_
  · have hadvances := (advances setup).expressionWithin bound
    have hbeyond : SameBeyond setup Tree.language Tree.language _ operand { s with depth := s.depth + 1 } :=
      .of_operand hadvances h
    exact hbeyond.climb hadvances least
  · exact climb_of_ahead_eq_nil least hs

theorem recurs_extension (hadvances : ∀ least, Advances (operand least)) (least : Int) :
    Recurs (Tree.language.extensionRound setup operand least)
      (Tree.language.extension setup operand least) := by
  refine recurs_of_bounded (Tree.language.extend setup operand least) (fun _ => rfl)
    (fun rest rounds left s h => ?_) fun rest left s hs => ?_
  · rw [extensionRound, extensionRound, look_apply, look_apply]
    split
    · rfl
    · exact bind_congr_at fun longer t ht => h longer t (next_further hadvances ht)
  · rw [extensionRound, look_apply, if_pos (.inl (State.done_iff.2 hs))]
    rfl

theorem expression_further {least : Int} (h : Tree.language.expression setup least s = .ok left t) :
    s.Further t := by
  have hrun := expression_eq_ok_iff.1 h
  obtain ⟨ks, hpasses⟩ := hrun.passes
  refine ⟨hpasses.tokens, ?_⟩
  have hlt := hrun.length_ahead_lt
  rw [hpasses.length_ahead] at hlt
  rw [hpasses.position]
  omega

end Language

namespace Reader

variable {setup : Setup PrefixRule InfixRule} {s t : State} {tree : Tree}

theorem statement_further (h : setup.program.statement s = .ok tree t) : s.Further t := by
  obtain ⟨u, hu, hline⟩ := statement_eq_ok.1 h
  obtain ⟨ks, _, hpasses⟩ := hline.passes
  exact (Language.expression_further hu).trans_onward hpasses.onward

theorem recurs_items (setup : Setup PrefixRule InfixRule) :
    Recurs setup.program.itemsRound setup.program.items := by
  have hadvances : ∀ least, Advances (setup.program.operand least) := (advances setup).expression
  refine recurs_of_bounded (fun n close => setup.program.itemsWithin close n) (fun _ => rfl)
    (fun rest bound close s h => ?_) fun rest close s hs => ?_
  · refine bind_congr_at fun _ t ht => bind_congr_at fun closed u hu => ?_
    obtain rfl := skipLineBreaks_eq_ok.1 ht
    obtain ⟨_, rfl⟩ := isNext_eq_ok.1 hu
    split
    · rfl
    refine bind_congr_at fun item v hv => bind_congr_at fun _ w hw => bind_congr_at fun more x hx => ?_
    obtain rfl := skipLineBreaks_eq_ok.1 hw
    cases more with
    | false => rfl
    | true =>
      have honward := (s.onward_skipLineBreaks.trans ((hadvances 0).of_eq_ok hv)).trans
        v.onward_skipLineBreaks
      simp only [if_true, bind_apply, h close x (honward.trans_further (further_of_accept hx))]
  · -- without tokens the operand is not read
    have hnext : ∀ kind, s.isNext kind = false := fun kind => by
      rw [State.isNext, State.current?, hs]
      rfl
    have hskip : skipLineBreaks s = .ok () s :=
      skipLineBreaks_eq_ok.2 (State.skipLineBreaks_of_ahead_eq_nil hs)
    have hround : setup.program.itemsRound rest close s =
        (setup.program.operand 0 >>= fun item => skipLineBreaks >>= fun _ => accept .comma >>= fun more =>
          if more then rest close >>= fun items => pure (item :: items) else pure [item]) s := by
      rw [itemsRound, bind_apply, hskip]
      dsimp only
      rw [bind_apply, isNext_eq_ok.2 ⟨hnext close, rfl⟩]
      rfl
    rw [hround]
    refine bind_congr_at fun item t ht => ?_
    have hlt := (Language.expression_further ht).length_ahead_lt
    rw [hs] at hlt
    exact absurd hlt (Nat.not_lt_zero _)

theorem recurs_block (setup : Setup PrefixRule InfixRule) :
    Recurs setup.program.blockRound setup.program.block := by
  refine recurs_of_bounded (fun n level => setup.program.statementsWithin level n) (fun _ => rfl)
    (fun rest bound level s h => ?_) fun rest level s hs => ?_
  · refine bind_congr_at fun _ t ht => ?_
    obtain rfl := skipLineBreaks_eq_ok.1 ht
    rw [look_apply, look_apply]
    cases s.skipLineBreaks.current? with
    | none => rfl
    | some token =>
      dsimp only
      split
      · rfl
      split
      · rfl
      refine bind_congr_at fun tree u hu => ?_
      simp only [bind_apply, h level u (s.onward_skipLineBreaks.trans_further (statement_further hu))]
  · have hskip : skipLineBreaks s = .ok () s :=
      skipLineBreaks_eq_ok.2 (State.skipLineBreaks_of_ahead_eq_nil hs)
    rw [blockRound, bind_apply, hskip]
    simp only [look_apply, State.current?, hs]
    rfl

end Reader

section Results

variable {setup : Setup PrefixRule InfixRule} {s : State}

/-- Whatever stands for the handlers and their operands where no token has been passed. -/
theorem Language.SameBeyond.expression {language : Language PrefixRule InfixRule Tree}
    {operand : Int → Reading Tree}
    (h : Language.SameBeyond setup Tree.language language (Tree.language.expression setup) operand s)
    (least : Int) : nested setup.settings.maxDepth (language.climb setup operand least) s =
      Tree.language.expression setup least s := by
  have hdeeper : Language.SameBeyond setup Tree.language language (Tree.language.expression setup) operand
      { s with depth := s.depth + 1 } :=
    ⟨fun rule token t ht => h.prefixRule rule token t ht,
      fun rule left token t ht => h.infixRule rule left token t ht⟩
  refine (nested_congr_at (hdeeper.climb (advances setup).expression least)).trans ?_
  exact congrFun ((Language.recurs_expression setup).solves least) s

/-- Statements, blocks and bodies read expressions only from where they start on. -/
theorem program_congr {operand : Int → Reading Tree}
    (h : ∀ least t, s.Onward t → operand least t = Tree.language.expression setup least t) :
    (setup.reader operand).statement s = setup.program.statement s ∧
    (∀ level, (setup.reader operand).block level s = setup.program.block level s) ∧
    (setup.reader operand).body s = setup.program.body s := by
  have hoperands := Parallel.operands_same setup State.Onward.trans (advances setup).expression h
  exact ⟨hoperands.statement.eq (fun _ _ => Parallel.eq_of_same) (.refl s),
    fun level => (hoperands.block level).eq (fun _ _ => Parallel.eq_of_sameAll) (.refl s),
    hoperands.body.eq (fun _ _ => Parallel.eq_of_sameAll) (.refl s)⟩

/-- Reading ends because tokens are passed, whatever the tokens, the settings and the grammar are. Handlers
and the operands they read matter only behind a token that was passed; so the recursion of expressions has
one solution, without a bound. The loops of the climbing, of bracketed sequences and of blocks go on only
behind a token. Statements, blocks and bodies read expressions from where they start on. An expression or a
statement that is read has passed a token. -/
theorem reading_passes_tokens (setup : Setup PrefixRule InfixRule) :
    (∀ s least language operand,
      Language.SameBeyond setup Tree.language language (Tree.language.expression setup) operand s →
      nested setup.settings.maxDepth (language.climb setup operand least) s =
        Tree.language.expression setup least s) ∧
    Recurs (fun operand least => nested setup.settings.maxDepth (Tree.language.climb setup operand least))
      (Tree.language.expression setup) ∧
    (∀ operand, (∀ least, operand least =
        nested setup.settings.maxDepth (Tree.language.climb setup operand least)) ↔
      operand = Tree.language.expression setup) ∧
    (∀ least, Recurs (Tree.language.extensionRound setup (Tree.language.expression setup) least)
      (Tree.language.extension setup (Tree.language.expression setup) least)) ∧
    Recurs setup.program.itemsRound setup.program.items ∧
    Recurs setup.program.blockRound setup.program.block ∧
    (∀ s operand, (∀ least t, s.Onward t → operand least t = Tree.language.expression setup least t) →
      (setup.reader operand).statement s = setup.program.statement s ∧
      (∀ level, (setup.reader operand).block level s = setup.program.block level s) ∧
      (setup.reader operand).body s = setup.program.body s) ∧
    (∀ least s tree t, Tree.language.expression setup least s = .ok tree t → s.Further t) ∧
    (∀ s tree t, setup.program.statement s = .ok tree t → s.Further t) := by
  have hrecurs := Language.recurs_expression setup
  refine ⟨fun _ least _ _ h => h.expression least, hrecurs, fun operand => ⟨hrecurs.unique, ?_⟩,
    Language.recurs_extension (advances setup).expression, Reader.recurs_items setup,
    Reader.recurs_block setup, fun _ _ h => program_congr h, fun _ _ _ _ h => Language.expression_further h,
    fun _ _ _ h => Reader.statement_further h⟩
  rintro rfl least
  exact (hrecurs.solves least).symm

/-- The operands before the first token do not matter, though they would report a fault there. -/
theorem reading_passes_tokens_of_name : ∃ setup s operand tree t,
    Tree.language.expression setup 0 s = .ok tree t ∧ s.Further t ∧
    operand 0 s ≠ Tree.language.expression setup 0 s ∧
    nested setup.settings.maxDepth (Tree.language.climb setup operand 0) s = .ok tree t := by
  let setup := Program.setup "" { maxDepth := 1000000000 }
  let s : State := .start 2 [⟨.identifier, default⟩]
  let operand : Int → Reading Tree := fun least t =>
    if t.position = 0 then endOfInput t else Tree.language.expression setup least t
  obtain ⟨tree, t, hread⟩ : ∃ tree t, Tree.language.expression setup 0 s = .ok tree t := ⟨_, _, rfl⟩
  obtain ⟨_, hrecurs, _, _, _, _, _, hfurther, _⟩ := reading_passes_tokens setup
  have hoperand : ∀ least u, s.Further u → operand least u = Tree.language.expression setup least u :=
    fun least u hu => if_neg (Nat.ne_of_gt hu.2)
  refine ⟨setup, s, operand, tree, t, hread, hfurther 0 s tree t hread, ?_, ?_⟩
  · rw [hread]
    exact nofun
  · exact (hrecurs operand 0 s hoperand).trans hread

end Results

end Offside
