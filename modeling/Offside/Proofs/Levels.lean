import Offside.Proofs.Lexing.Order
import Offside.Proofs.Reading.Advancing
import Offside.Proofs.Reading.Restoring
import Offside.Proofs.Reading.Watching

set_option autoImplicit false

/-!
# Levels of blocks

A block is opened inside a statement, and a statement starts at the level of its block. So whenever a block is
opened, the level around it is the left margin or the column of a token, whatever brackets and bodies stand in
between. A level right of the margin is a step or more, so the new level is one step or at most twice a column.
-/
namespace Offside

namespace Reading

variable {α β : Type} {tokens : List Token} {width : Nat}

namespace State

/-- The second state stands no further back, in the same frame. -/
structure Leads (s t : State) : Prop extends s.SameFrame t, s.Onward t

/-- The state stands among the tokens; its innermost block is at the left margin or a step or more from it. -/
structure Among (tokens : List Token) (width : Nat) (s : State) : Prop where
  tokens_eq : s.tokens = tokens
  groups : s.groups ≠ []
  step : s.indentation.step = width
  level : s.indentation.current = 0 ∨ width ≤ s.indentation.current

/-- The innermost block of the state is at the left margin or at the column of a token. -/
structure AtColumn (tokens : List Token) (width : Nat) (s : State) : Prop extends
    s.Among tokens width where
  column : s.indentation.current = 0 ∨ ∃ t ∈ tokens, t.column = s.indentation.current

variable {s t u : State}

theorem Leads.refl (s : State) : s.Leads s := ⟨.refl s, .refl s⟩

theorem Leads.trans (h : s.Leads t) (h' : t.Leads u) : s.Leads u :=
  ⟨h.toSameFrame.trans h'.toSameFrame, h.toOnward.trans h'.toOnward⟩

theorem Leads.current (h : s.Leads t) : t.indentation.current = s.indentation.current :=
  congrArg Indentation.current h.indentation

theorem Among.of_leads (hs : s.Among tokens width) (h : s.Leads t) : t.Among tokens width where
  tokens_eq := h.tokens.trans hs.tokens_eq
  groups := by
    rw [h.groups]
    exact hs.groups
  step := by
    rw [h.indentation]
    exact hs.step
  level := by
    rw [h.current]
    exact hs.level

theorem AtColumn.of_leads (hs : s.AtColumn tokens width) (h : s.Leads t) : t.AtColumn tokens width where
  toAmong := hs.toAmong.of_leads h
  column := by
    rw [h.current]
    exact hs.column

theorem AtColumn.openGroup (hs : s.AtColumn tokens width) : s.openGroup.AtColumn tokens width := by
  obtain ⟨n, outer, hg⟩ := List.exists_cons_of_ne_nil hs.groups
  have ho : s.openGroup = { s with groups := (n + 1) :: outer } := by simp [State.openGroup, hg]
  rw [ho]
  exact ⟨⟨hs.tokens_eq, List.cons_ne_nil _ _, hs.step, hs.level⟩, hs.column⟩

theorem Among.openBlock (hs : s.Among tokens width) : s.openBlock.Among tokens width where
  tokens_eq := hs.tokens_eq
  groups := List.cons_ne_nil _ _
  step := hs.step
  level := .inr (by
    change width ≤ s.indentation.current + s.indentation.step
    rw [hs.step]
    exact Nat.le_add_left _ _)

theorem atColumn_start (width : Nat) (tokens : List Token) :
    (State.start width tokens).AtColumn tokens width :=
  ⟨⟨rfl, List.cons_ne_nil _ _, rfl, .inl rfl⟩, .inl rfl⟩

/-- From a column the sum is at most twice the column, and from the left margin it is one step. -/
theorem AtColumn.sum_lt (hs : s.AtColumn tokens width) (hcolumns : ∀ t ∈ tokens, t.column < Nat.pow 2 31)
    (hwidth : width < Nat.pow 2 32) : s.indentation.current + s.indentation.step < Nat.pow 2 32 := by
  have hdouble : Nat.pow 2 32 = 2 * Nat.pow 2 31 := rfl
  have hstep := hs.step
  have hlevel := hs.level
  rcases hs.column with hmargin | ⟨t, ht, hcolumn⟩
  · omega
  · have hlt := hcolumns t ht
    omega

theorem Among.mem_of_current? {token : Token} (hs : s.Among tokens width) (h : s.current? = some token) :
    token ∈ tokens := by
  rw [← hs.tokens_eq]
  exact List.mem_append_right _ (List.mem_of_head? h)

end State

theorem leads_bind {f : Reading α} {g : α → Reading β} {s : State} (h : Ends s.Leads (f s))
    (hg : ∀ a t, s.Leads t → Ends t.Leads (g a t)) : Ends s.Leads ((f >>= g) s) :=
  ends_bind h (fun _ ht => ht) fun a t ht => Ends.imp (hg a t ht) fun _ => ht.trans

/-- From a column on, the reading ends where its state leads to. -/
def Levelled (tokens : List Token) (width : Nat) (f : Reading α) : Prop :=
  ∀ s, s.AtColumn tokens width → Ends s.Leads (f s)

theorem ends_leads {f : Reading α} {s : State} (hr : Restores f) (ha : Advances f) (hs : s.groups ≠ []) :
    Ends s.Leads (f s) := by
  have hframe := hr s hs
  have hon := ha s
  rcases hf : f s with ⟨a, t⟩ | ⟨e, t⟩
  · rw [hf] at hframe hon
    exact ⟨hframe, hon⟩
  · rw [hf] at hframe hon
    cases e with
    | reported d => exact ⟨hframe, hon⟩
    | misused m => exact hframe

theorem levelled_step {f : Reading α} (hr : Restores f) (ha : Advances f) : Levelled tokens width f :=
  fun _ hs => ends_leads hr ha hs.groups

theorem levelled_bracketed {f : Reading α} {finish : Reading Unit} (h : Levelled tokens width f)
    (hadvances : Advances finish)
    (hcloses : ∀ s t : State, s.groups ≠ [] → s.openGroup.SameFrame t →
      ∃ v, finish t = .ok () v ∧ s.SameFrame v) :
    Levelled tokens width (openGroup >>= fun _ => finishing f finish) := by
  intro s hs
  refine ends_finishing (h s.openGroup hs.openGroup) fun t ht => ?_
  obtain ⟨v, hv, hframe⟩ := hcloses s t hs.groups ht.toSameFrame
  have hon := s.onward_openGroup.trans (ht.toOnward.trans (hadvances.of_eq_ok hv))
  exact ⟨(), v, hv, hframe, hon⟩

theorem levelled {P I : Type} (setup : Setup P I) (tokens : List Token) (width : Nat) :
    Relational setup (OfFirst (Levelled tokens width)) where
  value a := levelled_step ((restores setup).value a) (.value a)
  bind hf hg := fun s hs => leads_bind (hf s hs) fun a t ht => hg a t (hs.of_leads ht)
  fault _ _ := levelled_step ((restores setup).fault _ _) (.fault _)
  endOfInput := levelled_step (restores setup).endOfInput (advances setup).endOfInput
  current := levelled_step (restores setup).current (advances setup).current
  consume := levelled_step (restores setup).consume (advances setup).consume
  isNext _ := levelled_step ((restores setup).isNext _) ((advances setup).isNext _)
  accept _ := levelled_step ((restores setup).accept _) ((advances setup).accept _)
  skipLineBreaks := levelled_step (restores setup).skipLineBreaks .skipLineBreaks
  skipGroupedLineBreaks :=
    levelled_step (restores setup).skipGroupedLineBreaks (advances setup).skipGroupedLineBreaks
  look _ h := fun s hs => h s s hs
  bracketed h := levelled_bracketed h .closeGroup fun _ _ => closeGroup_of_openGroup
  bracketedLines h := levelled_bracketed h (.andThen .skipLineBreaks .closeGroup)
    fun _ _ hs ht => closeGroup_of_openGroup hs (ht.trans (.skipLineBreaks _))
  nested h := fun s hs => ends_nested (.refl s)
    (h { s with depth := s.depth + 1 } ⟨⟨hs.tokens_eq, hs.groups, hs.step, hs.level⟩, hs.column⟩)
    fun _ ht => ⟨⟨ht.indentation, ht.groups, by simp [ht.depth]⟩, ht.tokens, ht.position⟩

end Reading

open Reading

namespace Watch

/-- The watch lets a block be opened inside one at a column, and lets the column behind a level be looked for
where the next token stands no further left. -/
structure Allows (w : Watch) (tokens : List Token) (width : Nat) : Prop where
  opens (s : State) (hs : s.AtColumn tokens width) : w.opens s = true
  looks (level : Nat) (s : State) (token : Token) (hmem : token ∈ tokens)
    (hcurrent : s.current? = some token) (hlevel : level ≤ token.column) : w.looks level s = true

namespace Allows

variable {w : Watch} {tokens : List Token} {width : Nat} {setup : Setup PrefixRule InfixRule}
  {operand : Int → Reading Tree} {s : State}

/-- A block may be read from a state that is at no column, since the first of its statements is at one. -/
theorem ends_statementsWithin (hw : w.Allows tokens width)
    (hoperand : ∀ least, Levelled tokens width (operand least)) (bound : Nat)
    (hs : s.Among tokens width) :
    Ends s.Leads (w.statementsWithin (setup.reader operand) s.indentation.current bound s) := by
  generalize hlevel : s.indentation.current = level
  induction bound generalizing s with
  | zero => exact .refl s
  | succ bound ih =>
    have hskip := ends_leads (restores setup).skipLineBreaks .skipLineBreaks hs.groups
    refine leads_bind hskip fun _ t ht => ends_look ?_
    replace hlevel := ht.current.trans hlevel
    replace hs := hs.of_leads ht
    cases hcurrent : t.current? with
    | none => exact .refl t
    | some token =>
      have hmem := hs.mem_of_current? hcurrent
      by_cases hleft : token.column < level
      · simp only [hleft, if_true]
        exact .refl t
      have hlooks := stopUnless_of_allowed (hw.looks level t token hmem hcurrent (Nat.not_lt.1 hleft))
      simp only [hleft, if_false, bind_apply, hlooks]
      by_cases hright : level < token.column
      · simp only [hright, if_true]
        exact .refl t
      simp only [hright, if_false]
      -- The token stands exactly at the level, which is what everything inside the statement relies on.
      have hcolumn : t.AtColumn tokens width := ⟨hs, .inr ⟨token, hmem, by omega⟩⟩
      have hstatement : Levelled tokens width (setup.reader operand).statement :=
        OfFirst.self ((levelled setup tokens width).statement hoperand)
      refine leads_bind (hstatement t hcolumn) fun tree u hu => ?_
      have hrest := ih (hs.of_leads hu) (hu.current.trans hlevel)
      exact leads_bind hrest fun trees v _ => .refl v

theorem ends_block (hw : w.Allows tokens width) (hoperand : ∀ least, Levelled tokens width (operand least))
    (hs : s.Among tokens width) :
    Ends s.Leads (w.block (setup.reader operand) s.indentation.current s) :=
  ends_look (hw.ends_statementsWithin hoperand s.ahead.length hs)

theorem levelled_indentedBlock (hw : w.Allows tokens width)
    (hoperand : ∀ least, Levelled tokens width (operand least)) :
    Levelled tokens width (w.indentedBlock (setup.reader operand)) := by
  intro s hs
  unfold indentedBlock
  simp only [bind_apply, stopUnless_of_allowed (hw.opens s hs), openBlock]
  have hopened : s.openBlock.Among tokens width := hs.openBlock
  refine ends_finishing (P := s.openBlock.Leads) ?_ fun t ht => ?_
  · have hcurrent := ends_leads (restores setup).current (advances setup).current hopened.groups
    refine leads_bind hcurrent fun token t ht => ?_
    split
    · exact .refl t
    · rw [← ht.current]
      exact hw.ends_block hoperand (hopened.of_leads ht)
  · obtain ⟨level, v, hv, hframe⟩ := closeBlock_of_openBlock ht.toSameFrame
    have hon := s.onward_openBlock.trans (ht.toOnward.trans (Advances.closeBlock.of_eq_ok hv))
    exact ⟨level, v, hv, hframe, hon⟩

theorem levelled_body (hw : w.Allows tokens width)
    (hoperand : ∀ least, Levelled tokens width (operand least)) :
    Levelled tokens width (w.body (setup.reader operand)) := by
  have h := levelled setup tokens width
  refine OfFirst.self (h.bind (h.accept _) fun broken => ?_)
  cases broken with
  | true => exact h.bind h.skipLineBreaks fun _ => hw.levelled_indentedBlock hoperand
  | false => exact h.bind (hoperand 0) fun tree => h.value [tree]

theorem levelled_expressionWithin (hw : w.Allows tokens width) (bound : Nat) (least : Int) :
    Levelled tokens width (w.language.expressionWithin setup bound least) := by
  have h := levelled setup tokens width
  induction bound generalizing least with
  | zero => exact OfFirst.self (h.nested h.endOfInput)
  | succ bound ih =>
    exact OfFirst.self (h.nested (h.climb (h.prefixRule ih) (h.infixRule ih (hw.levelled_body ih)) least))

/-- Nothing is done while a program is read but what the watch allows. -/
theorem not_stopped {settings : Settings} (hw : w.Allows tokens settings.indentWidth) (source : String) :
    w.parse source settings tokens ≠ .error stopped := by
  have hoperand (least : Int) : Levelled tokens settings.indentWidth
      (w.language.expression (Program.setup source settings) least) :=
    fun s hs => ends_look (hw.levelled_expressionWithin s.ahead.length least s hs)
  let start := State.start settings.indentWidth tokens
  have hstart : start.Among tokens settings.indentWidth := (State.atColumn_start _ tokens).toAmong
  have hblock : Ends start.Leads (w.block (w.program (Program.setup source settings)) 0 start) :=
    hw.ends_block hoperand hstart
  intro h
  unfold parse at h
  cases hread : w.block (w.program (Program.setup source settings)) 0 start with
  | ok trees t =>
    rw [hread] at h
    cases h
  | error fault t =>
    rw [hread] at h hblock
    obtain rfl : fault = stopped := Except.error.inj h
    exact hblock

/-- Under a watch that allows what is done anyway, a program is read as without one. -/
theorem parse_eq {settings : Settings} (hw : w.Allows tokens settings.indentWidth) (source : String) :
    w.parse source settings tokens = Program.parse source settings tokens :=
  (w.parse_eq_or_stopped source settings tokens).resolve_right (hw.not_stopped source)

end Allows

/-- Allows only sums that fit in 32 bits. -/
def fitting : Watch where
  opens s := s.indentation.current + s.indentation.step < Nat.pow 2 32
  looks level _ := level + 1 < Nat.pow 2 32

theorem allows_fitting {tokens : List Token} {width : Nat}
    (hcolumns : ∀ t ∈ tokens, t.column < Nat.pow 2 31) (hwidth : width < Nat.pow 2 32) :
    fitting.Allows tokens width where
  opens s hs := decide_eq_true (hs.sum_lt hcolumns hwidth)
  looks level s token hmem hcurrent hlevel := by
    have hlt := hcolumns token hmem
    have hhalf : Nat.pow 2 31 < Nat.pow 2 32 := by decide
    exact decide_eq_true (by omega)

end Watch

namespace Position

theorem column_step_le (p : Position) (c : Char) : (p.step c).column ≤ p.column + c.utf8Size := by
  unfold step
  split
  · exact Nat.zero_le _
  · exact Nat.add_le_add_left c.utf8Size_pos _

theorem column_after_le (p : Position) (cs : List Char) :
    (p.after cs).column ≤ p.column + Text.byteLength cs := by
  induction cs generalizing p with
  | nil => exact Nat.le_refl _
  | cons c cs ih =>
    have hstep := p.column_step_le c
    have hrest := ih (p.step c)
    change ((p.step c).after cs).column ≤ p.column + (c.utf8Size + Text.byteLength cs)
    omega

end Position

/-- A column counts characters of the source that stand before the token. -/
theorem Tokens.column_lt {source : String} {tokens : List Token} {length : Nat}
    (h : ofSource source = .ok tokens) (hlength : Text.byteLength source.toList < length) :
    ∀ t ∈ tokens, t.column < length := by
  intro t ht
  obtain ⟨before, text, behind, l, hsource, hspan, hclass, hextent, _⟩ := (scan_eq_ok_iff.1 h).mem ht
  have hpos := Lexeme.extent_pos_of_next? _ _ hclass
  have htext := Text.byteLength_pos (List.length_pos_iff.1 (hextent ▸ hpos))
  have hcolumn : t.column ≤ 0 + Text.byteLength before := by
    rw [Token.column, hspan]
    exact Position.origin.column_after_le before
  rw [hsource, Text.byteLength_append, Text.byteLength_append] at hlength
  omega

namespace Program

variable {source : String} {settings : Settings} {tokens : List Token} {s : State}

theorem atColumn_of_opensAt (h : OpensAt source settings tokens s) :
    s.AtColumn tokens settings.indentWidth := by
  by_cases hs : s.AtColumn tokens settings.indentWidth
  · exact hs
  refine absurd (Watch.Allows.parse_eq ⟨fun t ht => ?_, fun _ _ _ _ _ _ => rfl⟩ source) h
  have hne : t ≠ s := by
    rintro rfl
    exact hs ht
  exact decide_eq_true hne

theorem current?_of_looksAt {level : Nat} (h : LooksAt source settings tokens level s) :
    ∃ t ∈ tokens, s.current? = some t ∧ level ≤ t.column := by
  by_cases hs : ∃ t ∈ tokens, s.current? = some t ∧ level ≤ t.column
  · exact hs
  refine absurd (Watch.Allows.parse_eq ⟨fun _ _ => rfl, fun l t token hmem hcurrent hl => ?_⟩ source) h
  have hne : ¬(l = level ∧ t = s) := by
    rintro ⟨rfl, rfl⟩
    exact hs ⟨token, hmem, hcurrent, hl⟩
  exact decide_eq_true hne

/-- Whatever the indent width is, a check of every sum against 32 bits lets the same programs through. -/
theorem parse_fitting (htokens : Tokens.ofSource source = .ok tokens)
    (hlength : Text.byteLength source.toList < Nat.pow 2 31) (hwidth : settings.indentWidth < Nat.pow 2 32) :
    Watch.fitting.parse source settings tokens = parse source settings tokens :=
  (Watch.allows_fitting (Tokens.column_lt htokens hlength) hwidth).parse_eq source

/-- A block is opened inside one at the left margin or at the column of a token, and a level is compared with
a token that stands no further left; so no sum leaves 32 bits, whatever the indent width is. -/
theorem level_sums_fit (htokens : Tokens.ofSource source = .ok tokens) (settings : Settings) :
    (∀ s, OpensAt source settings tokens s →
      s.indentation.current = 0 ∨ ∃ t ∈ tokens, t.column = s.indentation.current) ∧
    (∀ level s, LooksAt source settings tokens level s →
      ∃ t, s.current? = some t ∧ level ≤ t.column) ∧
    (Text.byteLength source.toList < Nat.pow 2 31 → settings.indentWidth < Nat.pow 2 32 →
      (∀ s, OpensAt source settings tokens s →
        s.indentation.current + s.indentation.step ≤ Nat.pow 2 32 - 1) ∧
      ∀ level s, LooksAt source settings tokens level s → level + 1 ≤ Nat.pow 2 32 - 1) := by
  refine ⟨fun s h => (atColumn_of_opensAt h).column, fun level s h => ?_, fun hlength hwidth => ?_⟩
  · obtain ⟨t, _, hcurrent, hlevel⟩ := current?_of_looksAt h
    exact ⟨t, hcurrent, hlevel⟩
  have hcolumns := Tokens.column_lt htokens hlength
  constructor
  · intro s h
    exact Nat.le_pred_of_lt ((atColumn_of_opensAt h).sum_lt hcolumns hwidth)
  · intro level s h
    obtain ⟨t, ht, _, hlevel⟩ := current?_of_looksAt h
    have hlt := hcolumns t ht
    have hhalf : Nat.pow 2 31 ≤ Nat.pow 2 32 - 1 := by decide
    omega

/-- The inner block is opened in a bracket, in a body on the same line, and the level around it is the column
of the bracket. -/
theorem level_sums_fit_of_nested_blocks : ∃ tokens s u,
    Tokens.ofSource "f ->\n  [x ? y ->\n    z\n  ]" = .ok tokens ∧
    OpensAt "f ->\n  [x ? y ->\n    z\n  ]" {} tokens s ∧
    s.indentation.current = 2 ∧ s.groups = [1, 0] ∧ (∃ t ∈ tokens, t.column = 2) ∧
    LooksAt "f ->\n  [x ? y ->\n    z\n  ]" {} tokens 4 u ∧
    (∃ t, u.current? = some t ∧ 4 ≤ t.column) ∧
    s.indentation.current + s.indentation.step ≤ Nat.pow 2 32 - 1 ∧ 4 + 1 ≤ Nat.pow 2 32 - 1 := by
  obtain ⟨tokens, htokens, hruns⟩ : ∃ tokens,
      Tokens.ofSource "f ->\n  [x ? y ->\n    z\n  ]" = .ok tokens ∧
      decide (OpensAt "f ->\n  [x ? y ->\n    z\n  ]" {} tokens
          ⟨(tokens.take 9).reverse, tokens.drop 9, ⟨2, [2]⟩, [1, 0], 4⟩ ∧
        LooksAt "f ->\n  [x ? y ->\n    z\n  ]" {} tokens 4
          ⟨(tokens.take 9).reverse, tokens.drop 9, ⟨2, [4, 2]⟩, [0, 1, 0], 4⟩) = true :=
    Tokens.exists_of_ofSource (by decide +kernel)
  obtain ⟨hopens, hlooks⟩ := of_decide_eq_true hruns
  obtain ⟨hcolumn, hcurrent, hfits⟩ := level_sums_fit htokens {}
  obtain ⟨hopened, hlooked⟩ := hfits (by decide +kernel) (by decide)
  have hbracket := (hcolumn _ hopens).resolve_left (Nat.succ_ne_zero 1)
  exact ⟨tokens, _, _, htokens, hopens, rfl, rfl, hbracket, hlooks, hcurrent 4 _ hlooks, hopened _ hopens,
    hlooked 4 _ hlooks⟩

/-- The widest step from the left margin gives the largest sum. -/
example : (Tokens.ofSource "f ->\n  x").toOption.map (fun tokens =>
      decide (OpensAt "f ->\n  x" { indentWidth := Nat.pow 2 32 - 1 } tokens
        ⟨(tokens.take 3).reverse, tokens.drop 3, ⟨Nat.pow 2 32 - 1, []⟩, [0], 1⟩)) = some true := by
  decide +kernel

end Program

end Offside
