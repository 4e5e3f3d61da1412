import Mathlib.Data.List.TakeWhile
import Offside.Proofs.Grouping.Trees
import Offside.Proofs.Reading.Climbing
import Offside.Tokens

set_option autoImplicit false

/-!
# Climbing realises the table of powers and sides

Names with operators between them are grouped as the powers and sides of the operators say, whatever the
table is: an expression ends before the first operator that binds no tighter than was asked for, and what it
passed has exactly one grouping that the table allows, which it gives.
-/
namespace Offside.Bracketing

open Reading

variable {setup : Setup PrefixRule InfixRule} {operand : Int → Reading String} {size : Nat}
  {s t : State} {least : Int} {first operator : Token} {rest : List (Token × Token)}

/-- The operator binds tighter than `least`. -/
def tighter (grammar : Grammar PrefixRule InfixRule) (least : Int) (pair : Token × Token) : Bool :=
  least < grammar.power pair.1.kind

/-- The operator groups to the left or to the right. -/
def Sided (grammar : Grammar PrefixRule InfixRule) (operator : Token) : Prop :=
  grammar.infixRule? operator.kind = some .left ∨ grammar.infixRule? operator.kind = some .right

/-- How tightly the operators of a right operand have to bind. -/
def reentry (grammar : Grammar PrefixRule InfixRule) (operator : Token) : Int :=
  if grammar.infixRule? operator.kind = some .right then grammar.power operator.kind - 1
  else grammar.power operator.kind

theorem allowsRight_iff_tighter {grammar : Grammar PrefixRule InfixRule} (hside : Sided grammar operator)
    (pair : Token × Token) :
    AllowsRight grammar operator pair.1 ↔ tighter grammar (reentry grammar operator) pair := by
  unfold AllowsRight tighter reentry
  obtain hleft | hright := hside
  · simp [hleft]
  · simp only [hright, if_true, and_true, decide_eq_true_eq]
    omega

theorem le_reentry {grammar : Grammar PrefixRule InfixRule} {pair : Token × Token}
    (h : tighter grammar least pair) : least ≤ reentry grammar pair.1 := by
  unfold tighter at h
  unfold reentry
  split <;> simp only [decide_eq_true_eq] at h <;> omega

/-- What binds tighter than a threshold is found in two parts if the first part asks for more. -/
theorem takeWhile_tighter {grammar : Grammar PrefixRule InfixRule} {more : Int} (h : least ≤ more) :
    rest.takeWhile (tighter grammar least) = rest.takeWhile (tighter grammar more) ++
      (rest.dropWhile (tighter grammar more)).takeWhile (tighter grammar least) := by
  have hmore : ∀ pair ∈ rest.takeWhile (tighter grammar more), tighter grammar least pair := by
    intro pair hpair
    have := List.mem_takeWhile_imp hpair
    simp only [tighter, decide_eq_true_eq] at this ⊢
    omega
  rw [← List.takeWhile_append_of_pos hmore, List.takeWhile_append_dropWhile]

/-- Operators that group to one side, each with a name behind it, are ahead outside brackets, and there is
room for as many open expressions. -/
structure Chain (setup : Setup PrefixRule InfixRule) (s : State) (rest : List (Token × Token)) : Prop where
  ahead : s.ahead = pairs rest
  sided : ∀ pair ∈ rest, Sided setup.grammar pair.1
  names : ∀ pair ∈ rest, pair.2.kind = .identifier
  outside : ¬s.inGroup
  room : s.depth + s.ahead.length ≤ setup.settings.maxDepth

theorem Chain.of_passes {passed : List (Token × Token)} (h : Chain setup s (passed ++ rest))
    (hpasses : s.Passes (pairs passed) t) : Chain setup t rest where
  ahead := by
    have hahead := hpasses.ahead
    rw [h.ahead, pairs_append] at hahead
    exact (List.append_cancel_left hahead).symm
  sided := fun pair hpair => h.sided pair (List.mem_append_right _ hpair)
  names := fun pair hpair => h.names pair (List.mem_append_right _ hpair)
  outside := hpasses.inGroup ▸ h.outside
  room := by
    have hlength := hpasses.length_ahead
    have hdepth := hpasses.depth
    have hroom := h.room
    omega

/-- The first operator of a chain is taken, and then the name behind it. -/
theorem Chain.takes {pair : Token × Token} (h : Chain setup s (pair :: rest)) :
    ∃ t u, s.Takes pair.1 t ∧ t.Takes pair.2 u ∧ Chain setup u rest := by
  have hpasses : s.Passes ([pair.1] ++ [pair.2])
      { s with passed := pair.2 :: pair.1 :: s.passed, ahead := pairs rest } :=
    ⟨h.ahead, rfl, rfl, rfl, rfl⟩
  obtain ⟨t, ht, hu⟩ := hpasses.split
  have hchain : Chain setup s ([pair] ++ rest) := h
  exact ⟨t, _, State.takes_iff.2 ht, State.takes_iff.2 hu, hchain.of_passes hpasses⟩

/-- The grouping starts with the name and has the operators that bind tighter than asked for. -/
structure Grouped (setup : Setup PrefixRule InfixRule) (least : Int) (first : Token)
    (rest : List (Token × Token)) (tree : Grouping) : Prop where
  first : tree.first = first
  rest : tree.rest = rest.takeWhile (tighter setup.grammar least)
  wellGrouped : tree.WellGrouped setup.grammar

/-- With at most `size` tokens ahead, `operand` groups a name and what is chained to it. -/
def Groups (setup : Setup PrefixRule InfixRule) (operand : Int → Reading String) (size : Nat) : Prop :=
  ∀ least s t first rest, s.Takes first t → first.kind = .identifier → Chain setup t rest →
    s.depth + s.ahead.length ≤ setup.settings.maxDepth → s.ahead.length ≤ size →
    ∃ (tree : Grouping) (u : State), operand least s = .ok (tree.render setup.source) u ∧
      s.Passes tree.tokens u ∧ ¬u.afterLineBreak ∧ Grouped setup least first rest tree

/-- An operation is allowed by its operator if its left operand is, and its right one was read up to where
the operator asks for more. -/
theorem wellGrouped_operation {left right : Grouping} (hside : Sided setup.grammar operator)
    (hleft : left.WellGrouped setup.grammar)
    (hnext : ∀ o ∈ left.operators, AllowsLeft setup.grammar operator o)
    (hright : Grouped setup (reentry setup.grammar operator) first rest right) :
    (Grouping.operation operator left right).WellGrouped setup.grammar := by
  refine ⟨hnext, fun o ho => ?_, hleft, hright.wellGrouped⟩
  rw [Grouping.operators_eq, hright.rest] at ho
  obtain ⟨pair, hpair, rfl⟩ := List.mem_map.1 ho
  exact (allowsRight_iff_tighter hside pair).2 (List.mem_takeWhile_imp hpair)

/-- The operator at which a right operand ends can be the outer one to the whole operation. -/
theorem allowsLeft_operation {left right : Grouping} {pair : Token × Token}
    (hside : Sided setup.grammar operator)
    (hnext : ∀ o ∈ left.operators, AllowsLeft setup.grammar operator o)
    (hright : Grouped setup (reentry setup.grammar operator) first rest right)
    (hends : ¬tighter setup.grammar (reentry setup.grammar operator) pair) :
    ∀ o ∈ (Grouping.operation operator left right).operators, AllowsLeft setup.grammar pair.1 o := by
  have hallows : AllowsLeft setup.grammar pair.1 operator :=
    allowsLeft_of_not_allowsRight hside (mt (allowsRight_iff_tighter hside pair).1 hends)
  intro o ho
  obtain ho | rfl | ho : o ∈ left.operators ∨ o = operator ∨ o ∈ right.operators := by
    simpa [Grouping.operators] using ho
  · exact (hnext o ho).trans hallows
  · exact hallows
  · rw [Grouping.operators_eq, hright.rest] at ho
    obtain ⟨inner, hinner, rfl⟩ := List.mem_map.1 ho
    have htight := List.mem_takeWhile_imp hinner
    simp only [tighter, decide_eq_true_eq] at hends htight
    exact .inl (by omega)

/-- An operator reads its right operand and puts parentheses around the operation. -/
theorem next_eq_ok {left right : Grouping} {u : State} (hside : Sided setup.grammar operator)
    (hout : ¬s.inGroup) (hoperator : s.Takes operator t)
    (hright : operand (reentry setup.grammar operator) t = .ok (right.render setup.source) u) :
    language.next setup operand (left.render setup.source) s =
      .ok ((Grouping.operation operator left right).render setup.source) u := by
  have hskip : s.skipGroupedLineBreaks = s := if_neg hout
  unfold reentry at hright
  obtain hleft | hrule := hside
  · rw [hleft, if_neg (by simp)] at hright
    refine Language.next_eq_ok.2 ⟨operator, t, .left, hskip.symm ▸ hoperator, hleft, ?_⟩
    exact bind_eq_ok.2 ⟨_, u, hright, rfl⟩
  · rw [if_pos hrule] at hright
    refine Language.next_eq_ok.2 ⟨operator, t, .right, hskip.symm ▸ hoperator, hrule, ?_⟩
    exact bind_eq_ok.2 ⟨_, u, hright, rfl⟩

/-- Outside brackets and within a line an operator binds as the table says. -/
theorem Chain.tight_iff {pair : Token × Token} (h : Chain setup s (pair :: rest))
    (hbreak : ¬s.afterLineBreak) :
    ¬(s.done ∨ setup.power s ≤ least) ↔ tighter setup.grammar least pair := by
  have hcurrent : s.current? = some pair.1 := by rw [State.current?, h.ahead]; rfl
  have hopen : ¬s.done := by simp [State.done, h.ahead, pairs]
  have hpower : setup.power s = setup.grammar.power pair.1.kind := by
    simp [Setup.power, State.power, h.outside, hbreak, hcurrent]
  rw [hpower]
  simp [hopen, tighter]

/-- A round of the loop passes an operator with its right operand, which ends where the operator asks for
more. -/
theorem round_groups (h : Groups setup operand size) (left : Grouping) {pair : Token × Token}
    (hs : Chain setup s (pair :: rest)) (hsize : s.ahead.length ≤ size) :
    ∃ (right : Grouping) (t : State), language.next setup operand (left.render setup.source) s =
        .ok ((Grouping.operation pair.1 left right).render setup.source) t ∧
      s.Passes (pairs (pair :: rest.takeWhile (tighter setup.grammar (reentry setup.grammar pair.1)))) t ∧
      ¬t.afterLineBreak ∧ Grouped setup (reentry setup.grammar pair.1) pair.2 rest right := by
  obtain ⟨t, u, hoperator, hname, hu⟩ := hs.takes
  have hside := hs.sided pair List.mem_cons_self
  have hkind := hs.names pair List.mem_cons_self
  have hlength := hoperator.passes.length_ahead
  have hdepth := hoperator.passes.depth
  have hroom := hs.room
  rw [List.length_singleton] at hlength
  obtain ⟨right, v, hright, hpasses, hbreak, hgrouped⟩ :=
    h (reentry setup.grammar pair.1) t u pair.2 rest hname hkind hu (by omega) (by omega)
  have hpasses' := hoperator.passes.trans hpasses
  rw [right.tokens_eq, hgrouped.first, hgrouped.rest] at hpasses'
  exact ⟨right, v, next_eq_ok hside hs.outside hoperator hright, hpasses', hbreak, hgrouped⟩

/-- The loop keeps a grouping to whose operators the next one can be the outer one, so that what it ends
with is allowed by the table. -/
theorem extend_groups (h : Groups setup operand size) {rounds : Nat} (least : Int) (left : Grouping)
    (hs : Chain setup s rest) (hbreak : ¬s.afterLineBreak) (hsize : s.ahead.length ≤ size)
    (hb : s.ahead.length ≤ rounds) (hleft : left.WellGrouped setup.grammar)
    (hnext : ∀ pair ∈ rest.head?, ∀ o ∈ left.operators, AllowsLeft setup.grammar pair.1 o) :
    ∃ (tree : Grouping) (t : State),
      language.extend setup operand least rounds (left.render setup.source) s =
        .ok (tree.render setup.source) t ∧
      s.Passes (pairs (rest.takeWhile (tighter setup.grammar least))) t ∧ ¬t.afterLineBreak ∧
      tree.first = left.first ∧
      tree.rest = left.rest ++ rest.takeWhile (tighter setup.grammar least) ∧
      tree.WellGrouped setup.grammar := by
  induction rounds generalizing s left rest with
  | zero =>
    have hdone : s.ahead = [] := List.eq_nil_of_length_eq_zero (by omega)
    obtain rfl : rest = [] := pairs_injective (hs.ahead.symm.trans hdone)
    exact ⟨left, s, rfl, .refl s, hbreak, rfl, (List.append_nil _).symm, hleft⟩
  | succ rounds ih =>
    cases rest with
    | nil =>
      have hdone : s.done := by rw [State.done, hs.ahead]; rfl
      exact ⟨left, s, Language.extend_of_loose (.inl hdone), .refl s, hbreak, rfl,
        (List.append_nil _).symm, hleft⟩
    | cons pair rest =>
      by_cases htight : tighter setup.grammar least pair
      · obtain ⟨right, t, hround, hpasses, hbreak', hgrouped⟩ := round_groups h left hs hsize
        have hside := hs.sided pair List.mem_cons_self
        have hnext' := hnext pair rfl
        let more := tighter setup.grammar (reentry setup.grammar pair.1)
        have ht : Chain setup t (rest.dropWhile more) := by
          refine Chain.of_passes ?_ hpasses
          rwa [List.cons_append, List.takeWhile_append_dropWhile]
        have hends : ∀ next ∈ (rest.dropWhile more).head?,
            ∀ o ∈ (Grouping.operation pair.1 left right).operators,
              AllowsLeft setup.grammar next.1 o := by
          intro next hmem
          have hstop := List.head?_dropWhile_not more rest
          rw [hmem] at hstop
          exact allowsLeft_operation hside hnext' hgrouped (by simpa using hstop)
        have hlength := hpasses.length_ahead
        rw [pairs_cons, List.length_cons] at hlength
        obtain ⟨tree, u, hextend, hu, hbreak'', hfirst, hrest, hwell⟩ :=
          ih _ ht hbreak' (by omega) (by omega) (wellGrouped_operation hside hleft hnext' hgrouped) hends
        have htaken : (pair :: rest).takeWhile (tighter setup.grammar least) =
            (pair :: rest.takeWhile more) ++
              (rest.dropWhile more).takeWhile (tighter setup.grammar least) := by
          rw [List.takeWhile_cons_of_pos htight, takeWhile_tighter (le_reentry htight),
            List.cons_append]
        refine ⟨tree, u, Language.extend_of_next ((hs.tight_iff hbreak).2 htight) hround hextend, ?_,
          hbreak'', hfirst, ?_, hwell⟩
        · rw [htaken, pairs_append]
          exact hpasses.trans hu
        · rw [hrest, htaken, Grouping.rest, hgrouped.first, hgrouped.rest, List.append_assoc]
      · have hloose := not_not.1 (mt (hs.tight_iff hbreak).1 htight)
        rw [List.takeWhile_cons_of_neg htight]
        exact ⟨left, s, Language.extend_of_loose hloose, .refl s, hbreak, rfl,
          (List.append_nil _).symm, hleft⟩

/-- Behind a name no line break was passed. -/
theorem not_afterLineBreak (htoken : s.Takes first t) (hkind : first.kind = .identifier) :
    ¬t.afterLineBreak := by
  have hpassed := htoken.passes.passed
  simp [State.afterLineBreak, hpassed, hkind]

/-- A climb groups what is chained to its first name. -/
theorem climb_groups (h : Groups setup operand size) (least : Int)
    (hname : setup.grammar.prefixRule? .identifier = some .name) (hfirst : s.Takes first t)
    (hkind : first.kind = .identifier) (ht : Chain setup t rest) (hsize : t.ahead.length ≤ size) :
    ∃ (tree : Grouping) (u : State),
      language.climb setup operand least s = .ok (tree.render setup.source) u ∧
      s.Passes tree.tokens u ∧ ¬u.afterLineBreak ∧ Grouped setup least first rest tree := by
  obtain ⟨tree, u, hextend, hpasses, hbreak, hstarts, hrest, hwell⟩ :=
    extend_groups h least (.operand first) ht (not_afterLineBreak hfirst hkind)
      hsize (Nat.le_refl _) trivial (by simp [Grouping.operators])
  have hskip : s.skipGroupedLineBreaks = s := by
    refine if_neg ?_
    rw [← hfirst.passes.inGroup]
    exact ht.outside
  have hreads : language.first setup operand s = .ok (first.text setup.source) t :=
    Language.first_eq_ok.2 ⟨first, t, .name, hskip.symm ▸ hfirst, by rw [hkind, hname], rfl⟩
  refine ⟨tree, u, Language.climb_eq_ok.2 ⟨_, t, hreads, hextend⟩, ?_, hbreak, hstarts, hrest, hwell⟩
  rw [tree.tokens_eq, hstarts, hrest]
  exact hfirst.passes.trans hpasses

theorem groups_expressionWithin (hname : setup.grammar.prefixRule? .identifier = some .name)
    (bound : Nat) : Groups setup (language.expressionWithin setup bound) bound := by
  induction bound with
  | zero =>
    intro least s t first rest hfirst _ _ _ hsize
    have hlength := hfirst.passes.length_ahead
    rw [List.length_singleton] at hlength
    omega
  | succ bound ih =>
    intro least s t first rest hfirst hkind ht hroom hsize
    have hlength := hfirst.passes.length_ahead
    have hdepth := hfirst.passes.depth
    rw [List.length_singleton] at hlength
    have hfirst' : State.Takes { s with depth := s.depth + 1 } first { t with depth := t.depth + 1 } := by
      obtain ⟨hahead, hpassed, hindentation, hgroups, hdepth⟩ := hfirst.passes
      exact State.takes_iff.2 ⟨hahead, hpassed, hindentation, hgroups, congrArg (· + 1) hdepth⟩
    have ht' : Chain setup { t with depth := t.depth + 1 } rest :=
      ⟨ht.ahead, ht.sided, ht.names, ht.outside, show t.depth + 1 + t.ahead.length ≤ _ by omega⟩
    obtain ⟨tree, u, hclimb, hpasses, hbreak, hgrouped⟩ :=
      climb_groups ih least hname hfirst' hkind ht' (show t.ahead.length ≤ bound by omega)
    refine ⟨tree, { u with depth := u.depth - 1 },
      nested_eq_ok.2 ⟨by omega, u, hclimb, rfl⟩, ?_, hbreak, hgrouped⟩
    exact ⟨hpasses.ahead, hpasses.passed, hpasses.indentation, hpasses.groups,
      by simp [hpasses.depth]⟩

/-- Whatever power and side each operator has, an expression over names and operators is read up to the
first operator that binds no tighter than asked for, and written out in the only grouping that the powers
and sides allow. -/
theorem expression_groups (hname : setup.grammar.prefixRule? .identifier = some .name)
    (hahead : s.ahead = first :: pairs rest) (hfirst : first.kind = .identifier)
    (hsided : ∀ pair ∈ rest, Sided setup.grammar pair.1)
    (hnames : ∀ pair ∈ rest, pair.2.kind = .identifier) (hout : ¬s.inGroup)
    (hroom : s.depth + s.ahead.length ≤ setup.settings.maxDepth) (least : Int) :
    ∃ (tree : Grouping) (t : State),
      language.expression setup least s = .ok (tree.render setup.source) t ∧
      tree.tokens = first :: pairs (rest.takeWhile (tighter setup.grammar least)) ∧
      s.Passes tree.tokens t ∧ t.ahead = pairs (rest.dropWhile (tighter setup.grammar least)) ∧
      tree.WellGrouped setup.grammar ∧
      ∀ other : Grouping, other.WellGrouped setup.grammar → other.tokens = tree.tokens →
        other = tree := by
  have hpasses : s.Passes [first] s.advance :=
    State.takes_iff.1 ⟨State.current?_eq_some_iff.2 ⟨_, hahead⟩, rfl⟩
  have ht : Chain setup s.advance rest := by
    have hlength := hpasses.length_ahead
    refine ⟨?_, hsided, hnames, hpasses.inGroup ▸ hout, by rw [hpasses.depth]; omega⟩
    exact (List.cons.inj (hahead.symm.trans hpasses.ahead)).2.symm
  obtain ⟨tree, t, hexpression, htokens, -, hgrouped⟩ :=
    groups_expressionWithin hname s.ahead.length least s s.advance first rest
      (State.takes_iff.2 hpasses) hfirst ht hroom (Nat.le_refl _)
  have hyield : tree.tokens = first :: pairs (rest.takeWhile (tighter setup.grammar least)) := by
    rw [tree.tokens_eq, hgrouped.first, hgrouped.rest]
  refine ⟨tree, t, hexpression, hyield, htokens, ?_, hgrouped.wellGrouped,
    fun other hother hsame => hother.eq_of_tokens hgrouped.wellGrouped hsame⟩
  have hsplit : pairs rest = pairs (rest.takeWhile (tighter setup.grammar least)) ++
      pairs (rest.dropWhile (tighter setup.grammar least)) := by
    rw [← pairs_append, List.takeWhile_append_dropWhile]
  have hahead' := htokens.ahead
  rw [hahead, hyield, hsplit] at hahead'
  exact (List.append_cancel_left (List.cons.inj hahead').2).symm

/-- A table with both sides at one level, and with a level below zero. -/
def mixedGrammar : Grammar PrefixRule InfixRule :=
  Grammar.empty.extend (fun kind => if kind = .identifier then some .name else none) fun kind =>
    match kind with
    | .plus => some (10, .left)
    | .dash => some (10, .right)
    | .assignment => some (-5, .right)
    | .equals => some (-20, .left)
    | _ => none

/-- The plus groups to the left and stands in the left operand of the minus; the comparison binds too
loosely to be read. -/
theorem expression_groups_of_mixed_sides :
    ∃ (tokens : List Token) (first : Token) (rest : List (Token × Token)) (tree : Grouping) (t : State),
      Tokens.ofSource "a = b + c - d == e" = .ok tokens ∧ tokens = first :: pairs rest ∧
      language.expression ⟨mixedGrammar, "a = b + c - d == e", {}⟩ (-10) (.start 2 tokens) =
        .ok (tree.render "a = b + c - d == e") t ∧
      tree.render "a = b + c - d == e" = "(a = ((b + c) - d))" ∧
      t.ahead.map (·.kind) = [.equals, .identifier] ∧ tree.WellGrouped mixedGrammar := by
  let setup : Setup PrefixRule InfixRule := ⟨mixedGrammar, "a = b + c - d == e", {}⟩
  obtain ⟨tokens, htokens, hf⟩ : ∃ tokens, Tokens.ofSource "a = b + c - d == e" = .ok tokens ∧
      (tokens.map (·.kind), (language.expression setup (-10)).run' (.start 2 tokens)) =
        ([.identifier, .assignment, .identifier, .plus, .identifier, .dash, .identifier, .equals,
          .identifier], some "(a = ((b + c) - d))") :=
    Tokens.exists_of_ofSource (by decide +kernel)
  simp only [Prod.mk.injEq, List.map_eq_cons_iff, List.map_eq_nil_iff] at hf
  obtain ⟨⟨a, _, rfl, ha, assign, _, rfl, hassign, b, _, rfl, hb, plus, _, rfl, hplus, c, _, rfl, hc,
    minus, _, rfl, hminus, d, _, rfl, hd, equals, _, rfl, hequals, e, _, rfl, he, rfl⟩, htext⟩ := hf
  obtain ⟨tree, t, hexpression, -, -, hahead, hwell, -⟩ :=
    @expression_groups setup (.start 2 _) a [(assign, b), (plus, c), (minus, d), (equals, e)] rfl rfl ha
      (by simp [Sided, setup, mixedGrammar, Grammar.extend, hassign, hplus, hminus, hequals])
      (by simp [hb, hc, hd, he]) Bool.false_ne_true
      (show 0 + 9 ≤ 256 by decide) (-10)
  refine ⟨_, a, [(assign, b), (plus, c), (minus, d), (equals, e)], tree, t, htokens, rfl, hexpression,
    ?_, ?_, hwell⟩
  · exact Option.some.inj ((run'_of_eq_ok hexpression).symm.trans htext)
  · rw [hahead]
    simp [pairs, tighter, setup, mixedGrammar, Grammar.extend, Grammar.empty, hassign, hplus, hminus,
      hequals, he]

end Offside.Bracketing
