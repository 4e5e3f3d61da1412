import Offside.Bracketing

set_option autoImplicit false

/-!
# Groupings

How operators group the names between them, as a tree. A table of powers and sides allows one grouping of a
chain of names and operators at most: of two operators in a chain only one can be the outer one.
-/
namespace Offside.Bracketing

/-- A name, or an operator with what stands left and right of it. -/
inductive Grouping
  | operand (token : Token)
  | operation (operator : Token) (left right : Grouping)
  deriving DecidableEq

/-- The tokens of operators that each have an operand behind them. -/
def pairs (rest : List (Token × Token)) : List Token :=
  rest.flatMap fun (operator, operand) => [operator, operand]

theorem pairs_cons (operator operand : Token) (rest : List (Token × Token)) :
    pairs ((operator, operand) :: rest) = operator :: operand :: pairs rest := rfl

theorem pairs_append (rest rest' : List (Token × Token)) :
    pairs (rest ++ rest') = pairs rest ++ pairs rest' :=
  List.flatMap_append

theorem pairs_injective : Function.Injective pairs := by
  intro rest
  induction rest with
  | nil =>
    intro rest' h
    cases rest' with
    | nil => rfl
    | cons => cases h
  | cons pair rest ih =>
    intro rest' h
    cases rest' with
    | nil => cases h
    | cons pair' rest' =>
      injection h with hoperator h
      injection h with hoperand h
      rw [Prod.ext hoperator hoperand, ih h]

/-- Two ways to take an element out of a list take the same one, or each takes one that stands on one side
of the other. -/
theorem eq_or_mem_of_append_cons {α : Type} {l l' r r' : List α} {x x' : α}
    (h : l ++ x :: r = l' ++ x' :: r') :
    (l = l' ∧ x = x' ∧ r = r') ∨ (x ∈ l' ∧ x' ∈ r) ∨ (x' ∈ l ∧ x ∈ r') := by
  obtain ⟨ks, rfl, hks⟩ | ⟨ks, rfl, hks⟩ := List.append_eq_append_iff.1 h
  · cases ks with
    | nil =>
      obtain ⟨rfl, rfl⟩ := List.cons.inj hks
      exact .inl ⟨(List.append_nil l).symm, rfl, rfl⟩
    | cons k ks =>
      obtain ⟨rfl, rfl⟩ := List.cons.inj hks
      exact .inr (.inl ⟨by simp, by simp⟩)
  · cases ks with
    | nil =>
      obtain ⟨rfl, rfl⟩ := List.cons.inj hks
      exact .inl ⟨List.append_nil l', rfl, rfl⟩
    | cons k ks =>
      obtain ⟨rfl, rfl⟩ := List.cons.inj hks
      exact .inr (.inr ⟨by simp, by simp⟩)

namespace Grouping

/-- The tokens from left to right. -/
def tokens : Grouping → List Token
  | operand token => [token]
  | operation operator left right => left.tokens ++ operator :: right.tokens

def operators : Grouping → List Token
  | operand _ => []
  | operation operator left right => left.operators ++ operator :: right.operators

/-- The grouping written out with a pair of parentheses around every operation. -/
def render (source : String) : Grouping → String
  | operand token => token.text source
  | operation operator left right =>
    "(" ++ left.render source ++ " " ++ operator.text source ++ " " ++ right.render source ++ ")"

/-- The leftmost name. -/
def first : Grouping → Token
  | operand token => token
  | operation _ left _ => left.first

/-- The operators with the names behind them. -/
def rest : Grouping → List (Token × Token)
  | operand _ => []
  | operation operator left right => left.rest ++ (operator, right.first) :: right.rest

theorem tokens_eq (g : Grouping) : g.tokens = g.first :: pairs g.rest := by
  induction g with
  | operand token => rfl
  | operation operator left right ihl ihr =>
    rw [tokens, ihl, ihr, first, rest, pairs_append, pairs_cons, List.cons_append]

theorem operators_eq (g : Grouping) : g.operators = g.rest.map Prod.fst := by
  induction g with
  | operand token => rfl
  | operation operator left right ihl ihr =>
    rw [operators, ihl, ihr, rest, List.map_append, List.map_cons]

end Grouping

section Sides

variable (grammar : Grammar PrefixRule InfixRule)

/-- The inner operator may stand in the left operand of the outer one: it binds tighter, or as tight and
groups to the left. -/
def AllowsLeft (outer inner : Token) : Prop :=
  grammar.power outer.kind < grammar.power inner.kind ∨
    grammar.power inner.kind = grammar.power outer.kind ∧ grammar.infixRule? inner.kind = some .left

/-- The inner operator may stand in the right operand of the outer one: it binds tighter, or as tight as
the outer one, which groups to the right. -/
def AllowsRight (outer inner : Token) : Prop :=
  grammar.power outer.kind < grammar.power inner.kind ∨
    grammar.power inner.kind = grammar.power outer.kind ∧ grammar.infixRule? outer.kind = some .right

instance (outer inner : Token) : Decidable (AllowsLeft grammar outer inner) :=
  inferInstanceAs (Decidable (_ ∨ _))

instance (outer inner : Token) : Decidable (AllowsRight grammar outer inner) :=
  inferInstanceAs (Decidable (_ ∨ _))

variable {grammar} {operator next inner : Token}

/-- Of two operators the first is not in the left operand of the second with the second in its right
operand. -/
theorem not_allowsRight_of_allowsLeft (h : AllowsLeft grammar next operator) :
    ¬AllowsRight grammar operator next := by
  unfold AllowsLeft at h
  unfold AllowsRight
  rintro (hlt | ⟨heq, hright⟩)
  · omega
  · obtain hlt | ⟨_, hleft⟩ := h
    · omega
    · cases hleft.symm.trans hright

/-- Either the second operator takes the first one, or the first one the second. -/
theorem allowsLeft_of_not_allowsRight
    (hrule : grammar.infixRule? operator.kind = some .left ∨
      grammar.infixRule? operator.kind = some .right)
    (h : ¬AllowsRight grammar operator next) : AllowsLeft grammar next operator := by
  unfold AllowsRight at h
  unfold AllowsLeft
  obtain hleft | hright := hrule
  · simp only [hleft, and_true]
    omega
  · simp only [hright, and_true] at h
    omega

theorem AllowsLeft.trans (h : AllowsLeft grammar operator inner)
    (h' : AllowsLeft grammar next operator) : AllowsLeft grammar next inner := by
  unfold AllowsLeft at h h' ⊢
  obtain hlt | ⟨heq, hleft⟩ := h
  · omega
  · simp only [hleft, and_true]
    omega

end Sides

namespace Grouping

/-- At every operation the operands are allowed by its operator. -/
def WellGrouped (grammar : Grammar PrefixRule InfixRule) : Grouping → Prop
  | operand _ => True
  | operation operator left right =>
    (∀ o ∈ left.operators, AllowsLeft grammar operator o) ∧
      (∀ o ∈ right.operators, AllowsRight grammar operator o) ∧
      left.WellGrouped grammar ∧ right.WellGrouped grammar

variable {grammar : Grammar PrefixRule InfixRule}

theorem WellGrouped.eq_of_rest {g g' : Grouping} (h : g.WellGrouped grammar)
    (h' : g'.WellGrouped grammar) (hfirst : g.first = g'.first) (hrest : g.rest = g'.rest) : g = g' := by
  induction g generalizing g' with
  | operand token =>
    cases g' with
    | operand token' => exact congrArg operand hfirst
    | operation operator' left' right' => simp [rest] at hrest
  | operation operator left right ihl ihr =>
    cases g' with
    | operand token' => simp [rest] at hrest
    | operation operator' left' right' =>
      obtain ⟨hleft, hright, hl, hr⟩ := h
      obtain ⟨hleft', hright', hl', hr'⟩ := h'
      simp only [operators_eq, List.forall_mem_map] at hleft hright hleft' hright'
      obtain ⟨hl₁, hpair, hr₁⟩ | ⟨hmem, hmem'⟩ | ⟨hmem, hmem'⟩ := eq_or_mem_of_append_cons hrest
      · obtain ⟨rfl, hfirst'⟩ := Prod.mk.inj hpair
        rw [ihl hl hl' hfirst hl₁, ihr hr hr' hfirst' hr₁]
      -- Each operator would stand in an operand of the other one.
      · exact absurd (hright _ hmem') (not_allowsRight_of_allowsLeft (hleft' _ hmem))
      · exact absurd (hright' _ hmem') (not_allowsRight_of_allowsLeft (hleft _ hmem))

/-- A chain of names and operators has one grouping at most. -/
theorem WellGrouped.eq_of_tokens {g g' : Grouping} (h : g.WellGrouped grammar)
    (h' : g'.WellGrouped grammar) (htokens : g.tokens = g'.tokens) : g = g' := by
  rw [tokens_eq, tokens_eq] at htokens
  obtain ⟨hfirst, hrest⟩ := List.cons.inj htokens
  exact h.eq_of_rest h' hfirst (pairs_injective hrest)

end Grouping

end Offside.Bracketing
