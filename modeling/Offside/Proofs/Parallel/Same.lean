import Offside.Proofs.Parallel.Rules

set_option autoImplicit false

/-!
# Operands that are the same further on

Where two operands read the same from the states that a rule can reach, the rule reads the same with either.
-/
namespace Offside

open Reading

namespace Parallel

/-- One list of tokens beside itself, compared in some of the states. -/
def same (setup : Setup PrefixRule InfixRule) (Past : State → Prop)
    (honward : ∀ {s t}, Past s → s.Onward t → Past t) : Parallel where
  grammar := setup.grammar
  settings := setup.settings
  source := setup.source
  source' := setup.source
  place := id
  mark := id
  Alike := Eq
  Whole _ := True
  Past := Past
  kind_eq h := by rw [h]
  text_eq h := by rw [h]
  start_eq h := by rw [h]
  stop_eq h := by rw [h]
  span_eq h _ := by rw [h]
  whole_of_ne_newline _ := trivial
  whole_of_prefixRule _ := trivial
  whole_of_infixRule _ := trivial
  column_eq h := congrArg Position.column h
  mark_eq h := h
  onward := honward

section Same

variable {setup : Setup PrefixRule InfixRule} {Past : State → Prop}
  {honward : ∀ {s t}, Past s → s.Onward t → Past t} {s s' : State} {α α' : Type}

theorem beside_same : (same setup Past honward).Beside s s' ↔ s' = s := by
  constructor
  · rintro ⟨hpassed, hahead, hindentation, hgroups, hdepth⟩
    rw [same, List.forall₂_eq_eq_eq] at hpassed hahead
    cases s
    cases s'
    simp_all
  · rintro rfl
    have hrefl : ∀ ts : List Token, List.Forall₂ (same setup Past honward).Alike ts ts :=
      fun ts => List.forall₂_same.2 fun _ _ => rfl
    exact ⟨hrefl _, hrefl _, rfl, rfl, rfl⟩

theorem eq_of_same {n n' : Tree} (h : (same setup Past honward).Same n n') : n' = n := by
  simpa only [Same, same, Tree.map_id] using h

theorem eq_of_sameAll {ns ns' : List Tree} (h : (same setup Past honward).SameAll ns ns') : ns' = ns := by
  simpa only [← Tree.mapAll_eq_map, same, Tree.mapAll_id] using h.mapAll

theorem Agreed.eq {R : α → α → Prop} (hR : ∀ a a', R a a' → a' = a)
    {r r' : EStateM.Result Fault State α} (h : (same setup Past honward).Agreed R s r r') : r' = r := by
  cases h with
  | value ha ht _ => rw [hR _ _ ha, beside_same.1 ht]
  | fault he ht _ =>
    rw [beside_same.1 ht]
    cases he with
    | @reported d d' hcause hmark =>
      have hposition : d'.position = d.position := hmark
      cases d
      cases d'
      simp_all
    | misused misuse => rfl

/-- Readings that agree are the same where they are compared if the values are that they give. -/
theorem Agree.eq {R : α → α → Prop} {f f' : Reading α} (h : (same setup Past honward).Agree R f f')
    (hR : ∀ a a', R a a' → a' = a) (hs : Past s) : f' s = f s :=
  Agreed.eq hR (h s s hs (beside_same.2 rfl))

theorem operands_same (setup : Setup PrefixRule InfixRule)
    (honward : ∀ {s t}, Past s → s.Onward t → Past t) {operand operand' : Int → Reading Tree}
    (hadvances : ∀ least, Advances (operand least))
    (h : ∀ least t, Past t → operand' least t = operand least t) :
    (same setup Past honward).Operands operand operand' := by
  intro least s s' hpast hs
  obtain rfl := beside_same.1 hs
  have hadvanced := hadvances least s'
  rw [h least s' hpast]
  generalize operand least s' = r at hadvanced
  rcases r with ⟨n, t⟩ | ⟨e, t⟩
  · exact .value rfl (beside_same.2 rfl) hadvanced
  · refine .fault ?_ (beside_same.2 rfl) hadvanced
    cases e with
    | reported d => exact .reported rfl rfl
    | misused misuse => exact .misused misuse

end Same

end Parallel

end Offside
