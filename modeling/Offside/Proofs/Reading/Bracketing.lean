import Offside.Bracketing
import Offside.Proofs.Reading.Advancing

set_option autoImplicit false

/-!
# What the rules that write out the grouping keep

These rules take only the steps of a reading, so they keep what the steps keep; their blocks also look at the
level behind them.
-/
namespace Offside

open Reading

/-- What is closed behind a reading does not depend on what is made of its value. -/
theorem Reading.finishing_map {α β γ : Type} (g : α → γ) (f : Reading α) (finish : Reading β) :
    finishing (g <$> f) finish = g <$> finishing f finish := by
  funext s
  rw [← bind_pure_comp, ← bind_pure_comp, bind_apply]
  unfold finishing
  rw [bind_apply]
  rcases f s with ⟨a, t⟩ | ⟨⟨d⟩ | ⟨m⟩, t⟩
  · simp only [seqRight_eq_bind, bind_apply, pure, EStateM.pure]
    cases finish t <;> rfl
  · simp only [seqRight_eq_bind, bind_apply]
    cases finish t <;> rfl
  · rfl

/-! ### Rules that write out the grouping -/

namespace Bracketing

section Laws

variable {setup : Setup PrefixRule InfixRule} {Law : ∀ {α : Type}, Reading α → Prop}
  {operand : Int → Reading String}

theorem law_linesWithin (h : Compositional setup @Law) (hoperand : ∀ least, Law (operand least))
    (level bound : Nat) : Law (linesWithin (setup.reader operand) level bound) := by
  induction bound with
  | zero => exact h.value ""
  | succ bound ih =>
    refine h.look (fun s t hst => ?_) fun s => ?_
    · have hsame : s.hasIndentation level = t.hasIndentation level :=
        congrArg (Option.any _) hst.current?
      rw [hsame]
    · split
      · exact h.bind (hoperand 0) fun e => h.bind (h.accept _) fun _ => h.bind ih fun es => h.value _
      · exact h.value ""

/-- The text of a block tells the level around it, so the property has to be kept by a look at that too. -/
theorem law_readBlock (h : Compositional setup @Law)
    (hlook : ∀ {α : Type} {f : State → Reading α}, (∀ s, Law (f s)) → Law (get >>= f))
    (hoperand : ∀ least, Law (operand least)) (token : Token) :
    Law (readBlock (setup.reader operand) token) := by
  let lines (level : Nat) : Reading String :=
    get >>= fun s => linesWithin (setup.reader operand) level s.ahead.length
  have hlines (level : Nat) : Law (lines level) :=
    h.look (fun _ _ hst => by simp only [hst.ahead])
      fun s => law_linesWithin h hoperand level s.ahead.length
  have hblock : Law (openBlock >>= fun level => finishing ((level, ·) <$> lines level) closeBlock) := by
    simp only [← bind_pure_comp]
    exact h.blocked fun level => h.bind (hlines level) fun text => h.value (level, text)
  have hread := h.bind (h.require setup.source .newline) fun _ => h.bind hblock
    fun (p : Nat × String) => hlook fun s => h.value ("\x7b" ++ toString p.1 ++ p.2 ++ " " ++
      toString s.indentation.current ++ token.text setup.source ++ "\x7d")
  simp only [finishing_map, bind_assoc, bind_map_left] at hread
  exact hread

theorem law_prefixRule (h : Compositional setup @Law)
    (hlook : ∀ {α : Type} {f : State → Reading α}, (∀ s, Law (f s)) → Law (get >>= f))
    (hoperand : ∀ least, Law (operand least)) (rule : PrefixRule) (token : Token) :
    Law (rule.read (setup.reader operand) token) := by
  cases rule with
  | name | shout => exact h.value _
  | group => exact h.bind (hoperand 0) fun e => h.bind (h.require _ _) fun _ => h.value e
  | bracket =>
    simp only [PrefixRule.read]
    rw [← bind_assoc]
    exact h.bind (h.bracketed (hoperand 0)) fun e => h.bind (h.require _ _) fun _ => h.value _
  | negation => exact h.bind (hoperand _) fun e => h.value _
  | block => exact law_readBlock h hlook hoperand token

theorem law_infixRule (h : Compositional setup @Law) (hoperand : ∀ least, Law (operand least))
    (rule : InfixRule) (left : String) (token : Token) :
    Law (rule.read (setup.reader operand) left token) := by
  cases rule with
  | left | right => exact h.bind (hoperand _) fun f => h.value _
  | trailing => exact h.value _

theorem law_expression (h : Compositional setup @Law)
    (hlook : ∀ {α : Type} {f : State → Reading α}, (∀ s, Law (f s)) → Law (get >>= f)) (least : Int) :
    Law (language.expression setup least) := by
  refine hlook fun s => ?_
  induction s.ahead.length generalizing least with
  | zero => exact h.nested h.endOfInput
  | succ bound ih =>
    have hstarts : ∀ rule token, Law (language.prefixRule rule (setup.reader _) token) :=
      law_prefixRule h hlook ih
    exact h.nested (h.climb hstarts (law_infixRule h ih) least)

end Laws

end Bracketing

end Offside
