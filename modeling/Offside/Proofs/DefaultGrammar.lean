import Offside.Proofs.Run.Exact

set_option autoImplicit false

/-!
# The default grammar

Which kinds of tokens the default grammar puts its rules and binding powers on, and what that says about
the token that brought in the rule of a task.
-/
namespace Offside.Program

open Reading

variable {source : String} {settings : Settings} {kind : Kind}

@[simp] theorem setup_source : (setup source settings).source = source := rfl

@[simp] theorem setup_settings : (setup source settings).settings = settings := rfl

@[simp] theorem setup_prefixRule? :
    (setup source settings).grammar.prefixRule? kind = prefixRule? kind := by
  cases kind <;> rfl

@[simp] theorem setup_infixRule? :
    (setup source settings).grammar.infixRule? kind = (infixRule? kind).map Prod.snd := by
  cases kind <;> rfl

/-- The binding power of a kind in the default grammar. -/
def power (kind : Kind) : Int := ((infixRule? kind).map (·.1.power)).getD 0

@[simp] theorem setup_power : (setup source settings).grammar.power kind = power kind := by
  cases kind <;> rfl

theorem power_nonneg (kind : Kind) : 0 ≤ power kind := by
  cases kind <;> decide

/-- What no rule continues an expression with binds to nothing. -/
theorem power_eq_zero (h : infixRule? kind = none) : power kind = 0 := by
  rw [power, h]
  rfl

/-- The default grammar has the rule of the task at the token that brought it in. -/
def Fits : Task → Prop
  | .start rule token => prefixRule? token.kind = some rule
  | .continuation rule _ token => (infixRule? token.kind).map Prod.snd = some rule
  | _ => True

theorem fits_start {rule : PrefixRule} {token : Token}
    (h : (setup source settings).grammar.prefixRule? token.kind = some rule) :
    Fits (.start rule token) := setup_prefixRule?.symm.trans h

theorem fits_continuation {rule : InfixRule} {left : Tree} {token : Token}
    (h : (setup source settings).grammar.infixRule? token.kind = some rule) :
    Fits (.continuation rule left token) := setup_infixRule?.symm.trans h

/-- No expression starts with a line break. -/
theorem ne_newline_of_prefixRule {rule : PrefixRule} (h : prefixRule? kind = some rule) :
    kind ≠ .newline := by
  rintro rfl
  cases h

/-- No expression is continued with a line break. -/
theorem ne_newline_of_infixRule {rule : InfixRule} (h : (infixRule? kind).map Prod.snd = some rule) :
    kind ≠ .newline := by
  rintro rfl
  cases h

theorem kind_of_prefixRule {rule : PrefixRule} (h : prefixRule? kind = some rule) :
    match rule with
    | .identifier => kind = .identifier
    | .number => kind = .number
    | .string => kind = .string
    | .boolean => kind = .trueWord ∨ kind = .falseWord
    | .unary => kind = .dash ∨ kind = .not
    | .parenthesis => kind = .openParen
    | .list => kind = .openBracket := by
  cases kind <;> cases h <;> simp

theorem kind_of_infixRule {rule : InfixRule} (h : (infixRule? kind).map Prod.snd = some rule) :
    match rule with
    | .binary => ∃ operator, Operator.binary? kind = some operator
    | .assignment => kind = .assignment
    | .conditional => kind = .question
    | .function => kind = .arrow
    | .call => kind = .openParen
    | .index => kind = .openBracket := by
  cases kind <;> cases h <;> simp [Operator.binary?]

/-- A program that is one token at the first column is the tree that the token starts. -/
theorem parse_singleton {token : Token} {n : Tree} {rule : PrefixRule}
    (hrule : prefixRule? token.kind = some rule) (hcolumn : token.column = 0) (hdepth : 0 < settings.maxDepth)
    (hstart : ∀ s, Run (setup source settings) (.start rule token) s [n] s) :
    parse source settings [token] = .ok [n] := by
  have hclimb : Run (setup source settings) (.climb 0)
      { State.start settings.indentWidth [token] with depth := 1 } [n]
      ⟨[token], [], .base settings.indentWidth, [0], 1⟩ :=
    .first ⟨rfl, rfl⟩ (setup_prefixRule?.trans hrule) (hstart _) (.stop (.inl rfl))
  exact parse_of_climb (ne_newline_of_prefixRule hrule) hcolumn hdepth hclimb rfl

end Offside.Program

namespace Offside

open Reading

theorem Kind.ne_comma {close : Kind} (h : close = .closeParen ∨ close = .closeBracket) :
    close ≠ .comma := by
  rcases h with rfl | rfl <;> decide

/-- No expression starts with a closing bracket. -/
theorem Run.not_isNext_close {source : String} {settings : Settings} {least : Int} {s t : State}
    {out : List Tree} {close : Kind}
    (h : Run (Program.setup source settings) (.expression least) s out t)
    (hclose : close = .closeParen ∨ close = .closeBracket) : ¬s.isNext close := by
  rcases hclose with rfl | rfl <;> exact h.not_isNext (by decide) rfl

end Offside
