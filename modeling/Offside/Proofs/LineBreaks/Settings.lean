import Offside.Proofs.Finished
import Offside.Proofs.LineBreaks.Inserted
import Offside.Proofs.Termination

set_option autoImplicit false

/-!
# Whether line breaks end expressions

The setting is only looked at outside brackets, where the last token was a line break and the next one could
continue an expression. An expression that ends behind a line break has an indented body; so without such a
body, or without operators at the start of a line, the setting makes no difference.
-/
namespace Offside

open Reading

namespace Reading.State

variable {s : State} {token : Token} {kind : Kind}

/-- The last token passed and the next one are neighbours. -/
theorem exists_behind_of_isChain {R : Token → Token → Prop} (h : s.tokens.IsChain R)
    (hbehind : s.behind? = some kind) (hnext : s.current? = some token) :
    ∃ last : Token, last.kind = kind ∧ R last token := by
  obtain ⟨last, hlast, hkind⟩ := Option.map_eq_some_iff.1 hbehind
  obtain ⟨rest, hahead⟩ := current?_eq_some_iff.1 hnext
  obtain ⟨earlier, hpassed⟩ := List.head?_eq_some_iff.1 hlast
  rw [tokens, hpassed, hahead, List.reverse_cons, List.append_assoc, List.singleton_append] at h
  exact ⟨last, hkind, (List.isChain_append_cons_cons.1 h).2.1⟩

end Reading.State

namespace Run

variable {source : String} {settings : Settings} {task : Task} {s t : State} {out : List Tree}

/-- What a task is given on one line: the token that brought in its rule or its body was just passed, and no
expression is extended behind a line break. -/
def GivenOnLine (s : State) : Task → Prop
  | .extension _ _ => ¬s.afterLineBreak
  | .start rule token => s.behind? = some token.kind ∧ Program.Fits (.start rule token)
  | .continuation rule left token => s.behind? = some token.kind ∧ Program.Fits (.continuation rule left token)
  | .body => ∃ kind, s.behind? = some kind ∧ kind.TakesBody
  | _ => True

/-- Expressions, their parts and bodies do not end behind a line break. -/
def EndsOnLine (t : State) : Task → Prop
  | .items _ | .statements _ => True
  | _ => ¬t.afterLineBreak

/-- Where no body is indented, an expression ends on the line of its last token. -/
theorem endsOnLine (h : Run (Program.setup source settings) task s out t)
    (hinline : s.tokens.IsChain fun k l => k.kind.TakesBody → l.kind ≠ .newline)
    (hs : GivenOnLine s task) : EndsOnLine t task := by
  induction h with
  | nested _ _ ih => exact ih hinline trivial
  | first htoken hrule hstart _ ih ih' =>
    have hpasses := (State.passes_skipGroupedLineBreaks _).trans htoken.passes
    obtain ⟨ks, hpasses'⟩ := hstart.passes
    have hleft := ih (hpasses.tokens.symm ▸ hinline)
      ⟨State.behind?_of_takes htoken, Program.fits_start hrule⟩
    exact ih' ((hpasses.trans hpasses').tokens.symm ▸ hinline) hleft
  | next _ htoken hrule hcontinuation _ ih ih' =>
    have hpasses := (State.passes_skipGroupedLineBreaks _).trans htoken.passes
    obtain ⟨ks, hpasses'⟩ := hcontinuation.passes
    have hlonger := ih (hpasses.tokens.symm ▸ hinline)
      ⟨State.behind?_of_takes htoken, Program.fits_continuation hrule⟩
    exact ih' ((hpasses.trans hpasses').tokens.symm ▸ hinline) hlonger
  | stop => exact hs
  | identifier | number | string | boolean =>
    exact State.not_afterLineBreak_of_behind? hs.1 (Program.ne_newline_of_prefixRule hs.2)
  | unary _ _ ih | binary _ _ ih | assignment _ _ ih | inlineBody _ _ ih => exact ih hinline trivial
  | parameters _ hstop | grouping _ hstop | list _ hstop | call _ hstop | index _ hstop =>
    exact hstop.not_afterLineBreak (by decide)
  | conditional _ ih =>
    exact ih hinline ⟨_, hs.1, .inr (Program.kind_of_infixRule hs.2)⟩
  | function _ _ ih =>
    exact ih hinline ⟨_, hs.1, .inl (Program.kind_of_infixRule hs.2)⟩
  | indentedBody hbreak =>
    obtain ⟨_, hbehind, hbody⟩ := hs
    obtain ⟨line, hline, hkind⟩ := State.isNext_iff.1 hbreak
    obtain ⟨last, rfl, hlast⟩ := State.exists_behind_of_isChain hinline hbehind hline
    exact absurd hkind (hlast hbody)
  | noItems | lastItem | item | noTokens | outdent | statement => trivial

end Run

namespace Program

variable {source : String} {settings settings' : Settings} {s t : State} {least : Int} {left longer : Tree}

/-- How tightly the next token binds does not depend on whether line breaks end expressions. -/
def Settled (s : State) : Prop := ∀ ends ends', s.power grammar.power ends = s.power grammar.power ends'

theorem settled_of_not_afterLineBreak (h : ¬s.afterLineBreak) : Settled s := by
  intro ends ends'
  simp [State.power, h]

/-- What continues no expression binds to nothing anyway. -/
theorem settled_of_infixRule? (h : ∀ k, s.current? = some k → infixRule? k.kind = none) : Settled s := by
  have hloose : ∀ ends, ¬s.inGroup → s.power grammar.power ends = 0 := by
    intro ends hout
    rw [State.power, if_neg hout]
    split
    · rfl
    cases hcurrent : s.current? with
    | none => rfl
    | some k => exact (@setup_power "" {} k.kind).trans (power_eq_zero (h k hcurrent))
  intro ends ends'
  by_cases hin : s.inGroup
  · rw [State.power, State.power, if_pos hin, if_pos hin]
  · rw [hloose ends hin, hloose ends' hin]

/-- No body is indented, or no line starts with a token that could continue an expression. -/
def Separate (tokens : List Token) : Prop :=
  (tokens.IsChain fun k l => k.kind.TakesBody → l.kind ≠ .newline) ∨
    tokens.IsChain fun k l => k.kind = .newline → infixRule? l.kind = none

/-- It is enough to know that no line break has just been passed if no body is indented. -/
theorem settled_of_separate (h : Separate s.tokens) (hinline : (s.tokens.IsChain fun k l =>
    k.kind.TakesBody → l.kind ≠ .newline) → ¬s.afterLineBreak) : Settled s := by
  rcases h with h | h
  · exact settled_of_not_afterLineBreak (hinline h)
  by_cases hbreak : s.afterLineBreak
  · refine settled_of_infixRule? fun k hk => ?_
    rw [State.afterLineBreak_eq, Option.any_eq_true] at hbreak
    obtain ⟨kind, hbehind, hkind⟩ := hbreak
    obtain ⟨last, rfl, hlast⟩ := State.exists_behind_of_isChain h hbehind hk
    exact hlast (by simpa using hkind)
  · exact settled_of_not_afterLineBreak hbreak

/-- What a rule reads behind its token ends where everything is settled. -/
theorem settled_of_run {task : Task} {token : Token} {u : State} {out : List Tree} (h : Separate s.tokens)
    (htoken : s.skipGroupedLineBreaks.Takes token u) (hrun : Run (setup source settings) task u out t)
    (hs : Run.GivenOnLine u task) (hends : Run.EndsOnLine t task → ¬t.afterLineBreak) :
    t.tokens = s.tokens ∧ Settled t := by
  obtain ⟨ks, hpasses⟩ := hrun.passes
  have hu : u.tokens = s.tokens := ((State.passes_skipGroupedLineBreaks s).trans htoken.passes).tokens
  have ht := hpasses.tokens.trans hu
  exact ⟨ht, settled_of_separate (ht.symm ▸ h) fun hinline =>
    hends (hrun.endsOnLine (hpasses.tokens ▸ hinline) hs)⟩

theorem settled_of_first (h : Separate s.tokens) (hfirst : Tree.language.first (setup source settings')
    (Tree.language.expression (setup source settings)) s = .ok left t) :
    t.tokens = s.tokens ∧ Settled t := by
  obtain ⟨token, u, rule, htoken, hrule, hread⟩ := Language.first_eq_ok.1 hfirst
  have hrun := Language.run_of_prefixRule (Language.covers_expression (setup source settings)) hread
  exact settled_of_run h htoken hrun ⟨State.behind?_of_takes htoken, fits_start hrule⟩ id

theorem settled_of_next (h : Separate s.tokens) (hnext : Tree.language.next (setup source settings')
    (Tree.language.expression (setup source settings)) left s = .ok longer t) :
    t.tokens = s.tokens ∧ Settled t := by
  obtain ⟨token, u, rule, htoken, hrule, hread⟩ := Language.next_eq_ok.1 hnext
  have hrun := Language.run_of_infixRule (Language.covers_expression (setup source settings)) hread
  exact settled_of_run h htoken hrun ⟨State.behind?_of_takes htoken, fits_continuation hrule⟩ id

theorem extend_of_settled (h : Separate s.tokens) (hsettled : Settled s) (rounds : Nat) :
    Tree.language.extend (setup source settings') (Tree.language.expression (setup source settings)) least
        rounds left s =
      Tree.language.extend (setup source settings) (Tree.language.expression (setup source settings)) least
        rounds left s := by
  induction rounds generalizing s left with
  | zero => rfl
  | succ rounds ih =>
    have hpower : (setup source settings').power s = (setup source settings).power s := hsettled _ _
    rw [Language.extend, Language.extend, look_apply, look_apply, hpower]
    split
    · rfl
    · refine bind_congr_at fun longer t hnext => ?_
      obtain ⟨ht, hsettled⟩ := settled_of_next h hnext
      exact ih (ht.symm ▸ h) hsettled

theorem climb_of_separate (h : Separate s.tokens) :
    Tree.language.climb (setup source settings') (Tree.language.expression (setup source settings)) least s =
      Tree.language.climb (setup source settings) (Tree.language.expression (setup source settings)) least
        s := by
  refine bind_congr_at fun left t hfirst => ?_
  obtain ⟨ht, hsettled⟩ := settled_of_first h hfirst
  exact extend_of_settled (ht.symm ▸ h) hsettled t.ahead.length

/-- Expressions are read alike under all settings with the same limit on nesting. -/
theorem expression_of_separate (h : Separate s.tokens) (hdepth : settings'.maxDepth = settings.maxDepth) :
    Tree.language.expression (setup source settings) least s =
      Tree.language.expression (setup source settings') least s := by
  induction hn : s.ahead.length using Nat.strong_induction_on generalizing s least with
  | _ n ih =>
    have hdeeper : Separate ({ s with depth := s.depth + 1 } : State).tokens := h
    calc Tree.language.expression (setup source settings) least s
      _ = nested settings.maxDepth (Tree.language.climb (setup source settings)
            (Tree.language.expression (setup source settings)) least) s :=
          (congrFun ((Language.recurs_expression _).solves least) s).symm
      _ = nested settings'.maxDepth (Tree.language.climb (setup source settings')
            (Tree.language.expression (setup source settings)) least) s := by
          rw [hdepth]
          exact nested_congr_at (climb_of_separate hdeeper).symm
      _ = Tree.language.expression (setup source settings') least s :=
          -- behind a token the induction applies
          Language.recurs_expression (setup source settings') _ least s fun _ t ht =>
            ih _ (hn ▸ ht.length_ahead_lt) (ht.1.symm ▸ h) rfl

theorem block_of_separate (h : Separate s.tokens) (hdepth : settings'.maxDepth = settings.maxDepth)
    (level : Nat) : (setup source settings).program.block level s =
      (setup source settings').program.block level s := by
  have hoperand : ∀ least t, s.Onward t → Tree.language.expression (setup source settings) least t =
      Tree.language.expression (setup source settings') least t :=
    fun _ _ ht => expression_of_separate (ht.tokens.symm ▸ h) hdepth
  exact (program_congr hoperand).2.1 level

/-- The setting whether line breaks end expressions matters only behind indented bodies: without one, or
without a token at the start of a line that could continue an expression, the same trees are read, or the same
is reported. -/
theorem parse_line_breaks_settled {tokens : List Token}
    (h : (tokens.IsChain fun k l => k.kind.TakesBody → l.kind ≠ .newline) ∨
      tokens.IsChain fun k l => k.kind = .newline → infixRule? l.kind = none) :
    parse source { settings with lineBreaksEndExpressions := true } tokens =
      parse source { settings with lineBreaksEndExpressions := false } tokens := by
  have hseparate : Separate (State.start settings.indentWidth tokens).tokens := h
  have hblock : (setup source { settings with lineBreaksEndExpressions := true }).program.block 0
        (.start settings.indentWidth tokens) =
      (setup source { settings with lineBreaksEndExpressions := false }).program.block 0
        (.start settings.indentWidth tokens) := by
    refine block_of_separate hseparate ?_ 0
    rfl
  rw [parse, parse, hblock]

/-- A sign starts a line behind a line without a body, and a name starts one behind an indented body. -/
theorem parse_line_breaks_settled_of_lines : ∃ tokens tokens',
    Tokens.ofSource "a\n- b" = .ok tokens ∧
    (tokens.IsChain fun k l => k.kind.TakesBody → l.kind ≠ .newline) ∧
    parse "a\n- b" { lineBreaksEndExpressions := true } tokens =
      parse "a\n- b" { lineBreaksEndExpressions := false } tokens ∧
    Tokens.ofSource "a ?\n  b\nc" = .ok tokens' ∧
    (tokens'.IsChain fun k l => k.kind = .newline → infixRule? l.kind = none) ∧
    parse "a ?\n  b\nc" { lineBreaksEndExpressions := true } tokens' =
      parse "a ?\n  b\nc" { lineBreaksEndExpressions := false } tokens' := by
  obtain ⟨tokens, htokens, hinline⟩ : ∃ tokens, Tokens.ofSource "a\n- b" = .ok tokens ∧
      decide (tokens.IsChain fun k l => k.kind.TakesBody → l.kind ≠ .newline) = true :=
    Tokens.exists_of_ofSource (by decide +kernel)
  obtain ⟨tokens', htokens', hlines⟩ : ∃ tokens, Tokens.ofSource "a ?\n  b\nc" = .ok tokens ∧
      decide (tokens.IsChain fun k l => k.kind = .newline → infixRule? l.kind = none) = true :=
    Tokens.exists_of_ofSource (by decide +kernel)
  rw [decide_eq_true_eq] at hinline hlines
  exact ⟨tokens, tokens', htokens, hinline, @parse_line_breaks_settled _ {} _ (.inl hinline),
    htokens', hlines, @parse_line_breaks_settled _ {} _ (.inr hlines)⟩

/-- A sign at the start of a line behind an indented body continues the conditional only if line breaks do not
end expressions. -/
example : ([true, false].map fun ends =>
      (ofSource "a ?\n  b\n- c" { lineBreaksEndExpressions := ends }).toOption.map (·.map Tree.render)) =
    [some ["(? a b)", "(- c)"], some ["(- (? a b) c)"]] := by decide +kernel

end Program

end Offside
