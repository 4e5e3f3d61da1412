import Offside.Proofs.LineBreaks.Alongside

set_option autoImplicit false

/-!
# Line breaks inside brackets

One more line break inside a bracket changes nothing about a program without indented bodies, but in one
place: between the parentheses of a parameter list and its arrow. There it is harmless only if the list has
one name; a program with any other list is not read any more.
-/
namespace Offside

open Reading

theorem Strands.ahead {before after : List Token} {line : Token} (h : Strands before line after) :
    ∃ w : Strand, w.Ahead (before ++ line :: after) := by
  obtain ⟨w, outer, rfl, rfl, rfl⟩ := h
  exact ⟨w, outer, by simp⟩

namespace Program

variable {source : String} {settings : Settings} {before after : List Token} {line : Token}
  {trees : List Tree}

/-- The tokens of a program close every bracket that they open. -/
theorem nesting_eq_zero_of_parse {tokens : List Token}
    (h : parse source settings tokens = .ok trees) : nesting tokens = 0 := by
  obtain ⟨t, hrun⟩ := parse_eq_ok_iff.1 h
  obtain ⟨ks, hp, hb⟩ := hrun.balanced trivial
  have hahead : tokens = ks ++ t.ahead := hp.ahead
  rw [hahead, hrun.ahead_of_statements rfl, List.append_nil]
  exact hb.closed

/-- A line break that is put inside a bracket of a program leaves its trees as they are, unless it parts a
parameter list of another length than one from its arrow. -/
theorem parse_insert_line_break (hparse : parse source settings (before ++ after) = .ok trees)
    (hinside : 0 < nesting before) (hline : line.kind = .newline)
    (hlast : ∀ k ∈ before.getLast?, ¬k.kind.TakesBody)
    (hinline : (before ++ after).IsChain fun k l => k.kind.TakesBody → l.kind ≠ .newline) :
    (∃ trees', parse source settings (before ++ line :: after) = .ok trees' ∧
      trees'.map Tree.bare = trees.map Tree.bare) ↔ ¬Strands before line after := by
  constructor
  · rintro ⟨trees', h, _⟩ hstrands
    obtain ⟨w, hw⟩ := hstrands.ahead
    obtain ⟨t, hrun⟩ := parse_eq_ok_iff.1 h
    exact hrun.not_stranded w hw
  · intro hstrands
    have hafter : after ≠ [] := by
      rintro rfl
      have hclosed := nesting_eq_zero_of_parse hparse
      rw [List.append_nil] at hclosed
      omega
    let c : Seam := ⟨before, after, line, hinside, hafter, hline, hlast, hinline⟩
    obtain ⟨t, hrun⟩ := parse_eq_ok_iff.1 hparse
    have hout : ¬(State.start settings.indentWidth (before ++ after)).inGroup := by
      simp [State.inGroup, State.start]
    obtain ⟨t', hrun', _⟩ := hrun.alongside (c := c) trivial hstrands _
      (Seam.Beside.start c settings.indentWidth) (.start _ (before ++ after)) hout
    exact ⟨trees, parse_eq_ok_iff.2 ⟨t', hrun'⟩, rfl⟩

/-- A line break behind the first name of a parameter list that is an argument. -/
theorem parse_insert_line_break_of_argument : ∃ tokens trees,
    Tokens.ofSource "f((a, b) -> a)" = .ok tokens ∧
    parse "f((a, b) -> a)" {} tokens = .ok trees ∧ 0 < nesting (tokens.take 4) ∧
    (∀ k ∈ (tokens.take 4).getLast?, ¬k.kind.TakesBody) ∧
    (tokens.IsChain fun k l => k.kind.TakesBody → l.kind ≠ .newline) ∧
    ∃ trees', parse "f((a, b) -> a)" {} (tokens.take 4 ++ ⟨.newline, default⟩ :: tokens.drop 4) =
      .ok trees' ∧ trees'.map Tree.bare = trees.map Tree.bare := by
  obtain ⟨tokens, trees, htokens, hparse, hf⟩ :
      ∃ tokens trees, Tokens.ofSource "f((a, b) -> a)" = .ok tokens ∧
        parse "f((a, b) -> a)" {} tokens = .ok trees ∧
        (decide (0 < nesting (tokens.take 4)), (tokens.take 4).getLast?.all (!decide ·.kind.TakesBody),
          decide (tokens.IsChain fun k l => k.kind.TakesBody → l.kind ≠ .newline),
          (tokens.drop 4).head?.any (·.kind = .comma)) = (true, true, true, true) :=
    exists_of_parse (by decide +kernel)
  simp only [Prod.mk.injEq, decide_eq_true_eq] at hf
  obtain ⟨hinside, hlast, hinline, hcomma⟩ := hf
  have hlast' : ∀ k ∈ (tokens.take 4).getLast?, ¬k.kind.TakesBody := by
    intro k hk
    rw [Option.mem_def] at hk
    simpa [hk] using hlast
  have hstrands : ¬Strands (tokens.take 4) ⟨.newline, default⟩ (tokens.drop 4) := by
    rintro ⟨w, _, _, _, hafter⟩
    simp [hafter, w.arrow_kind] at hcomma
  have hsplit := tokens.take_append_drop 4
  exact ⟨tokens, trees, htokens, hparse, hinside, hlast', hinline,
    (parse_insert_line_break (hsplit.symm ▸ hparse) hinside rfl hlast'
      (hsplit.symm ▸ hinline)).2 hstrands⟩

/-- Between the parameter list and its arrow the line break makes the program unreadable. -/
theorem parse_fails_on_line_break_before_arrow : ∃ tokens trees,
    Tokens.ofSource "f((a, b) -> a)" = .ok tokens ∧
    parse "f((a, b) -> a)" {} tokens = .ok trees ∧ 0 < nesting (tokens.take 7) ∧
    (∀ k ∈ (tokens.take 7).getLast?, ¬k.kind.TakesBody) ∧
    (tokens.IsChain fun k l => k.kind.TakesBody → l.kind ≠ .newline) ∧
    ∀ trees', parse "f((a, b) -> a)" {} (tokens.take 7 ++ ⟨.newline, default⟩ :: tokens.drop 7) ≠
      .ok trees' := by
  obtain ⟨tokens, trees, htokens, hparse, hf⟩ :
      ∃ tokens trees, Tokens.ofSource "f((a, b) -> a)" = .ok tokens ∧
        parse "f((a, b) -> a)" {} tokens = .ok trees ∧
        (decide (0 < nesting (tokens.take 7)), (tokens.take 7).getLast?.all (!decide ·.kind.TakesBody),
          decide (tokens.IsChain fun k l => k.kind.TakesBody → l.kind ≠ .newline),
          (parse "f((a, b) -> a)" {}
            (tokens.take 7 ++ ⟨.newline, default⟩ :: tokens.drop 7)).isOk) =
          (true, true, true, false) :=
    exists_of_parse (by decide +kernel)
  simp only [Prod.mk.injEq, decide_eq_true_eq] at hf
  obtain ⟨hinside, hlast, hinline, hfails⟩ := hf
  refine ⟨tokens, trees, htokens, hparse, hinside, fun k hk => ?_, hinline, fun trees' h => ?_⟩
  · rw [Option.mem_def] at hk
    simpa [hk] using hlast
  · simp [h, Except.isOk, Except.toBool] at hfails

end Program

end Offside
