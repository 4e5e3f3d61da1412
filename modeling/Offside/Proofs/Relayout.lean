import Offside.Proofs.Joining
import Offside.Proofs.Relayout.Failures
import Offside.Proofs.Run.Reported

set_option autoImplicit false

/-!
# Layout

Blank lines, comments, blanks inside lines and the depth of indentation mean nothing. Two texts with the same
lines, each read with its own step of indentation, are the same program: they have the same trees but for
their spans, or the same fault but for the columns that it tells.
-/
namespace Offside

open Reading

namespace Relayout

variable {c : Relayout} {source : String} {settings : Settings} {tokens tokens' : List Token}

theorem Starts.skipLineBreaks_start (h : Starts tokens) (width : Nat) :
    (State.start width tokens).skipLineBreaks = .start width tokens := by
  refine State.skipLineBreaks_of_not_isNext fun hnext => ?_
  obtain ⟨k, hk, hkind⟩ := State.isNext_iff.1 hnext
  exact h k hk hkind

/-- Line breaks before a program change nothing about it. -/
theorem parse_dropWhile (tokens : List Token) :
    Program.parse source settings (tokens.dropWhile (·.kind = .newline)) =
      Program.parse source settings tokens := by
  have hunder : (State.start settings.indentWidth tokens).skipLineBreaks =
      (State.start settings.indentWidth (tokens.dropWhile (·.kind = .newline))).under
        (tokens.takeWhile (·.kind = .newline)).reverse := by
    simp [State.skipLineBreaks, State.under, State.start]
  rw [Program.parse_eq_outcome, Program.parse_eq_outcome,
    ← block_skipLineBreaks 0 (.start _ tokens), hunder,
    outcome_block_under ((starts_dropWhile tokens).skipLineBreaks_start _) Bool.false_ne_true]

theorem beside_start (h : c.Lines true tokens tokens') :
    c.Beside (.start c.width tokens) (.start c.width' tokens') where
  lines := h
  behind := rfl
  groups := rfl
  depth := rfl
  levels := rfl
  step := rfl
  step' := rfl
  multiples := nofun

theorem ready_start (hstarts : Starts tokens) (h : c.Lines true tokens tokens') :
    c.Ready (.start c.width tokens) (.start c.width' tokens') (.statements 0) := by
  refine ⟨(beside_start h).skipLineBreaks, fun _ _ => ?_⟩
  rw [hstarts.skipLineBreaks_start]
  rfl

theorem corresponds_start : c.Corresponds (.statements 0) (.statements 0) := by
  have hzero := c.column_mul 0
  rw [Nat.zero_mul, Nat.zero_mul] at hzero
  have h : c.Corresponds (.statements 0) (.statements (c.column 0)) := .statements
  rwa [hzero] at h

/-- Two lists of tokens with the same lines are read alike: with the same trees but for their spans, or with
the same fault but for the columns it tells. -/
theorem parse_of_lines (settings : Settings) (hstarts : Starts tokens)
    (h : c.Lines true tokens tokens') :
    (∃ trees trees',
      Program.parse c.source { settings with indentWidth := c.width } tokens = .ok trees ∧
      Program.parse c.source' { settings with indentWidth := c.width' } tokens' = .ok trees' ∧
      trees'.map Tree.bare = trees.map Tree.bare) ∨
    ∃ d d',
      Program.parse c.source { settings with indentWidth := c.width } tokens = .error (.reported d) ∧
      Program.parse c.source' { settings with indentWidth := c.width' } tokens' =
        .error (.reported d') ∧
      d'.cause = d.cause.relocate c.column := by
  rcases Program.parse_cases c.source { settings with indentWidth := c.width } tokens with
    ⟨trees, hparse⟩ | ⟨d, hparse⟩
  · obtain ⟨t, hrun⟩ := Program.parse_eq_ok_iff.1 hparse
    obtain ⟨trees', t', hrun', hbare, _⟩ :=
      follows_of_run hrun _ _ corresponds_start (ready_start hstarts h)
    exact .inl ⟨trees, trees', hparse, Program.parse_eq_ok_iff.2 ⟨t', hrun'⟩, hbare⟩
  · obtain ⟨d', hfailure, hcause⟩ :=
      repeats_of_failure (Program.parse_eq_reported_iff.1 hparse) _ _ corresponds_start
        (ready_start hstarts h)
    exact .inr ⟨d, d', hparse, Program.parse_eq_reported_iff.2 hfailure, hcause⟩

/-- Two sources with the same lines are the same program, each read with its own step of indentation: both
give the same trees but for their spans, or both the same fault but for the columns it tells. -/
theorem ofSource_of_relays (c : Relayout) (settings : Settings) {tokens tokens' : List Token}
    (htokens : Tokens.ofSource c.source = .ok tokens)
    (htokens' : Tokens.ofSource c.source' = .ok tokens') (h : c.Relays tokens tokens') :
    (∃ trees trees',
      Program.ofSource c.source { settings with indentWidth := c.width } = .ok trees ∧
      Program.ofSource c.source' { settings with indentWidth := c.width' } = .ok trees' ∧
      trees'.map Tree.bare = trees.map Tree.bare) ∨
    ∃ d d',
      Program.ofSource c.source { settings with indentWidth := c.width } = .error (.reported d) ∧
      Program.ofSource c.source' { settings with indentWidth := c.width' } = .error (.reported d') ∧
      d'.cause = d.cause.relocate c.column := by
  have hparse := parse_of_lines settings (starts_dropWhile tokens) h.lines
  rw [parse_dropWhile, parse_dropWhile] at hparse
  simp only [Program.ofSource, htokens, htokens']
  exact hparse

/-- Two texts, the second one indented twice as deep. -/
def doubled (source source' : String) : Relayout where
  source := source
  source' := source'
  column := (2 * ·)
  width := 2
  width' := 4
  strictMono _ _ h := Nat.mul_lt_mul_of_pos_left h Nat.two_pos
  column_mul k := by omega

/-- A line that is indented a little is a fault in both layouts, behind the same function. -/
theorem ofSource_of_relays_doubled : ∃ tokens tokens' d',
    Tokens.ofSource "f = x ->\n  x + y\n g" = .ok tokens ∧
    Tokens.ofSource "\n// sum\nf=x ->\n\n    x +  y // z\n  g" = .ok tokens' ∧
    (doubled "f = x ->\n  x + y\n g" "\n// sum\nf=x ->\n\n    x +  y // z\n  g").Relays tokens tokens' ∧
    Program.ofSource "\n// sum\nf=x ->\n\n    x +  y // z\n  g" { indentWidth := 4 } =
      .error (.reported d') ∧
    d'.cause = .indentation 0 2 := by
  let c := doubled "f = x ->\n  x + y\n g" "\n// sum\nf=x ->\n\n    x +  y // z\n  g"
  obtain ⟨tokens, htokens, hf⟩ : ∃ tokens, Tokens.ofSource c.source = .ok tokens ∧
      ((Tokens.ofSource c.source').toOption.map (decide <| c.Relays tokens ·),
        (Program.reported? (Program.ofSource c.source { indentWidth := c.width })).map (·.cause)) =
      (some true, some (.indentation 0 1)) :=
    Tokens.exists_of_ofSource (by decide +kernel)
  simp only [Prod.mk.injEq, Option.map_eq_some_iff (b := Cause.indentation 0 1)] at hf
  obtain ⟨hrelays, d, hd, hcause⟩ := hf
  obtain ⟨tokens', htokens', hrelays⟩ := Tokens.exists_of_ofSource hrelays
  have hrelays := of_decide_eq_true hrelays
  rcases ofSource_of_relays c {} htokens htokens' hrelays with
    ⟨trees, _, htrees, _⟩ | ⟨d₁, d', hd₁, hd', hcause'⟩
  · rw [Program.reported?_eq_some_iff.1 hd] at htrees
    cases htrees
  · rw [Program.reported?_eq_some_iff.1 hd] at hd₁
    cases hd₁
    exact ⟨tokens, tokens', d', htokens, htokens', hrelays, hd', by rw [hcause', hcause]; rfl⟩

end Relayout

end Offside
