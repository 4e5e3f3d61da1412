import Offside.Proofs.OneLine.Soundness
import Offside.Proofs.OneLine.Unambiguous

set_option autoImplicit false

/-!
# A program on one line

A source without line breaks is read exactly if its tokens derive from the grammar, and the tree that is
read is the one of their only derivation.
-/
namespace Offside.OneLine

/-- A derivation of the tokens as an expression whose assignments have proper targets. -/
structure Derivation (source : String) (tokens : List Token) where
  phrase : Phrase .expression
  proper : phrase.Proper source
  derives : phrase.tokens = tokens

/-- The tree of a derivation. -/
def Derivation.tree {source : String} {tokens : List Token} (d : Derivation source tokens) : Tree :=
  d.phrase.meaning source

end Offside.OneLine

namespace Offside.Program

open Reading OneLine

variable {source : String} {settings : Settings} {tokens : List Token}

theorem fine_of_tokens (hline : '\n' ∉ source.toList) (htokens : Tokens.ofSource source = .ok tokens) :
    Fine source tokens := by
  have hscan := Tokens.scan_eq_ok_iff.1 htokens
  exact fun t ht => ⟨fun hk => hline (hscan.mem_of_newline ht hk), hscan.readable ht⟩

/-- On one line the parser accepts exactly the grammar, with the tree of the only derivation. -/
theorem ofSource_one_line (hline : '\n' ∉ source.toList)
    (htokens : Tokens.ofSource source = .ok tokens) (hcolumn : ∀ t ∈ tokens.head?, t.column = 0)
    (hdepth : tokens.length < settings.maxDepth) :
    (tokens = [] → ofSource source settings = .ok []) ∧
    (tokens ≠ [] → (∀ trees, ofSource source settings = .ok trees → ∃ n, trees = [n]) ∧
      (∀ e, (∃ n, ofSource source settings = .ok [n] ∧ n.bare = e) ↔
        ∃ d : Derivation source tokens, d.tree = e) ∧
      ∀ d d' : Derivation source tokens, d = d') := by
  have hfine := fine_of_tokens hline htokens
  have hbreaks : ∀ t ∈ tokens, t.kind ≠ .newline := fun t ht => (hfine t ht).1
  rw [ofSource_eq_parse htokens]
  constructor
  · rintro rfl
    exact parse_eq_ok_iff.2 ⟨_, .noTokens rfl⟩
  · intro hne
    refine ⟨fun trees h => ?_, fun e => ⟨?_, ?_⟩, fun d d' => ?_⟩
    · obtain ⟨t, hrun⟩ := parse_eq_ok_iff.1 h
      have hsound := derives_of_run hbreaks hrun
      rw [if_neg hne] at hsound
      obtain ⟨n, hn, _⟩ := hsound
      exact ⟨n, hn⟩
    · rintro ⟨n, h, rfl⟩
      obtain ⟨t, hrun⟩ := parse_eq_ok_iff.1 h
      have hsound := derives_of_run hbreaks hrun
      rw [if_neg hne] at hsound
      obtain ⟨n', hn, p, hp, hks, hm⟩ := hsound
      cases hn
      exact ⟨⟨p, hp, hks⟩, hm⟩
    · rintro ⟨⟨p, hp, rfl⟩, rfl⟩
      obtain ⟨n, t, hn, hrun⟩ := run_of_phrase p hp hfine hcolumn hdepth settings.indentWidth
      exact ⟨n, parse_eq_ok_iff.2 ⟨t, hrun⟩, hn⟩
    · obtain ⟨p, hp, rfl⟩ := d
      obtain ⟨q, hq, he⟩ := d'
      obtain rfl := p.unique q hp hq hfine he.symm
      rfl

/-- A function that is assigned to a name, with an operation of several tiers for its body. -/
theorem ofSource_one_line_of_function : ∃ tokens,
    '\n' ∉ "g = (a, (b),) -> -a[0] * 2 + f(b,)(a) == 1".toList ∧
    Tokens.ofSource "g = (a, (b),) -> -a[0] * 2 + f(b,)(a) == 1" = .ok tokens ∧
    (∀ t ∈ tokens.head?, t.column = 0) ∧ tokens.length < 256 ∧ tokens ≠ [] ∧
    ∃ n, ∃ d : Derivation "g = (a, (b),) -> -a[0] * 2 + f(b,)(a) == 1" tokens,
      ofSource "g = (a, (b),) -> -a[0] * 2 + f(b,)(a) == 1" {} = .ok [n] ∧ d.tree = n.bare := by
  obtain ⟨tokens, trees, htokens, hparse, hf⟩ :
      ∃ tokens trees, Tokens.ofSource "g = (a, (b),) -> -a[0] * 2 + f(b,)(a) == 1" = .ok tokens ∧
        parse "g = (a, (b),) -> -a[0] * 2 + f(b,)(a) == 1" {} tokens = .ok trees ∧
        (tokens.head?.all (·.column = 0), decide (tokens.length < 256), tokens.isEmpty) =
          (true, true, false) :=
    exists_of_parse (by decide +kernel)
  simp only [Prod.mk.injEq, decide_eq_true_eq, List.isEmpty_eq_false_iff] at hf
  obtain ⟨hcolumn, hdepth, hne⟩ := hf
  have hline : '\n' ∉ "g = (a, (b),) -> -a[0] * 2 + f(b,)(a) == 1".toList := by decide +kernel
  have hcolumn' : ∀ t ∈ tokens.head?, t.column = 0 := by
    intro t hmem
    rw [Option.mem_def] at hmem
    simpa [hmem] using hcolumn
  rw [← ofSource_eq_parse htokens] at hparse
  have hmain := (@ofSource_one_line _ {} _ hline htokens hcolumn' hdepth).2 hne
  obtain ⟨n, rfl⟩ := hmain.1 trees hparse
  obtain ⟨d, hd⟩ := (hmain.2.1 n.bare).1 ⟨n, hparse, rfl⟩
  exact ⟨tokens, hline, htokens, hcolumn', hdepth, hne, n, d, hparse, hd⟩

end Offside.Program
