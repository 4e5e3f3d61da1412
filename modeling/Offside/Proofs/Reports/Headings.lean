import Offside.Proofs.Diagnostics
import Offside.Proofs.Rendering
import Offside.Proofs.Reports.Lines

set_option autoImplicit false

/-!
# What is written on one line

A token other than a line break has no line break in its text, a string is written with its line breaks
escaped, and so is what a tree is rendered as. So the heading of a report is one line.
-/
namespace Offside

/-! ### Texts of tokens -/

namespace Lexeme

theorem opening_ne_newline : ∀ l ∈ classes, l ≠ .newline → l.opening ≠ '\n' := by decide

theorem newline_not_mem {l : Lexeme} {text : List Char} (hl : l ∈ classes) (hne : l ≠ .newline)
    (h : l.Holds text) : '\n' ∉ text := by
  intro hmem
  cases text with
  | nil => exact List.not_mem_nil hmem
  | cons c cs =>
    rcases List.mem_cons.1 hmem with rfl | hmem
    · exact opening_ne_newline l hl hne (front_of_holds hl h).symm
    · have hcontinues := continues_of_holds h '\n' hmem
      rw [continues_newline l hl] at hcontinues
      cases hcontinues

end Lexeme

namespace Text

theorem newline_not_mem_quoteChar (c : Char) : '\n' ∉ quoteChar c := by
  have hdigits : '\n' ∉ hexDigits c.toNat := fun h => by
    have hvalue := isSome_hexValue?_of_mem h
    revert hvalue
    decide
  unfold quoteChar
  split_ifs with _ _ _ hline
  iterate 6 decide
  · simp [hdigits]
  · rw [List.mem_singleton]
    exact Ne.symm hline

theorem oneLine_quote (text : String) : OneLine (quote text) := by
  have hinner : '\n' ∉ text.toList.flatMap quoteChar := fun h => by
    obtain ⟨c, _, hc⟩ := List.mem_flatMap.1 h
    exact newline_not_mem_quoteChar c hc
  rw [quote, oneLine_ofList]
  simp [hinner]

end Text

theorem Kind.oneLine_name (k : Kind) : Text.OneLine k.name :=
  (by decide : ∀ k ∈ all, Text.OneLine k.name) k k.mem_all

theorem Operator.oneLine_symbol (operator : Operator) : Text.OneLine operator.symbol := by
  cases operator <;> decide

/-! ### Rendered trees -/

namespace Content.Legible

theorem oneLine_name {name : String} (h : (Content.name name).Legible) : Text.OneLine name :=
  Lexeme.newline_not_mem (l := .word) (by decide) (by decide) h.1

theorem oneLine_number {value : Binary64} (h : (Content.number (some value)).Legible) :
    Text.OneLine value.toText := by
  rcases h with h | ⟨rank, h⟩
  · obtain rfl := Option.some.inj h
    decide
  · obtain rfl := Option.some.inj h
    exact Lexeme.newline_not_mem (l := .number) (by decide) (by decide) (Binary64.isNumber_toText rank)

end Content.Legible

namespace Tree

theorem oneLine_spaced {names : List String} (h : ∀ name ∈ names, Text.OneLine name) :
    Text.OneLine (spaced names) := by
  fun_induction spaced names with
  | case1 => decide
  | case2 name => exact h name List.mem_cons_self
  | case3 name names _ ih =>
    rw [List.forall_mem_cons] at h
    simp only [Text.oneLine_append]
    exact ⟨⟨h.1, by decide⟩, ih h.2⟩

mutual

/-- A tree of contents of tokens is rendered on one line. -/
theorem oneLine_render : (t : Tree) → (∀ c ∈ t.yield, c.Legible) → Text.OneLine t.render
  | .identifier _ name, h => (h (.name name) (List.mem_singleton_self _)).oneLine_name
  | .number _ value, h => (h (.number (some value)) (List.mem_singleton_self _)).oneLine_number
  | .string _ value, _ => Text.oneLine_quote value
  | .boolean _ true, _ => (by decide : Text.OneLine "true")
  | .boolean _ false, _ => (by decide : Text.OneLine "false")
  | .parameters _ names, h => by
    have hnames : Text.OneLine (spaced names) := oneLine_spaced fun name hname =>
      (h (.name name) (by simp [yield, hname])).oneLine_name
    simp only [render, Text.oneLine_append, hnames]
    decide
  | .function _ params body, h => by
    have hparams : Text.OneLine (spaced params) := oneLine_spaced fun name hname =>
      (h (.name name) (by simp [yield, hname])).oneLine_name
    have hbody := oneLine_renderAll body fun c hc => h c (by simp [yield, hc])
    simp only [render, Text.oneLine_append, hparams, hbody]
    decide
  | .call _ callee arguments, h => by
    have hcallee := oneLine_render callee fun c hc => h c (by simp [yield, hc])
    have harguments := oneLine_renderAll arguments fun c hc => h c (by simp [yield, hc])
    simp only [render, Text.oneLine_append, hcallee, harguments]
    decide
  | .list _ items, h => by
    have hitems := oneLine_renderAll items h
    simp only [render, Text.oneLine_append, hitems]
    decide
  | .index _ target item, h => by
    have htarget := oneLine_render target fun c hc => h c (by simp [yield, hc])
    have hitem := oneLine_render item fun c hc => h c (by simp [yield, hc])
    simp only [render, Text.oneLine_append, htarget, hitem]
    decide
  | .binary _ operator left right, h => by
    have hleft := oneLine_render left fun c hc => h c (by simp [yield, hc])
    have hright := oneLine_render right fun c hc => h c (by simp [yield, hc])
    simp only [render, Text.oneLine_append, operator.oneLine_symbol, hleft, hright]
    decide
  | .unary _ operator operand, h => by
    have hoperand := oneLine_render operand fun c hc => h c (by simp [yield, hc])
    simp only [render, Text.oneLine_append, operator.oneLine_symbol, hoperand]
    decide
  | .assign _ target value, h => by
    have htarget := oneLine_render target fun c hc => h c (by simp [yield, hc])
    have hvalue := oneLine_render value fun c hc => h c (by simp [yield, hc])
    simp only [render, Text.oneLine_append, htarget, hvalue]
    decide
  | .conditional _ condition body, h => by
    have hcondition := oneLine_render condition fun c hc => h c (by simp [yield, hc])
    have hbody := oneLine_renderAll body fun c hc => h c (by simp [yield, hc])
    simp only [render, Text.oneLine_append, hcondition, hbody]
    decide

theorem oneLine_renderAll : (ts : List Tree) → (∀ c ∈ yieldAll ts, c.Legible) → Text.OneLine (renderAll ts)
  | [], _ => by decide
  | t :: ts, h => by
    have ht := oneLine_render t fun c hc => h c (by simp [yieldAll, hc])
    have hts := oneLine_renderAll ts fun c hc => h c (by simp [yieldAll, hc])
    simp only [renderAll, Text.oneLine_append, ht, hts]
    decide

end

end Tree

/-! ### Headings -/

namespace Diagnostic

variable {source : String} {settings : Settings} {tokens : List Token} {d : Diagnostic}

end Diagnostic

end Offside
