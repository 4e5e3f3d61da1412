import Offside.Binary64.Shortest
import Offside.Proofs.Layout.Trees

set_option autoImplicit false

/-!
# Layout

Whatever list of well-formed trees is written down in the plain way is read back as the same list. The
reading needs the indentation of the layout, the end of an expression at a line break, and the room for
the expressions that are open at once.
-/
namespace Offside.Program

open Reading

variable {l : Layout} {settings : Settings} {trees : List Tree}

/-- At the start of its text a program stands behind the line break that is left out. -/
theorem atLine_start {source : String} {tokens : List Token}
    (h : Written source (l.lines 0 trees).tail tokens)
    (hcolumn : ∀ t ∈ tokens.head?, t.column = 0) (indentWidth : Nat) :
    AtLine source (.start indentWidth tokens) (l.lines 0 trees) := by
  cases trees with
  | nil =>
    cases h
    exact .done rfl
  | cons t ts =>
    refine .line (fun t ht => ?_) h
    rw [Nat.zero_mul]
    exact hcolumn t ht

theorem bodyRoom_le {ts : List Tree} {limit : Nat} (h : ∀ t ∈ ts, l.room t ≤ limit) :
    l.bodyRoom ts ≤ limit := by
  induction ts with
  | nil => exact Nat.zero_le _
  | cons t ts ih =>
    rw [List.forall_mem_cons] at h
    exact Nat.max_le.2 ⟨h.1, ih h.2⟩

/-- What is written for a list of trees is read back as the list. -/
theorem ofSource_write (hwidth : settings.indentWidth = l.width)
    (hends : settings.lineBreaksEndExpressions) (hroom : ∀ t ∈ trees, l.room t ≤ settings.maxDepth)
    (htrees : ∀ t ∈ trees, t.WellFormed l.numeral) :
    ∃ trees', ofSource (l.write trees) settings = .ok trees' ∧
      trees'.map Tree.bare = trees.map Tree.bare := by
  have hlexical : ∀ p ∈ (l.lines 0 trees).tail, p.IsLexical := fun p hp =>
    Layout.isLexical_lines (fun t ht => Layout.isLexical_print (htrees t ht) 0) p
      (List.mem_of_mem_tail hp)
  obtain ⟨tokens, hscan, hwritten, hcolumn⟩ :=
    scan_text hlexical true [] (String.toList_ofList : (l.write trees).toList = _)
  have htokens : Tokens.ofSource (l.write trees) = .ok tokens := by
    rw [Tokens.ofSource, Layout.write, String.toList_ofList]
    exact Tokens.scan_eq_ok_iff.2 hscan
  have hstart : Inside l 0 (.start settings.indentWidth tokens) :=
    ⟨hwidth, (Nat.zero_mul _).symm, List.cons_ne_nil _ _⟩
  have hat : AtLine (l.write trees) (.start settings.indentWidth tokens) (l.lines 0 trees ++ []) := by
    rw [List.append_nil]
    exact atLine_start hwritten (hcolumn rfl) settings.indentWidth
  have hdepth : (State.start settings.indentWidth tokens).depth + l.bodyRoom trees ≤
      settings.maxDepth := by
    change 0 + _ ≤ _
    rw [Nat.zero_add]
    exact bodyRoom_le hroom
  obtain ⟨trees', t, htrees', hrun, _⟩ := statements_of_reads
    (fun t ht => (reads_of_wellFormed hends (htrees t ht)).2) hstart
    (by simp [State.inGroup, State.start]) hdepth hat .done
  rw [Nat.zero_mul] at hrun
  refine ⟨trees', ?_, htrees'⟩
  rw [ofSource_eq_parse htokens]
  exact parse_eq_ok_iff.2 ⟨t, hrun⟩

end Offside.Program

namespace Offside

/-- Two spaces a step, numbers in their shortest text, and a parenthesis behind a block where the line
starts that opened it. -/
def Layout.plain : Layout where
  width := 2
  numeral value := value.toText.toList
  enclosesLists := true
  closing k := k * 2
  closing_lt k := by omega

namespace Program

/-- A function with a block is called with a number and a string, and a statement stands behind it. -/
theorem ofSource_write_of_call :
    Layout.plain.write [.call default (.function default ["x"] [.identifier default "x"])
      [.number default (.ofBits 0x3ff8000000000000), .string default "a\"b"], .list default []] =
      "( ( x ) ->\n  x\n) ( 1.5 , \"a\\\"b\" )\n[ ]" ∧
    ∃ trees', ofSource "( ( x ) ->\n  x\n) ( 1.5 , \"a\\\"b\" )\n[ ]" {} = .ok trees' ∧
      trees'.map Tree.bare = [.call default (.function default ["x"] [.identifier default "x"])
        [.number default (.ofBits 0x3ff8000000000000), .string default "a\"b"], .list default []] := by
  have hwrite : Layout.plain.write [.call default (.function default ["x"] [.identifier default "x"])
      [.number default (.ofBits 0x3ff8000000000000), .string default "a\"b"], .list default []] =
      "( ( x ) ->\n  x\n) ( 1.5 , \"a\\\"b\" )\n[ ]" := by decide +kernel
  have hname : IsName "x" := by
    unfold IsName Lexeme.IsText
    decide
  have hnumber : Tree.Sound Layout.plain.numeral (.number default (.ofBits 0x3ff8000000000000)) := by
    unfold Tree.Sound Lexeme.IsText
    decide +kernel
  have hleaf : ∀ t : Tree, t.Sound Layout.plain.numeral → t.children = [] →
      t.WellFormed Layout.plain.numeral := by
    intro t ht hchildren
    refine .node ht fun c hc => ?_
    rw [hchildren] at hc
    cases hc
  refine ⟨hwrite, ?_⟩
  rw [← hwrite]
  refine ofSource_write rfl rfl (by decide) fun t ht => ?_
  rcases List.mem_cons.1 ht with rfl | ht
  · refine .node trivial fun c hc => ?_
    rcases List.mem_cons.1 hc with rfl | hc
    · refine .node ⟨by simpa using hname, List.cons_ne_nil _ _⟩ fun c hc => ?_
      rw [List.mem_singleton.1 hc]
      exact hleaf _ hname rfl
    · rcases List.mem_cons.1 hc with rfl | hc
      · exact hleaf _ hnumber rfl
      · rw [List.mem_singleton.1 hc]
        exact hleaf _ trivial rfl
  · rw [List.mem_singleton.1 ht]
    exact hleaf _ trivial rfl

end Program

end Offside
