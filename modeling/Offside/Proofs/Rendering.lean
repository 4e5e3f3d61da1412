import Offside.Proofs.Rendering.Trees

set_option autoImplicit false

/-!
# Programs by what they are rendered as

The trees of a program are made of the contents of its tokens. So two programs that are rendered alike have
the same trees up to spans, unless a number in one is too large to be finite where the other has a name.
-/
namespace Offside

namespace Program

variable {source source' : String} {settings settings' : Settings} {tokens : List Token}
  {trees trees' : List Tree}

theorem legible_of_content? (h : Tokens.ofSource source = .ok tokens) {token : Token} (ht : token ∈ tokens)
    {content : Content} (hcontent : token.content? source = some content) : content.Legible := by
  obtain ⟨before, text, behind, l, hsource, hspan, hclass, hextent, hkind⟩ :=
    (Tokens.scan_eq_ok_iff.1 h).mem ht
  have hvalid := Segment.valid_of_holds (Lexeme.mem_classes_of_next? hclass)
    (Lexeme.holds_of_next? hclass hextent)
  have htext := Token.text_of_span hsource hspan
  rw [hkind] at hvalid
  have hspelled : token.kind.IsSpelled text := hvalid
  rw [Token.content?] at hcontent
  cases hk : token.kind <;> rw [hk] at hspelled hcontent
  case identifier =>
    obtain rfl := Option.some.inj hcontent
    rw [Content.Legible, htext, String.toList_ofList]
    exact hspelled
  case number =>
    obtain rfl := Option.some.inj hcontent
    rw [Content.Legible, htext]
    obtain ⟨value, hvalue⟩ := Option.isSome_iff_exists.1 (Binary64.isSome_ofText? hspelled)
    rw [hvalue]
    rcases Binary64.cases_of_isNumber hspelled hvalue with rfl | ⟨rank, rfl⟩
    · exact .inl rfl
    · exact .inr ⟨rank, rfl⟩
  all_goals cases hcontent <;> trivial

/-- Every tree of a program is made of the contents of its tokens. -/
theorem legible_of_ofSource (h : ofSource source settings = .ok trees) : ∀ t ∈ trees, t.Legible := by
  obtain ⟨tokens, htokens, hparse⟩ := exists_tokens h
  obtain ⟨s, hrun⟩ := parse_eq_ok_iff.1 hparse
  obtain ⟨cs, ⟨ks, hks, rfl⟩, hyield⟩ := hrun.carries trivial
  have hahead : tokens = ks ++ s.ahead := hks.ahead
  intro t ht
  refine ⟨hrun.gives_finished trivial t ht, fun content hcontent => ?_⟩
  have hmem : content ∈ contents source ks := by
    have hall : content ∈ Tree.yieldAll trees := by
      rw [Tree.yieldAll_eq_flatMap]
      exact List.mem_flatMap.2 ⟨t, ht, hcontent⟩
    rwa [hyield] at hall
  obtain ⟨token, htoken, hcontent⟩ := List.mem_filterMap.1 hmem
  exact legible_of_content? htokens (hahead ▸ List.mem_append_left _ htoken) hcontent

/-- Two programs are rendered alike exactly if their trees show the same. -/
theorem render_eq_iff_shown_eq (h : ofSource source settings = .ok trees)
    (h' : ofSource source' settings' = .ok trees') :
    trees.map Tree.render = trees'.map Tree.render ↔ trees.map Tree.shown = trees'.map Tree.shown := by
  have hlegible := legible_of_ofSource h
  have hlegible' := legible_of_ofSource h'
  constructor
  · exact Tree.map_shown_eq hlegible hlegible'
  · intro hshown
    have hrender := congrArg (List.map Tree.render) hshown
    rwa [Tree.map_render_shown, Tree.map_render_shown] at hrender

/-- Two ways to write a number and a string, with and without parentheses. -/
theorem render_eq_iff_shown_eq_of_spellings : ∃ trees trees',
    ofSource "f(\"a\\t\", 1.50)" {} = .ok trees ∧ ofSource "f (\"a\\x09\", (1.5)) // again" {} = .ok trees' ∧
    trees.map Tree.render = ["(call f \"a\\t\" 1.5)"] ∧
    (trees.map Tree.render = trees'.map Tree.render ↔ trees.map Tree.shown = trees'.map Tree.shown) ∧
    trees.map Tree.shown = trees'.map Tree.shown := by
  obtain ⟨tokens, trees, htokens, hparse, hrender⟩ : ∃ tokens trees,
      Tokens.ofSource "f(\"a\\t\", 1.50)" = .ok tokens ∧ parse "f(\"a\\t\", 1.50)" {} tokens = .ok trees ∧
      trees.map Tree.render = ["(call f \"a\\t\" 1.5)"] :=
    exists_of_parse (by decide +kernel)
  obtain ⟨tokens', trees', htokens', hparse', hrender'⟩ : ∃ tokens trees,
      Tokens.ofSource "f (\"a\\x09\", (1.5)) // again" = .ok tokens ∧
      parse "f (\"a\\x09\", (1.5)) // again" {} tokens = .ok trees ∧
      trees.map Tree.render = ["(call f \"a\\t\" 1.5)"] :=
    exists_of_parse (by decide +kernel)
  rw [← ofSource_eq_parse htokens] at hparse
  rw [← ofSource_eq_parse htokens'] at hparse'
  have hiff := render_eq_iff_shown_eq hparse hparse'
  exact ⟨trees, trees', hparse, hparse', hrender, hiff, hiff.1 (hrender.trans hrender'.symm)⟩

/-- Where the numbers are finite, programs that are rendered alike have the same trees up to spans. -/
theorem bare_eq_of_render_eq (h : ofSource source settings = .ok trees)
    (h' : ofSource source' settings' = .ok trees') (hfinite : ∀ c ∈ Tree.yieldAll trees, c.IsFinite)
    (hfinite' : ∀ c ∈ Tree.yieldAll trees', c.IsFinite)
    (hrender : trees.map Tree.render = trees'.map Tree.render) :
    trees.map Tree.bare = trees'.map Tree.bare := by
  have hshown := Tree.map_shown_eq (legible_of_ofSource h) (legible_of_ofSource h') hrender
  rwa [← Tree.shownAll_eq_map, ← Tree.shownAll_eq_map, Tree.shownAll_eq_bareAll _ hfinite,
    Tree.shownAll_eq_bareAll _ hfinite', Tree.bareAll_eq_map, Tree.bareAll_eq_map] at hshown

/-- A number alone is a program. -/
theorem ofSource_number {value : Binary64} (h : Lexeme.next? source.toList = some .number)
    (hextent : Lexeme.extent .number source.toList = source.toList.length)
    (hvalue : Binary64.ofText? source = some value) (hdepth : 0 < settings.maxDepth) :
    ∃ span, ofSource source settings = .ok [.number span value] := by
  obtain ⟨htokens, htext⟩ := Tokens.ofSource_whole h hextent (rfl : _ = some Kind.number)
  have hnumber := (congrArg Binary64.ofText? htext).trans hvalue
  exact ⟨_, (ofSource_eq_parse htokens).trans (parse_singleton rfl rfl hdepth fun _ => .number hnumber)⟩

/-- A number too large to be finite is rendered as a name is. -/
theorem render_eq_of_infinite : ∃ trees trees', ofSource "inf" {} = .ok trees ∧
    ofSource (String.ofList ('1' :: List.replicate 309 '0')) {} = .ok trees' ∧
    trees.map Tree.render = trees'.map Tree.render ∧ trees.map Tree.bare ≠ trees'.map Tree.bare := by
  obtain ⟨tokens, trees, htokens, hparse, hname⟩ : ∃ tokens trees,
      Tokens.ofSource "inf" = .ok tokens ∧ parse "inf" {} tokens = .ok trees ∧
      (trees.map Tree.render, trees.map Tree.name?) = (["inf"], [some "inf"]) :=
    exists_of_parse (by decide +kernel)
  rw [Prod.mk.injEq] at hname
  have hvalue : Binary64.ofText? (String.ofList ('1' :: List.replicate 309 '0')) = some (.infinite false) := by
    rw [Binary64.ofText?, String.toList_ofList]
    decide +kernel
  obtain ⟨span, hnumber⟩ : ∃ span, ofSource (String.ofList ('1' :: List.replicate 309 '0')) {} =
      .ok [.number span (.infinite false)] := by
    refine ofSource_number ?_ ?_ hvalue (by decide) <;> rw [String.toList_ofList] <;> decide +kernel
  refine ⟨trees, _, (ofSource_eq_parse htokens).trans hparse, hnumber, hname.1, fun hbare => ?_⟩
  have hnames := congrArg (List.map Tree.name?) hbare
  rw [← Tree.bareAll_eq_map, Tree.map_name?_bareAll, hname.2] at hnames
  cases hnames

end Program

end Offside
