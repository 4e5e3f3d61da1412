import Mathlib.Data.List.Nodup
import Mathlib.Data.Option.Basic
import Offside.Proofs.Excerpt.Scanning
import Offside.Proofs.OneLine
import Offside.Proofs.OneLine.Moving
import Offside.Proofs.OneLine.Replacing

set_option autoImplicit false

/-!
# Redundant parentheses

On one line any node can be put into parentheses where it stands. The source is cut into the same tokens
and the two new ones, and what the node was read from now is an atom, which can take its place in the
derivation of the line. So the same program is read.
-/
namespace Offside

/-- The source with parentheses where the span starts and where it ends. -/
def Span.parenthesised? (source : String) (span : Span) : Option String := do
  let closed ← Text.insert? ')' span.stop.offset source.toList
  let text ← Text.insert? '(' span.start.offset closed
  return String.ofList text

namespace Tokens

variable {source : String} {js is ls : List Token} {span : Span}

/-- Parentheses around some tokens of a line are two tokens more. -/
theorem ofSource_enclosed (hline : '\n' ∉ source.toList)
    (htokens : ofSource source = .ok (js ++ (is ++ ls))) (hspan : Delimits is span) :
    ∃ text start stop is' ls', span.parenthesised? source = some text ∧ '\n' ∉ text.toList ∧
      ofSource text = .ok (js ++ (start :: (is' ++ [stop]) ++ ls')) ∧
      (js ++ (start :: (is' ++ [stop]) ++ ls')).head?.map Token.column =
        (js ++ (is ++ ls)).head?.map Token.column ∧
      start.kind = .openParen ∧ stop.kind = .closeParen ∧
      js.map (Token.word text) = js.map (Token.word source) ∧
      is'.map (Token.word text) = is.map (Token.word source) ∧
      ls'.map (Token.word text) = ls.map (Token.word source) := by
  have hscan : Scan .origin source.toList (js ++ (is ++ ls)) := scan_eq_ok_iff.1 htokens
  obtain ⟨first, last, as, bs, hfirst, hlast, rfl⟩ := hspan.exists_ends fun k hk hkind =>
    hline (hscan.mem_of_newline (by simp [hk]) hkind)
  -- the closing parenthesis comes first, since it moves nothing that stands before it
  rw [hlast, List.append_assoc, List.singleton_append, ← List.append_assoc] at hscan
  obtain ⟨closed, stop, us, hclosed, hinserted, hstop⟩ :=
    hscan.insert_behind hline Lexeme.separates_paren.2
  rw [List.append_assoc, ← hlast] at hinserted
  have hscan' := hinserted.scan
  rw [hfirst, List.append_assoc, List.cons_append] at hscan'
  obtain ⟨text, start, ws, htext, hinserted', hstart, hplace⟩ :=
    hscan'.insert_before hinserted.newline Lexeme.separates_paren.1
  have hinner := hinserted'.rest
  rw [← List.cons_append, ← hfirst, List.map_append, List.map_cons] at hinner
  obtain ⟨is', _, rfl, his, hclosing⟩ := List.map_eq_append_iff.1 hinner
  obtain ⟨stop', ls', rfl, hstop', hls⟩ := List.map_eq_cons_iff.1 hclosing
  refine ⟨text, start, stop', is', ls', ?_, hinserted'.newline, ?_, ?_, hstart,
    (congrArg Prod.fst hstop').trans hstop, ?_, ?_, hls.trans hinserted.rest⟩
  · simp only [Span.parenthesised?, hclosed, htext, Option.bind_eq_bind, Option.bind_some, Option.pure_def,
      String.ofList_toList]
  · exact scan_eq_ok_iff.2 (by simpa using hinserted'.scan)
  · cases js with
    | nil => simp [hfirst, Token.column, hplace]
    | cons j js => rfl
  · exact List.map_congr_left fun t ht =>
      (hinserted'.front t ht).trans (hinserted.front t (List.mem_append_left is ht))
  · exact his.trans (List.map_congr_left fun t ht => hinserted.front t (List.mem_append_right js ht))

end Tokens

/-- A token without a text, which no source has. -/
def Token.fence (kind : Kind) : Token := ⟨kind, ⟨.origin, .origin⟩⟩

/-- The tokens between parentheses that stand nowhere. -/
def Tokens.fenced (is : List Token) : List Token :=
  Token.fence .openParen :: (is ++ [Token.fence .closeParen])

/-- They differ from all tokens of a source, so each of these can be given a place of its own. -/
theorem Tokens.InOrder.nodup_fenced {js is ls : List Token} (h : InOrder (js ++ (is ++ ls))) :
    (js ++ (fenced is ++ ls)).Nodup := by
  have hfence (kind : Kind) : Token.fence kind ∉ js ++ (is ++ ls) := fun hmem =>
    Nat.lt_irrefl _ (h.start_lt _ hmem)
  have hclose : ((js ++ is) ++ Token.fence .closeParen :: ls).Nodup := by
    rw [List.nodup_middle, List.append_assoc]
    exact List.nodup_cons.2 ⟨hfence _, h.nodup⟩
  have hopen : Token.fence .openParen ∉ (js ++ is) ++ Token.fence .closeParen :: ls := by
    simpa [Token.fence] using hfence .openParen
  have hboth : (js ++ Token.fence .openParen :: (is ++ Token.fence .closeParen :: ls)).Nodup := by
    rw [List.nodup_middle, ← List.append_assoc]
    exact List.nodup_cons.2 ⟨hopen, hclose⟩
  simpa [fenced] using hboth

namespace OneLine

variable {source source' : String} {is : List Token} {e : Tree}

theorem Derives.fenced (h : Derives source .expression is e) : Derives source .atom (Tokens.fenced is) e :=
  h.lastArgument.group rfl rfl

/-- Parentheses of a source tell what those do that stand nowhere. -/
theorem map_told_fenced {is' : List Token} {start stop : Token} (hopen : start.kind = .openParen)
    (hclose : stop.kind = .closeParen) (his : is'.map (Token.word source') = is.map (Token.word source)) :
    ((start :: (is' ++ [stop])).map (Token.word source')).map told =
      ((Tokens.fenced is).map (Token.word source)).map told := by
  simp only [Tokens.fenced, List.map_cons, List.map_append, his]
  simp [told, Token.word, Token.fence, hopen, hclose, Kind.isBracket]

end OneLine

namespace Program

open Reading OneLine

variable {source : String} {settings : Settings} {tokens : List Token} {trees : List Tree}

theorem column_of_statements {indentWidth : Nat} {t : State} (hline : ∀ t ∈ tokens, t.kind ≠ .newline)
    (h : Run (setup source settings) (.statements 0) (.start indentWidth tokens) trees t) :
    ∀ t ∈ tokens.head?, t.column = 0 := by
  have hs : OnLine (.start indentWidth tokens) := ⟨hline, rfl⟩
  intro token htoken
  generalize he : State.start indentWidth tokens = s at h hs
  have hcurrent : s.skipLineBreaks.current? = some token := by
    rw [hs.skipLineBreaks, ← he]
    exact htoken
  cases h with
  | noTokens hdone => cases hdone.symm.trans hcurrent
  | outdent _ hcolumn => exact absurd hcolumn (Nat.not_lt_zero _)
  | statement hfirst hcolumn =>
    obtain rfl := Option.some.inj (hfirst.symm.trans hcurrent)
    exact hcolumn

theorem eq_singleton_of_mem {indentWidth : Nat} {t : State} {n : Tree}
    (hline : ∀ t ∈ tokens, t.kind ≠ .newline)
    (h : Run (setup source settings) (.statements 0) (.start indentWidth tokens) trees t) (hn : n ∈ trees) :
    trees = [n] := by
  have hderives := derives_of_run hline h
  split at hderives
  next => exact absurd (hderives ▸ hn) List.not_mem_nil
  next =>
    obtain ⟨m, rfl, _⟩ := hderives
    rw [List.mem_singleton.1 hn]

/-- What derives is read. -/
theorem exists_ofSource_of_derives {e : Tree} (hline : '\n' ∉ source.toList)
    (htokens : Tokens.ofSource source = .ok tokens) (hcolumn : ∀ t ∈ tokens.head?, t.column = 0)
    (hdepth : tokens.length < settings.maxDepth) (h : Derives source .expression tokens e) :
    ∃ n, ofSource source settings = .ok [n] ∧ n.bare = e := by
  obtain ⟨p, hp, rfl, rfl⟩ := h
  obtain ⟨n, t, hn, hrun⟩ :=
    run_of_phrase p hp (fine_of_tokens hline htokens) hcolumn hdepth settings.indentWidth
  rw [ofSource_eq_parse htokens]
  exact ⟨n, parse_eq_ok_iff.2 ⟨t, hrun⟩, hn⟩

/-- On one line any node can be put into parentheses where it stands, and the program is read as before. -/
theorem ofSource_parenthesised (hline : '\n' ∉ source.toList) (h : ofSource source settings = .ok trees) :
    ∀ q ∈ Tree.preorderAll 0 trees, ∃ text tokens, q.2.span.parenthesised? source = some text ∧
      Tokens.ofSource text = .ok tokens ∧
      ∀ maxDepth, tokens.length < maxDepth →
        ∃ trees', ofSource text { settings with maxDepth := maxDepth } = .ok trees' ∧
          trees'.map Tree.bare = trees.map Tree.bare := by
  obtain ⟨tokens, htokens, hparse⟩ := exists_tokens h
  obtain ⟨t, hrun⟩ := parse_eq_ok_iff.1 hparse
  have hbreaks : ∀ k ∈ tokens, k.kind ≠ .newline := fun k hk => (fine_of_tokens hline htokens k hk).1
  have hcolumn := column_of_statements hbreaks hrun
  intro q hq
  obtain ⟨n, hn, hq⟩ := Tree.mem_preorderAll.1 hq
  have htrees := eq_singleton_of_mem hbreaks hrun hn
  obtain ⟨js, is, ls, rfl, hspan, hd, hreplaced⟩ :=
    (replaceable_of_run hbreaks hrun n hn).preorder 0 q hq
  obtain ⟨text, start, stop, is', ls', htext, hline', htokens', hhead, hopen, hclose, hjs, his, hls⟩ :=
    Tokens.ofSource_enclosed hline htokens hspan
  refine ⟨text, _, htext, htokens', fun maxDepth hdepth => ?_⟩
  -- what is in parentheses is an atom, with which the line derives also from the new tokens
  have htold : ((js ++ (start :: (is' ++ [stop]) ++ ls')).map (Token.word text)).map told =
      ((js ++ (Tokens.fenced is ++ ls)).map (Token.word source)).map told := by
    simp only [List.map_append, hjs, hls, map_told_fenced hopen hclose his]
  have hderives := (hreplaced _ hd.fenced).retold (Tokens.inOrder_of_ofSource htokens).nodup_fenced htold
  have hcolumns := (@Option.forall_mem_map _ _ Token.column _ (· = 0)).2 hcolumn
  rw [← hhead] at hcolumns
  obtain ⟨n', hparse', hn'⟩ := @exists_ofSource_of_derives text { settings with maxDepth := maxDepth } _ _
    hline' htokens' (Option.forall_mem_map.1 hcolumns) hdepth hderives
  exact ⟨[n'], hparse', by rw [htrees, List.map_singleton, List.map_singleton, hn']⟩

/-- The target of an assignment, the callee in it, a node in parentheses, a function and its conditional
body can be put into parentheses, and so can all others. -/
theorem ofSource_parenthesised_of_assignment : ∃ trees,
    '\n' ∉ "f((x))[0] = (y) -> z ? -1".toList ∧
    ofSource "f((x))[0] = (y) -> z ? -1" {} = .ok trees ∧
    (Tree.preorderAll 0 trees).filterMap (·.2.span.parenthesised? "f((x))[0] = (y) -> z ? -1") =
      ["(f((x))[0] = (y) -> z ? -1)", "(f((x))[0]) = (y) -> z ? -1", "(f((x)))[0] = (y) -> z ? -1",
        "(f)((x))[0] = (y) -> z ? -1", "f(((x)))[0] = (y) -> z ? -1", "f((x))[(0)] = (y) -> z ? -1",
        "f((x))[0] = ((y) -> z ? -1)", "f((x))[0] = (y) -> (z ? -1)", "f((x))[0] = (y) -> (z) ? -1",
        "f((x))[0] = (y) -> z ? (-1)", "f((x))[0] = (y) -> z ? -(1)"] ∧
    ∀ q ∈ Tree.preorderAll 0 trees, ∃ text tokens,
      q.2.span.parenthesised? "f((x))[0] = (y) -> z ? -1" = some text ∧
      Tokens.ofSource text = .ok tokens ∧
      ∀ maxDepth, tokens.length < maxDepth →
        ∃ trees', ofSource text { ({} : Settings) with maxDepth := maxDepth } = .ok trees' ∧
          trees'.map Tree.bare = trees.map Tree.bare := by
  obtain ⟨tokens, trees, htokens, hparse, htexts⟩ : ∃ tokens trees,
      Tokens.ofSource "f((x))[0] = (y) -> z ? -1" = .ok tokens ∧
      parse "f((x))[0] = (y) -> z ? -1" {} tokens = .ok trees ∧
      (Tree.preorderAll 0 trees).filterMap (·.2.span.parenthesised? "f((x))[0] = (y) -> z ? -1") =
        ["(f((x))[0] = (y) -> z ? -1)", "(f((x))[0]) = (y) -> z ? -1", "(f((x)))[0] = (y) -> z ? -1",
          "(f)((x))[0] = (y) -> z ? -1", "f(((x)))[0] = (y) -> z ? -1", "f((x))[(0)] = (y) -> z ? -1",
          "f((x))[0] = ((y) -> z ? -1)", "f((x))[0] = (y) -> (z ? -1)", "f((x))[0] = (y) -> (z) ? -1",
          "f((x))[0] = (y) -> z ? (-1)", "f((x))[0] = (y) -> z ? -(1)"] :=
    exists_of_parse (by decide +kernel)
  rw [← ofSource_eq_parse htokens] at hparse
  have hline : '\n' ∉ "f((x))[0] = (y) -> z ? -1".toList := by decide +kernel
  exact ⟨trees, hline, hparse, htexts, ofSource_parenthesised hline hparse⟩

end Program

end Offside
