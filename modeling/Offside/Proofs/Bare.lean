import Offside.Proofs.Run

set_option autoImplicit false

/-!
# Trees without their spans

Two trees that were read at different places are the same tree if they agree once every span is dropped.
-/
namespace Offside.Tree

mutual

/-- The tree with every span replaced by the one at the origin. -/
def bare : Tree → Tree
  | .identifier _ name => .identifier default name
  | .number _ value => .number default value
  | .string _ value => .string default value
  | .boolean _ value => .boolean default value
  | .parameters _ names => .parameters default names
  | .function _ params body => .function default params (bareAll body)
  | .call _ callee arguments => .call default (bare callee) (bareAll arguments)
  | .list _ items => .list default (bareAll items)
  | .index _ target item => .index default (bare target) (bare item)
  | .binary _ operator left right => .binary default operator (bare left) (bare right)
  | .unary _ operator operand => .unary default operator (bare operand)
  | .assign _ target value => .assign default (bare target) (bare value)
  | .conditional _ condition body => .conditional default (bare condition) (bareAll body)

def bareAll : List Tree → List Tree
  | [] => []
  | t :: ts => bare t :: bareAll ts

end

theorem bareAll_eq_map (ts : List Tree) : bareAll ts = ts.map bare := by
  induction ts with
  | nil => rfl
  | cons t ts ih => rw [bareAll, ih, List.map_cons]

@[simp] theorem bare_withSpan (span : Span) (t : Tree) : (t.withSpan span).bare = t.bare := by
  cases t <;> simp only [withSpan, bare]

@[simp] theorem name?_bare (t : Tree) : t.bare.name? = t.name? := by
  cases t <;> simp only [bare, name?]

@[simp] theorem isAssignable_bare (t : Tree) : t.bare.isAssignable = t.isAssignable := by
  cases t <;> simp only [bare, isAssignable]

@[simp] theorem parameters?_bare (t : Tree) :
    Reader.parameters? t.bare = Reader.parameters? t := by
  cases t <;> simp only [bare, Reader.parameters?]

mutual

/-- What a tree is written as does not depend on its spans. -/
theorem render_bare : (t : Tree) → t.bare.render = t.render
  | .identifier _ _ | .number _ _ | .string _ _ | .boolean _ _ | .parameters _ _ => rfl
  | .function _ _ body => by rw [bare, render, render, renderAll_bareAll body]
  | .call _ callee arguments => by
    rw [bare, render, render, render_bare callee, renderAll_bareAll arguments]
  | .list _ items => by rw [bare, render, render, renderAll_bareAll items]
  | .index _ target item => by rw [bare, render, render, render_bare target, render_bare item]
  | .binary _ _ left right => by rw [bare, render, render, render_bare left, render_bare right]
  | .unary _ _ operand => by rw [bare, render, render, render_bare operand]
  | .assign _ target value => by rw [bare, render, render, render_bare target, render_bare value]
  | .conditional _ condition body => by
    rw [bare, render, render, render_bare condition, renderAll_bareAll body]

theorem renderAll_bareAll : (ts : List Tree) → renderAll (bareAll ts) = renderAll ts
  | [] => rfl
  | t :: ts => by rw [bareAll, renderAll, renderAll, render_bare t, renderAll_bareAll ts]

end

theorem parameters?_withSpan (span : Span) (t : Tree) :
    Reader.parameters? (t.withSpan span) = Reader.parameters? t := by
  cases t <;> simp only [withSpan, Reader.parameters?]

theorem parameters?_of_name? {t : Tree} {name : String} (h : t.name? = some name) :
    Reader.parameters? t = some [name] := by
  cases t <;> simp_all [name?, Reader.parameters?]

theorem map_name?_bareAll (ts : List Tree) : (bareAll ts).map name? = ts.map name? := by
  rw [bareAll_eq_map, List.map_map]
  exact List.map_congr_left fun t _ => name?_bare t

/-! ### What depends on a tree but not on its spans -/

variable {n n' : Tree} {ns ns' : List Tree}

theorem isAssignable_congr (h : n'.bare = n.bare) : n'.isAssignable = n.isAssignable := by
  rw [← isAssignable_bare, h, isAssignable_bare]

theorem parameters?_congr (h : n'.bare = n.bare) : Reader.parameters? n' = Reader.parameters? n := by
  rw [← parameters?_bare, h, parameters?_bare]

theorem render_congr (h : n'.bare = n.bare) : n'.render = n.render := by
  rw [← render_bare, h, render_bare]

theorem name?_congr (h : n'.bare = n.bare) : n'.name? = n.name? := by
  rw [← name?_bare, h, name?_bare]

theorem map_name?_congr (h : ns'.map bare = ns.map bare) : ns'.map name? = ns.map name? := by
  rw [← map_name?_bareAll, bareAll_eq_map, h, ← bareAll_eq_map, map_name?_bareAll]

theorem not_singleton_congr (h : ns'.map bare = ns.map bare) (hsingle : ∀ n, ns ≠ [n]) :
    ∀ n', ns' ≠ [n'] := by
  rintro n' rfl
  obtain ⟨n, rfl, _⟩ := List.map_eq_singleton_iff.1 h.symm
  exact hsingle n rfl

/-- The first tree that is no name is the same one. -/
theorem exists_unnamed (h : ns'.map bare = ns.map bare) (hn : ns.find? (·.name? = none) = some n) :
    ∃ n', ns'.find? (·.name? = none) = some n' ∧ n'.bare = n.bare := by
  have hfind : ∀ ms : List Tree,
      (ms.map bare).find? (·.name? = none) = (ms.find? (·.name? = none)).map bare := by
    intro ms
    rw [List.find?_map]
    simp only [Function.comp_def, name?_bare]
  have hsame := hfind ns'
  rw [h, hfind, hn] at hsame
  exact Option.map_eq_some_iff.1 hsame.symm

end Offside.Tree
