import Offside.Proofs.Bare

set_option autoImplicit false

/-!
# Other positions

The same spans, tokens, diagnostics and trees with every position replaced by what a function makes of it.
-/
namespace Offside

def Span.map (f : Position → Position) (span : Span) : Span := ⟨f span.start, f span.stop⟩

def Token.map (f : Position → Position) (t : Token) : Token := ⟨t.kind, t.span.map f⟩

def Diagnostic.map (f : Position → Position) (d : Diagnostic) : Diagnostic := ⟨d.cause, f d.position⟩

theorem Span.map_through (f : Position → Position) (a b : Span) :
    (a.through b).map f = (a.map f).through (b.map f) := rfl

namespace Tree

mutual

def map (f : Position → Position) : Tree → Tree
  | .identifier span name => .identifier (span.map f) name
  | .number span value => .number (span.map f) value
  | .string span value => .string (span.map f) value
  | .boolean span value => .boolean (span.map f) value
  | .parameters span names => .parameters (span.map f) names
  | .function span params body => .function (span.map f) params (mapAll f body)
  | .call span callee arguments => .call (span.map f) (map f callee) (mapAll f arguments)
  | .list span items => .list (span.map f) (mapAll f items)
  | .index span target item => .index (span.map f) (map f target) (map f item)
  | .binary span operator left right => .binary (span.map f) operator (map f left) (map f right)
  | .unary span operator operand => .unary (span.map f) operator (map f operand)
  | .assign span target value => .assign (span.map f) (map f target) (map f value)
  | .conditional span condition body => .conditional (span.map f) (map f condition) (mapAll f body)

def mapAll (f : Position → Position) : List Tree → List Tree
  | [] => []
  | t :: ts => map f t :: mapAll f ts

end

variable (f : Position → Position)

theorem mapAll_eq_map (ts : List Tree) : mapAll f ts = ts.map (map f) := by
  induction ts with
  | nil => rfl
  | cons t ts ih => rw [mapAll, ih, List.map_cons]

@[simp] theorem span_map (t : Tree) : (t.map f).span = t.span.map f := by
  cases t <;> simp only [map, span]

@[simp] theorem map_withSpan (span : Span) (t : Tree) :
    (t.withSpan span).map f = (t.map f).withSpan (span.map f) := by
  cases t <;> simp only [withSpan, map]

mutual

/-- Without their spans the trees are the same. -/
@[simp] theorem bare_map : (t : Tree) → (t.map f).bare = t.bare
  | .identifier _ _ | .number _ _ | .string _ _ | .boolean _ _ | .parameters _ _ => rfl
  | .function _ _ body => by rw [map, bare, bare, bareAll_mapAll body]
  | .call _ callee arguments => by
    rw [map, bare, bare, bare_map callee, bareAll_mapAll arguments]
  | .list _ items => by rw [map, bare, bare, bareAll_mapAll items]
  | .index _ target item => by rw [map, bare, bare, bare_map target, bare_map item]
  | .binary _ _ left right => by rw [map, bare, bare, bare_map left, bare_map right]
  | .unary _ _ operand => by rw [map, bare, bare, bare_map operand]
  | .assign _ target value => by rw [map, bare, bare, bare_map target, bare_map value]
  | .conditional _ condition body => by
    rw [map, bare, bare, bare_map condition, bareAll_mapAll body]

theorem bareAll_mapAll : (ts : List Tree) → bareAll (mapAll f ts) = bareAll ts
  | [] => rfl
  | t :: ts => by rw [mapAll, bareAll, bareAll, bare_map t, bareAll_mapAll ts]

end

mutual

theorem map_id : (t : Tree) → t.map id = t
  | .identifier _ _ | .number _ _ | .string _ _ | .boolean _ _ | .parameters _ _ => rfl
  | .function _ _ body => by rw [map, mapAll_id body]; rfl
  | .call _ callee arguments => by rw [map, map_id callee, mapAll_id arguments]; rfl
  | .list _ items => by rw [map, mapAll_id items]; rfl
  | .index _ target item => by rw [map, map_id target, map_id item]; rfl
  | .binary _ _ left right => by rw [map, map_id left, map_id right]; rfl
  | .unary _ _ operand => by rw [map, map_id operand]; rfl
  | .assign _ target value => by rw [map, map_id target, map_id value]; rfl
  | .conditional _ condition body => by rw [map, map_id condition, mapAll_id body]; rfl

theorem mapAll_id : (ts : List Tree) → mapAll id ts = ts
  | [] => rfl
  | t :: ts => by rw [mapAll, map_id t, mapAll_id ts]

end

end Tree

end Offside
