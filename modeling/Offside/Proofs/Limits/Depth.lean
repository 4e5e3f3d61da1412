import Offside.Proofs.Run.Exact

set_option autoImplicit false

/-!
# How deep the trees of a program are

Each open expression counts against the limit on nesting. The left side of an operator belongs to the
expression that the operator continues, but what stands to its right, between its brackets or in its body is
read by expressions of its own. So the limit bounds how deep a tree can be, however long it is.
-/
namespace Offside

open Reading

namespace Tree

mutual

/-- How many expressions have to be open inside one another to read the tree. -/
def depth : Tree → Nat
  | .identifier _ _ => 1
  | .number _ _ => 1
  | .string _ _ => 1
  | .boolean _ _ => 1
  | .parameters _ _ => 1
  | .function _ _ body => 1 + depthAll body
  | .call _ callee arguments =>
    if arguments.isEmpty then depth callee else max (depth callee) (1 + depthAll arguments)
  | .list _ items => 1 + depthAll items
  | .index _ target item => max (depth target) (1 + depth item)
  | .binary _ _ left right => max (depth left) (1 + depth right)
  | .unary _ _ operand => 1 + depth operand
  | .assign _ target value => max (depth target) (1 + depth value)
  | .conditional _ condition body => max (depth condition) (1 + depthAll body)

/-- The depth of the deepest of the trees, or zero without any. -/
def depthAll : List Tree → Nat
  | [] => 0
  | t :: ts => max (depth t) (depthAll ts)

end

theorem depth_withSpan (span : Span) (t : Tree) : (t.withSpan span).depth = t.depth := by
  cases t <;> simp [withSpan, depth]

theorem depthAll_le_iff {ts : List Tree} {limit : Nat} :
    depthAll ts ≤ limit ↔ ∀ t ∈ ts, t.depth ≤ limit := by
  induction ts with
  | nil => simp [depthAll]
  | cons t ts ih => rw [depthAll, Nat.max_le, ih, List.forall_mem_cons]

end Tree

namespace Run

variable {setup : Setup PrefixRule InfixRule} {task : Task} {s t : State} {out : List Tree} {room : Nat}

/-- The tree that an open expression has read so far fits into it and the `room` more that can be opened. -/
def GivenWithin (room : Nat) : Task → Prop
  | .extension _ left | .continuation _ left _ => left.depth ≤ room + 1
  | _ => True

/-- What is read fits into the `room` expressions that can be opened, and into the one that is open if the
task is a part of it. -/
def GivesWithin (room : Nat) (out : List Tree) : Task → Prop
  | .expression _ | .items _ | .statements _ | .body => ∀ n ∈ out, n.depth ≤ room
  | .climb _ | .extension _ _ | .start _ _ | .continuation _ _ _ => ∀ n ∈ out, n.depth ≤ room + 1

theorem depth_le_of_expression {least : Int} {n : Tree} (h : GivesWithin room [n] (.expression least)) :
    n.depth ≤ room :=
  h n (List.mem_singleton_self n)

/-- Passing tokens opens nothing. -/
theorem room_eq {limit : Nat} {ks : List Token} (hpasses : s.Passes ks t) (hroom : s.depth + room = limit) :
    t.depth + room = limit := by
  rw [hpasses.depth, hroom]

theorem room_eq_of_takes {limit : Nat} {token : Token} (htoken : s.skipGroupedLineBreaks.Takes token t)
    (hroom : s.depth + room = limit) : t.depth + room = limit :=
  room_eq ((State.passes_skipGroupedLineBreaks s).trans htoken.passes) hroom

theorem room_eq_of_openGroup {limit : Nat} (hroom : s.depth + room = limit) :
    s.openGroup.depth + room = limit := by
  rw [s.depth_openGroup, hroom]

theorem gives_within (h : Run setup task s out t) (hroom : s.depth + room = setup.settings.maxDepth)
    (hs : GivenWithin room task) : GivesWithin room out task := by
  induction h generalizing room with
  | @nested _ s _ _ hdepth _ ih =>
    -- the expression takes one of those that can be opened
    obtain ⟨room, rfl⟩ : ∃ k, room = k + 1 := ⟨room - 1, by omega⟩
    exact ih (show s.depth + 1 + room = _ by omega) trivial
  | first htoken _ hstart _ ih ih' | next _ htoken _ hstart _ ih ih' =>
    have hroom := room_eq_of_takes htoken hroom
    obtain ⟨ks, hpasses⟩ := hstart.passes
    have hleft := List.forall_mem_singleton.1 (ih hroom hs)
    exact ih' (room_eq hpasses hroom) hleft
  | stop => exact List.forall_mem_singleton.2 hs
  | identifier | number | string | boolean | parameters =>
    exact List.forall_mem_singleton.2 (Nat.le_add_left 1 room)
  | unary _ _ ih =>
    have hoperand := depth_le_of_expression (ih hroom trivial)
    exact List.forall_mem_singleton.2 (by rw [Tree.depth]; omega)
  | grouping _ _ _ ih =>
    have hitem := List.forall_mem_singleton.1 (ih (room_eq_of_openGroup hroom) trivial)
    exact List.forall_mem_singleton.2 (by rw [Tree.depth_withSpan]; omega)
  | list _ _ ih =>
    have hitems := Tree.depthAll_le_iff.2 (ih (room_eq_of_openGroup hroom) trivial)
    exact List.forall_mem_singleton.2 (by rw [Tree.depth]; omega)
  | binary _ _ ih | assignment _ _ ih =>
    have hright := depth_le_of_expression (ih hroom trivial)
    exact List.forall_mem_singleton.2 (Nat.max_le.2 ⟨hs, by omega⟩)
  | conditional _ ih =>
    have hbody := Tree.depthAll_le_iff.2 (ih hroom trivial)
    exact List.forall_mem_singleton.2 (Nat.max_le.2 ⟨hs, by omega⟩)
  | function _ _ ih =>
    have hbody := Tree.depthAll_le_iff.2 (ih hroom trivial)
    exact List.forall_mem_singleton.2 (by rw [Tree.depth]; omega)
  | call _ _ ih =>
    have harguments := Tree.depthAll_le_iff.2 (ih (room_eq_of_openGroup hroom) trivial)
    refine List.forall_mem_singleton.2 ?_
    rw [Tree.depth]
    split
    · exact hs
    · exact Nat.max_le.2 ⟨hs, by omega⟩
  | index _ _ ih =>
    have hitem := depth_le_of_expression (ih (room_eq_of_openGroup hroom) trivial)
    exact List.forall_mem_singleton.2 (Nat.max_le.2 ⟨hs, by omega⟩)
  | noItems | noTokens | outdent => exact List.forall_mem_nil _
  | lastItem _ _ _ ih => exact ih (room_eq (State.passes_skipLineBreaks _) hroom) trivial
  | item _ hitem hcomma _ _ ih ih' =>
    have hroom := room_eq (State.passes_skipLineBreaks _) hroom
    obtain ⟨ks, hpasses⟩ := hitem.passes
    have hrest := room_eq ((hpasses.trans (State.passes_skipLineBreaks _)).trans hcomma.passes) hroom
    exact List.forall_mem_cons.2 ⟨depth_le_of_expression (ih hroom trivial), ih' hrest trivial⟩
  | statement _ _ htree hline _ ih ih' =>
    have hroom := room_eq (State.passes_skipLineBreaks _) hroom
    obtain ⟨ks, hpasses⟩ := htree.passes
    obtain ⟨ls, _, hpasses'⟩ := hline.passes
    have hrest := room_eq (hpasses.trans hpasses') hroom
    exact List.forall_mem_cons.2 ⟨depth_le_of_expression (ih hroom trivial), ih' hrest trivial⟩
  | inlineBody _ _ ih => exact ih hroom trivial
  | @indentedBody s _ _ _ _ _ _ _ _ _ ih =>
    have hlines := room_eq (State.passes_skipLineBreaks s) hroom
    exact ih hlines trivial

end Run

namespace Program

variable {source : String} {settings : Settings} {tokens : List Token} {trees : List Tree}

/-- The limit on nesting bounds the depth of every tree that is built, whatever the tokens are. -/
theorem parse_depth_le (h : parse source settings tokens = .ok trees) :
    ∀ n ∈ trees, n.depth ≤ settings.maxDepth := by
  obtain ⟨t, hrun⟩ := parse_eq_ok_iff.1 h
  exact hrun.gives_within (Nat.zero_add _) trivial

/-- A sign in an argument in a body behind an assignment is as deep as the limit allows. -/
theorem parse_depth_le_of_block : ∃ tokens trees,
    Tokens.ofSource "h = (a) ->\n  f(-a)[[b]]\n  a\nc + c + c" = .ok tokens ∧
    parse "h = (a) ->\n  f(-a)[[b]]\n  a\nc + c + c" { maxDepth := 5 } tokens = .ok trees ∧
    trees.map Tree.depth = [5, 2] ∧ ∀ n ∈ trees, n.depth ≤ 5 := by
  obtain ⟨tokens, trees, htokens, hparse, hdepths⟩ : ∃ tokens trees,
      Tokens.ofSource "h = (a) ->\n  f(-a)[[b]]\n  a\nc + c + c" = .ok tokens ∧
      parse "h = (a) ->\n  f(-a)[[b]]\n  a\nc + c + c" { maxDepth := 5 } tokens = .ok trees ∧
      trees.map Tree.depth = [5, 2] := exists_of_parse (by decide +kernel)
  exact ⟨tokens, trees, htokens, hparse, hdepths, parse_depth_le hparse⟩

end Program

end Offside
