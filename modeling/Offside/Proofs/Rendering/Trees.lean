import Offside.Proofs.Bare
import Offside.Proofs.Content
import Offside.Proofs.Finished
import Offside.Proofs.Lexing
import Offside.Proofs.Rendering.Numbers
import Offside.Proofs.Rendering.Quoting
import Offside.Tree.Render

set_option autoImplicit false

/-!
# What a rendered tree shows

The first character of a rendered tree tells a word, a number, a string and a parenthesised list apart, and
a list shows its label and its parts one by one. So the text of a tree determines the tree up to its spans,
but for one word: a number too large to be finite looks like a name.
-/
namespace Offside

namespace Tree

mutual

/-- The tree without its spans, with a number too large to be finite as the name that it looks like. -/
def shown : Tree → Tree
  | .identifier _ name => .identifier default name
  | .number _ value =>
    if value = .infinite false then .identifier default "inf" else .number default value
  | .string _ value => .string default value
  | .boolean _ value => .boolean default value
  | .parameters _ names => .parameters default names
  | .function _ params body => .function default params (shownAll body)
  | .call _ callee arguments => .call default (shown callee) (shownAll arguments)
  | .list _ items => .list default (shownAll items)
  | .index _ target item => .index default (shown target) (shown item)
  | .binary _ operator left right => .binary default operator (shown left) (shown right)
  | .unary _ operator operand => .unary default operator (shown operand)
  | .assign _ target value => .assign default (shown target) (shown value)
  | .conditional _ condition body => .conditional default (shown condition) (shownAll body)

def shownAll : List Tree → List Tree
  | [] => []
  | t :: ts => shown t :: shownAll ts

end

theorem shownAll_eq_map (ts : List Tree) : shownAll ts = ts.map shown := by
  induction ts with
  | nil => rfl
  | cons t ts ih => rw [shownAll, ih, List.map_cons]

mutual

/-- What a tree shows is written as the tree is. -/
theorem render_shown : (t : Tree) → t.shown.render = t.render
  | .identifier _ _ | .string _ _ | .boolean _ _ | .parameters _ _ => rfl
  | .number _ value => by
    rw [shown]
    split
    next h =>
      rw [h]
      rfl
    next => rfl
  | .function _ _ body => by rw [shown, render, render, renderAll_shownAll body]
  | .call _ callee arguments => by
    rw [shown, render, render, render_shown callee, renderAll_shownAll arguments]
  | .list _ items => by rw [shown, render, render, renderAll_shownAll items]
  | .index _ target item => by rw [shown, render, render, render_shown target, render_shown item]
  | .binary _ _ left right => by rw [shown, render, render, render_shown left, render_shown right]
  | .unary _ _ operand => by rw [shown, render, render, render_shown operand]
  | .assign _ target value => by
    rw [shown, render, render, render_shown target, render_shown value]
  | .conditional _ condition body => by
    rw [shown, render, render, render_shown condition, renderAll_shownAll body]

theorem renderAll_shownAll : (ts : List Tree) → renderAll (shownAll ts) = renderAll ts
  | [] => rfl
  | t :: ts => by rw [shownAll, renderAll, renderAll, render_shown t, renderAll_shownAll ts]

end

end Tree

/-- The content is no number that is too large to be finite. -/
def Content.IsFinite (c : Content) : Prop := c ≠ .number (some (.infinite false))

namespace Tree

mutual

/-- Where the numbers are finite a tree shows all but its spans. -/
theorem shown_eq_bare : (t : Tree) → (∀ c ∈ t.yield, c.IsFinite) → t.shown = t.bare
  | .identifier _ _, _ | .string _ _, _ | .boolean _ _, _ | .parameters _ _, _ => rfl
  | .number _ value, h => by
    have hne : value ≠ .infinite false := fun heq =>
      h (.number (some value)) (List.mem_singleton_self _) (by rw [heq])
    rw [shown, if_neg hne, bare]
  | .function _ _ body, h => by
    rw [shown, bare, shownAll_eq_bareAll body fun c hc => h c (by simp [yield, hc])]
  | .call _ callee arguments, h => by
    rw [shown, bare, shown_eq_bare callee fun c hc => h c (by simp [yield, hc]),
      shownAll_eq_bareAll arguments fun c hc => h c (by simp [yield, hc])]
  | .list _ items, h => by
    rw [shown, bare, shownAll_eq_bareAll items fun c hc => h c (by simp [yield, hc])]
  | .index _ target item, h => by
    rw [shown, bare, shown_eq_bare target fun c hc => h c (by simp [yield, hc]),
      shown_eq_bare item fun c hc => h c (by simp [yield, hc])]
  | .binary _ _ left right, h => by
    rw [shown, bare, shown_eq_bare left fun c hc => h c (by simp [yield, hc]),
      shown_eq_bare right fun c hc => h c (by simp [yield, hc])]
  | .unary _ _ operand, h => by
    rw [shown, bare, shown_eq_bare operand fun c hc => h c (by simp [yield, hc])]
  | .assign _ target value, h => by
    rw [shown, bare, shown_eq_bare target fun c hc => h c (by simp [yield, hc]),
      shown_eq_bare value fun c hc => h c (by simp [yield, hc])]
  | .conditional _ condition body, h => by
    rw [shown, bare, shown_eq_bare condition fun c hc => h c (by simp [yield, hc]),
      shownAll_eq_bareAll body fun c hc => h c (by simp [yield, hc])]

theorem shownAll_eq_bareAll : (ts : List Tree) → (∀ c ∈ yieldAll ts, c.IsFinite) → shownAll ts = bareAll ts
  | [], _ => rfl
  | t :: ts, h => by
    rw [shownAll, bareAll, shown_eq_bare t fun c hc => h c (by simp [yieldAll, hc]),
      shownAll_eq_bareAll ts fun c hc => h c (by simp [yieldAll, hc])]

end

end Tree

/-! ### Trees that are made of tokens -/

/-- What a token can contribute: a name is no reserved word, and a number has no sign. -/
def Content.Legible : Content → Prop
  | .name word => Kind.identifier.IsSpelled word.toList
  | .number value => value = some (.infinite false) ∨ ∃ rank, value = some (.finite false rank)
  | _ => True

/-- A finished tree whose contents are those of tokens. -/
structure Tree.Legible (t : Tree) : Prop where
  finished : t.AllFinished
  contents : ∀ c ∈ t.yield, c.Legible

namespace Tree

variable {m n t : Tree} {ms ns : List Tree} {a b x y : List Char}

theorem mem_yield_of_mem_children {child : Tree} {content : Content} (hchild : child ∈ t.children)
    (hcontent : content ∈ child.yield) : content ∈ t.yield := by
  cases t <;> simp only [children, yield, yieldAll_eq_flatMap, List.mem_append, List.mem_cons,
    List.mem_flatMap, List.not_mem_nil, or_false] at hchild ⊢ <;> grind

theorem Legible.child {child : Tree} (h : t.Legible) (hchild : child ∈ t.children) : child.Legible where
  finished := h.finished.children child hchild
  contents _ hcontent := h.contents _ (mem_yield_of_mem_children hchild hcontent)

/-! ### Words -/

/-- A character that ends a word. -/
def isEnd (c : Char) : Bool := c = ' ' || c = ')'

/-- Nothing is ahead, or the end of a word. -/
def Ended (rest : List Char) : Prop := ∀ c ∈ rest.head?, isEnd c

theorem ended_cons {c : Char} (h : isEnd c) : Ended (c :: x) := by
  rintro _ ⟨⟩
  exact h

theorem takeWhile_append_ended (ha : ∀ c ∈ a, isEnd c = false) (hx : Ended x) :
    (a ++ x).takeWhile (fun c => !isEnd c) = a := by
  rw [List.takeWhile_append_of_pos (by simpa using ha)]
  cases x with
  | nil => exact List.append_nil a
  | cons c x => rw [List.takeWhile_cons_of_neg (by simpa using hx c rfl), List.append_nil]

theorem word_append_inj (ha : ∀ c ∈ a, isEnd c = false) (hb : ∀ c ∈ b, isEnd c = false) (hx : Ended x)
    (hy : Ended y) (h : a ++ x = b ++ y) : a = b ∧ x = y := by
  have hword : a = b := by
    rw [← takeWhile_append_ended ha hx, h, takeWhile_append_ended hb hy]
  exact ⟨hword, List.append_cancel_left (hword ▸ h)⟩

theorem isEnd_of_isLetter {c : Char} (h : Lexeme.isLetter c) : isEnd c = false := by
  have hspace : c ≠ ' ' := ne_of_apply_ne Lexeme.isLetter (by rw [h]; decide)
  have hparen : c ≠ ')' := ne_of_apply_ne Lexeme.isLetter (by rw [h]; decide)
  simp [isEnd, hspace, hparen]

theorem isEnd_of_isDigit {c : Char} (h : Lexeme.isDigit c) : isEnd c = false := by
  have hspace : c ≠ ' ' := ne_of_apply_ne Lexeme.isDigit (by rw [h]; decide)
  have hparen : c ≠ ')' := ne_of_apply_ne Lexeme.isDigit (by rw [h]; decide)
  simp [isEnd, hspace, hparen]

theorem isEnd_of_isWord (h : Lexeme.IsWord a) : ∀ c ∈ a, isEnd c = false := by
  obtain ⟨c, cs, rfl, hc, hcs⟩ := h
  intro d hd
  rcases List.mem_cons.1 hd with rfl | hd
  · exact isEnd_of_isLetter hc
  · exact (hcs d hd).elim isEnd_of_isLetter isEnd_of_isDigit

theorem isEnd_of_isNumber (h : Lexeme.IsNumber a) : ∀ c ∈ a, isEnd c = false := by
  rcases h with ⟨_, hdigits⟩ | ⟨whole, fraction, rfl, ⟨_, hwhole⟩, _, hfraction⟩
  · exact fun c hc => isEnd_of_isDigit (hdigits c hc)
  · intro c hc
    rcases List.mem_append.1 hc with hc | hc
    · exact isEnd_of_isDigit (hwhole c hc)
    · rcases List.mem_cons.1 hc with rfl | hc
      · decide
      · exact isEnd_of_isDigit (hfraction c hc)

/-- Where every part can be told from what stands behind it, so can the parts of a list: each part has a
space before it, and a parenthesis stands behind the last one. -/
theorem parts_append_inj {α β : Type} {text : α → List Char} {value : α → β} {as bs : List α}
    (hpart : ∀ a ∈ as, ∀ b ∈ bs, ∀ x y, Ended x → Ended y → text a ++ x = text b ++ y →
      value a = value b ∧ x = y)
    (h : as.flatMap (fun a => ' ' :: text a) ++ ')' :: x =
      bs.flatMap (fun b => ' ' :: text b) ++ ')' :: y) :
    as.map value = bs.map value ∧ x = y := by
  have hended : ∀ (cs : List α) (z : List Char), Ended (cs.flatMap (fun c => ' ' :: text c) ++ ')' :: z) := by
    intro cs z
    cases cs with
    | nil => exact ended_cons rfl
    | cons c cs => exact ended_cons rfl
  induction as generalizing bs with
  | nil =>
    cases bs with
    | nil => exact ⟨rfl, (List.cons.inj h).2⟩
    | cons b bs => exact absurd (List.cons.inj h).1 (by decide)
  | cons a as ih =>
    cases bs with
    | nil => exact absurd (List.cons.inj h).1 (by decide)
    | cons b bs =>
      simp only [List.flatMap_cons, List.cons_append, List.append_assoc, List.cons.injEq, true_and] at h
      obtain ⟨hvalue, hrest⟩ :=
        hpart a List.mem_cons_self b List.mem_cons_self _ _ (hended as x) (hended bs y) h
      obtain ⟨hvalues, hbehind⟩ := ih
        (fun a ha b hb => hpart a (List.mem_cons_of_mem _ ha) b (List.mem_cons_of_mem _ hb)) hrest
      exact ⟨by rw [List.map_cons, List.map_cons, hvalue, hvalues], hbehind⟩

theorem space_spaced (name : String) (names : List String) :
    ' ' :: (spaced (name :: names)).toList = (name :: names).flatMap fun name => ' ' :: name.toList := by
  induction names generalizing name with
  | nil => simp [spaced]
  | cons next names ih => simp [spaced, ← ih next]

/-- The names of a parameter list, up to the parenthesis behind it. -/
theorem spaced_append_inj {names names' : List String}
    (hnames : ∀ name ∈ names, Lexeme.IsWord name.toList)
    (hnames' : ∀ name ∈ names', Lexeme.IsWord name.toList)
    (h : (spaced names).toList ++ ')' :: x = (spaced names').toList ++ ')' :: y) :
    names = names' ∧ x = y := by
  have hwords : ∀ name ∈ names, ∀ name' ∈ names', ∀ x y, Ended x → Ended y →
      name.toList ++ x = name'.toList ++ y → id name = id name' ∧ x = y := by
    intro name hname name' hname' x y hx hy heq
    exact (word_append_inj (isEnd_of_isWord (hnames name hname)) (isEnd_of_isWord (hnames' name' hname'))
      hx hy heq).imp String.toList_inj.1 id
  -- a list that is not empty starts with a letter
  have hfirst : ∀ name names, Lexeme.IsWord (String.toList name) → ∀ z z',
      ')' :: z ≠ (spaced (name :: names)).toList ++ z' := by
    rintro name names ⟨c, cs, hname, hc, _⟩ z z' heq
    have hspace := space_spaced name names
    rw [List.flatMap_cons, hname, List.cons_append, List.cons_append, List.cons.injEq] at hspace
    rw [hspace.2, List.cons_append, List.cons.injEq] at heq
    exact absurd (isEnd_of_isLetter hc) (by rw [← heq.1]; decide)
  cases names with
  | nil =>
    cases names' with
    | nil => exact ⟨rfl, (List.cons.inj h).2⟩
    | cons name' names' => exact absurd h (hfirst _ _ (hnames' _ List.mem_cons_self) _ _)
  | cons name names =>
    cases names' with
    | nil => exact absurd h.symm (hfirst _ _ (hnames _ List.mem_cons_self) _ _)
    | cons name' names' =>
      have hspaced := congrArg (' ' :: ·) h
      simp only [← List.cons_append, space_spaced] at hspaced
      obtain ⟨heq, hbehind⟩ := parts_append_inj hwords hspaced
      exact ⟨by rwa [List.map_id, List.map_id] at heq, hbehind⟩

/-! ### The forms of a rendered tree -/

/-- How a rendered tree starts. -/
inductive Form
  | word
  | number
  | string
  | node
  deriving DecidableEq

/-- The form that starts with the character. -/
def Form.ofFront (c : Char) : Form :=
  if c = '(' then .node
  else if c = '"' then .string
  else if Lexeme.isDigit c then .number
  else .word

theorem Form.ofFront_digit {c : Char} (h : Lexeme.isDigit c) : ofFront c = .number := by
  have hparen : c ≠ '(' := ne_of_apply_ne Lexeme.isDigit (by rw [h]; decide)
  have hquote : c ≠ '"' := ne_of_apply_ne Lexeme.isDigit (by rw [h]; decide)
  rw [ofFront, if_neg hparen, if_neg hquote, if_pos h]

theorem Form.ofFront_letter {c : Char} (h : Lexeme.isLetter c) : ofFront c = .word := by
  have hparen : c ≠ '(' := ne_of_apply_ne Lexeme.isLetter (by rw [h]; decide)
  have hquote : c ≠ '"' := ne_of_apply_ne Lexeme.isLetter (by rw [h]; decide)
  have hdigit : ¬Lexeme.isDigit c := fun hdigit => by simp [Lexeme.isLetter_of_isDigit hdigit] at h
  rw [ofFront, if_neg hparen, if_neg hquote, if_neg hdigit]

def form : Tree → Form
  | .identifier _ _ | .boolean _ _ => .word
  | .number _ value => if value = .infinite false then .word else .number
  | .string _ _ => .string
  | _ => .node

/-- What a word shows. -/
def ofWord (word : String) : Tree :=
  if word = "true" then .boolean default true
  else if word = "false" then .boolean default false
  else .identifier default word

theorem shown_of_word (h : t.Legible) (hform : t.form = .word) :
    Lexeme.IsWord t.render.toList ∧ t.shown = ofWord t.render := by
  cases t with
  | identifier span name =>
    have hname : Kind.identifier.IsSpelled name.toList := h.contents (.name name) (List.mem_singleton_self _)
    obtain ⟨hword, htrue, hfalse⟩ := hname
    rw [ne_eq, String.toList_inj] at htrue hfalse
    exact ⟨hword, by rw [render, shown, ofWord, if_neg htrue, if_neg hfalse]⟩
  | number span value =>
    have hvalue : value = .infinite false := by
      by_contra hne
      rw [form, if_neg hne] at hform
      cases hform
    have hrender : (Tree.number span value).render = "inf" := by
      rw [hvalue]
      rfl
    rw [hrender, shown, if_pos hvalue]
    exact ⟨⟨'i', ['n', 'f'], by simp, rfl, by simp [Lexeme.isLetter]⟩, rfl⟩
  | boolean span value =>
    have htrue : Lexeme.IsWord "true".toList := ⟨'t', ['r', 'u', 'e'], by simp, rfl, by simp [Lexeme.isLetter]⟩
    have hfalse : Lexeme.IsWord "false".toList := ⟨'f', ['a', 'l', 's', 'e'], by simp, rfl, by simp [Lexeme.isLetter]⟩
    cases value
    · exact ⟨hfalse, rfl⟩
    · exact ⟨htrue, rfl⟩
  | _ => cases hform

theorem shown_of_number (h : t.Legible) (hform : t.form = .number) : ∃ rank : Fin Binary64.finiteCount,
    t.render = Binary64.toText (.finite false rank) ∧ t.shown = .number default (.finite false rank) := by
  cases t with
  | number span value =>
    have hne : value ≠ .infinite false := by
      intro heq
      rw [form, if_pos heq] at hform
      cases hform
    have hvalue : Content.Legible (.number (some value)) := h.contents _ (List.mem_singleton_self _)
    rcases hvalue with hvalue | ⟨rank, hvalue⟩
    · exact absurd (Option.some.inj hvalue) hne
    · refine ⟨rank, ?_, ?_⟩
      · rw [render, Option.some.inj hvalue]
      · rw [shown, if_neg hne, Option.some.inj hvalue]
  | _ => cases hform

theorem shown_of_string (hform : t.form = .string) : ∃ value,
    t.render = Text.quote value ∧ t.shown = .string default value := by
  cases t with
  | string span value => exact ⟨value, rfl, rfl⟩
  | number span value =>
    rw [form] at hform
    split at hform <;> cases hform
  | _ => cases hform

/-! ### Parenthesised lists -/

/-- The word behind the opening parenthesis. -/
def label : Tree → String
  | .function _ _ _ => "fn"
  | .call _ _ _ => "call"
  | .list _ _ => "list"
  | .index _ _ _ => "index"
  | .binary _ operator _ _ => operator.symbol
  | .unary _ operator _ => operator.symbol
  | .assign _ _ _ => "="
  | .conditional _ _ _ => "?"
  | _ => ""

def names : Tree → List String
  | .function _ params _ => params
  | _ => []

/-- The parameter list behind the label of a function. -/
def parameterText : Tree → List Char
  | .function _ params _ => ' ' :: '(' :: ((spaced params).toList ++ [')'])
  | _ => []

/-- The node with the given label, parameters and children. -/
def ofLabel (label : String) (names : List String) (children : List Tree) : Tree :=
  match label, children with
  | "fn", body => .function default names body
  | "call", callee :: arguments => .call default callee arguments
  | "list", items => .list default items
  | "index", [target, item] => .index default target item
  | "=", [target, value] => .assign default target value
  | "?", condition :: body => .conditional default condition body
  | symbol, [left, right] =>
    .binary default ((Operator.binaries.find? (·.symbol = symbol)).getD .add) left right
  | symbol, [operand] =>
    .unary default ((Operator.unaries.find? (·.symbol = symbol)).getD .not) operand
  | _, children => .list default children

theorem ofLabel_binary {operator : Operator} (h : operator ∈ Operator.binaries) (left right : Tree) :
    ofLabel operator.symbol [] [left, right] = .binary default operator left right := by
  cases operator with
  | negate | not => exact absurd h (by decide)
  | _ => rfl

theorem ofLabel_unary {operator : Operator} (h : operator ∈ Operator.unaries) (operand : Tree) :
    ofLabel operator.symbol [] [operand] = .unary default operator operand := by
  cases operator with
  | negate | not => rfl
  | _ => exact absurd h (by decide)

theorem shown_of_node (h : t.Legible) (hform : t.form = .node) :
    t.shown = ofLabel t.label t.names (t.children.map shown) := by
  have hnode := h.finished.finished
  rw [← shownAll_eq_map]
  cases t with
  | binary span operator left right => exact (ofLabel_binary hnode left.shown right.shown).symm
  | unary span operator operand => exact (ofLabel_unary hnode operand.shown).symm
  | number span value =>
    rw [form] at hform
    split at hform <;> cases hform
  | parameters span names => cases hnode
  | identifier | string | boolean => cases hform
  | _ => rfl

theorem isEnd_of_symbol (operator : Operator) : ∀ c ∈ operator.symbol.toList, isEnd c = false := by
  cases operator <;> simp [Operator.symbol, isEnd]

theorem symbol_ne_fn (operator : Operator) : operator.symbol ≠ "fn" := by
  cases operator <;> decide

theorem isEnd_of_label (t : Tree) : ∀ c ∈ t.label.toList, isEnd c = false := by
  cases t with
  | binary _ operator _ _ | unary _ operator _ => exact isEnd_of_symbol operator
  | _ => simp [label, isEnd]

theorem toList_renderAll (ts : List Tree) :
    (renderAll ts).toList = ts.flatMap fun t => ' ' :: t.render.toList := by
  induction ts with
  | nil => rfl
  | cons t ts ih => simp [renderAll, ih]

theorem render_of_node (h : t.Legible) (hform : t.form = .node) : t.render.toList =
    '(' :: (t.label.toList ++ (t.parameterText ++ ((renderAll t.children).toList ++ [')']))) := by
  have hnode := h.finished.finished
  cases t with
  | number span value =>
    rw [form] at hform
    split at hform <;> cases hform
  | parameters span names => cases hnode
  | identifier | string | boolean => cases hform
  | _ => simp [render, label, parameterText, children, renderAll]

/-- Only a function has parameters behind its label, and the label of no other node is that of a function. -/
theorem function_of_label (h : t.label = "fn") : ∃ span params body, t = .function span params body := by
  cases t with
  | function span params body => exact ⟨span, params, body, rfl⟩
  | binary _ operator _ _ | unary _ operator _ => exact absurd h (symbol_ne_fn operator)
  | _ => simp [label] at h

theorem no_parameters_of_label (h : t.label ≠ "fn") : t.names = [] ∧ t.parameterText = [] := by
  cases t with
  | function => exact absurd rfl h
  | _ => exact ⟨rfl, rfl⟩

theorem Legible.isWord_of_mem_names (h : t.Legible) {name : String} (hname : name ∈ t.names) :
    Lexeme.IsWord name.toList := by
  cases t with
  | function span params body =>
    have hcontent : Content.Legible (.name name) := by
      refine h.contents _ ?_
      rw [yield]
      exact List.mem_append_left _ (List.mem_map_of_mem hname)
    exact hcontent.1
  | _ => cases hname

theorem parameterText_append_inj (hm : m.Legible) (hn : n.Legible) (hlabel : m.label = n.label)
    (h : m.parameterText ++ x = n.parameterText ++ y) : m.names = n.names ∧ x = y := by
  by_cases hfn : m.label = "fn"
  · obtain ⟨_, params, _, rfl⟩ := function_of_label hfn
    obtain ⟨_, params', _, rfl⟩ := function_of_label (hlabel.symm.trans hfn)
    simp only [parameterText, List.cons_append, List.append_assoc, List.nil_append, List.cons.injEq,
      true_and] at h
    exact spaced_append_inj (fun _ => hm.isWord_of_mem_names) (fun _ => hn.isWord_of_mem_names) h
  · obtain ⟨hnames, htext⟩ := no_parameters_of_label hfn
    obtain ⟨hnames', htext'⟩ := no_parameters_of_label (hlabel ▸ hfn)
    rw [htext, htext'] at h
    exact ⟨hnames.trans hnames'.symm, h⟩

theorem ended_parameterText (t : Tree) (hx : Ended x) : Ended (t.parameterText ++ x) := by
  cases t with
  | function => exact ended_cons rfl
  | _ => exact hx

theorem ended_renderAll (ts : List Tree) (x : List Char) : Ended ((renderAll ts).toList ++ ')' :: x) := by
  rw [toList_renderAll]
  cases ts with
  | nil => exact ended_cons rfl
  | cons t ts => exact ended_cons rfl

/-! ### The tree that a text shows -/

/-- The text of the tree shows the tree and where it ends. -/
def Reads (m : Tree) : Prop := ∀ n : Tree, n.Legible → ∀ x y, Ended x → Ended y →
  m.render.toList ++ x = n.render.toList ++ y → m.shown = n.shown ∧ x = y

theorem front_of_render (h : t.Legible) :
    ∃ c cs, t.render.toList = c :: cs ∧ Form.ofFront c = t.form := by
  cases hform : t.form with
  | word =>
    obtain ⟨⟨c, cs, htext, hc, _⟩, _⟩ := shown_of_word h hform
    exact ⟨c, cs, htext, Form.ofFront_letter hc⟩
  | number =>
    obtain ⟨rank, htext, _⟩ := shown_of_number h hform
    obtain ⟨whole, fraction, hpositional⟩ := Binary64.exists_positional (Binary64.isNumber_toText rank)
    obtain ⟨c, cs, hfront, hc⟩ := hpositional.exists_front
    exact ⟨c, cs, htext ▸ hfront, Form.ofFront_digit hc⟩
  | string =>
    obtain ⟨value, htext, _⟩ := shown_of_string hform
    exact ⟨'"', _, (congrArg String.toList htext).trans String.toList_ofList, rfl⟩
  | node => exact ⟨_, _, render_of_node h hform, rfl⟩

theorem Legible.reads (hm : m.Legible) : m.Reads := by
  -- the induction is on the finished tree; what stands behind a part is the rest of the list around it
  obtain ⟨hfinished, hcontents⟩ := hm
  induction hfinished with
  | @node m hnode hchildren ih =>
    have hm : m.Legible := ⟨.node hnode hchildren, hcontents⟩
    intro n hn x y hx hy h
    obtain ⟨c, cs, htext, hfront⟩ := front_of_render hm
    obtain ⟨d, ds, htext', hfront'⟩ := front_of_render hn
    -- the first characters are equal, so only two trees of one form have to be compared
    have hform : m.form = n.form := by
      rw [← hfront, ← hfront']
      rw [htext, htext'] at h
      exact congrArg Form.ofFront (List.cons.inj h).1
    cases hmform : m.form with
    | word =>
      obtain ⟨hword, hshown⟩ := shown_of_word hm hmform
      obtain ⟨hword', hshown'⟩ := shown_of_word hn (hform ▸ hmform)
      obtain ⟨heq, hbehind⟩ := word_append_inj (isEnd_of_isWord hword) (isEnd_of_isWord hword') hx hy h
      exact ⟨by rw [hshown, hshown', String.toList_inj.1 heq], hbehind⟩
    | number =>
      obtain ⟨rank, hrender, hshown⟩ := shown_of_number hm hmform
      obtain ⟨rank', hrender', hshown'⟩ := shown_of_number hn (hform ▸ hmform)
      rw [hrender, hrender'] at h
      obtain ⟨heq, hbehind⟩ := word_append_inj (isEnd_of_isNumber (Binary64.isNumber_toText rank))
        (isEnd_of_isNumber (Binary64.isNumber_toText rank')) hx hy h
      exact ⟨by rw [hshown, hshown', Binary64.rank_eq_of_toText (String.toList_inj.1 heq)], hbehind⟩
    | string =>
      obtain ⟨value, hrender, hshown⟩ := shown_of_string hmform
      obtain ⟨value', hrender', hshown'⟩ := shown_of_string (hform ▸ hmform)
      rw [hrender, hrender'] at h
      obtain ⟨heq, hbehind⟩ := Text.quote_append_inj h
      exact ⟨by rw [hshown, hshown', heq], hbehind⟩
    | node =>
      have hnform : n.form = .node := hform ▸ hmform
      rw [render_of_node hm hmform, render_of_node hn hnform] at h
      simp only [List.cons_append, List.append_assoc, List.nil_append, List.cons.injEq, true_and] at h
      obtain ⟨hlabel, h⟩ := word_append_inj (isEnd_of_label m) (isEnd_of_label n)
        (ended_parameterText m (ended_renderAll _ x)) (ended_parameterText n (ended_renderAll _ y)) h
      obtain ⟨hnames, h⟩ := parameterText_append_inj hm hn (String.toList_inj.1 hlabel) h
      rw [toList_renderAll, toList_renderAll] at h
      obtain ⟨hshown, hbehind⟩ := parts_append_inj
        (fun c hc d hd => ih c hc (hm.child hc).contents d (hn.child hd)) h
      exact ⟨by rw [shown_of_node hm hmform, shown_of_node hn hnform, String.toList_inj.1 hlabel, hnames,
        hshown], hbehind⟩

theorem map_shown_eq (hm : ∀ m ∈ ms, m.Legible) (hn : ∀ n ∈ ns, n.Legible)
    (h : ms.map render = ns.map render) : ms.map shown = ns.map shown := by
  induction ms generalizing ns with
  | nil =>
    rw [List.map_eq_nil_iff.1 h.symm]
  | cons m ms ih =>
    cases ns with
    | nil => cases h
    | cons n ns =>
      rw [List.forall_mem_cons] at hm hn
      obtain ⟨hrender, hrest⟩ := List.cons.inj h
      have hshown := (hm.1.reads n hn.1 [] [] nofun nofun (by rw [hrender])).1
      rw [List.map_cons, List.map_cons, hshown, ih hm.2 hn.2 hrest]

theorem map_render_shown (ts : List Tree) : (ts.map shown).map render = ts.map render := by
  rw [List.map_map]
  exact List.map_congr_left fun t _ => render_shown t

end Tree
end Offside
