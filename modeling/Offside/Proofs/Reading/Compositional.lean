import Offside.Rule

set_option autoImplicit false

/-!
# Properties of all readings

What holds of every single step of a reading, and is kept by every way to put readings together, holds of
whatever the language reads, whether the reading gives a tree or reports a fault. A rule does not see all
of a state, and on every way out it closes the bracket or the block that it opened; so a property has to be
kept by no more than that. The same goes for what relates readings whose operands and bodies are read in
different ways.
-/
namespace Offside

open Reading

namespace Reading.State

/-- What a reading can see of a state is the same in both. -/
structure LooksLike (s t : State) : Prop where
  ahead : s.ahead = t.ahead
  inGroup : s.inGroup = t.inGroup
  afterLineBreak : s.afterLineBreak = t.afterLineBreak

namespace LooksLike

variable {s t : State}

theorem current? (h : s.LooksLike t) : s.current? = t.current? := congrArg List.head? h.ahead

theorem done (h : s.LooksLike t) : s.done = t.done := congrArg List.isEmpty h.ahead

theorem power (h : s.LooksLike t) (power : Kind → Int) (lineBreaksEnd : Bool) :
    s.power power lineBreaksEnd = t.power power lineBreaksEnd := by
  simp only [State.power, h.inGroup, h.ahead, h.afterLineBreak, h.current?]

end LooksLike

end Reading.State

/-- The steps are related to themselves, and the ways in which readings are put together keep the relation
as long as they open no block. -/
structure Relational {P I : Type} (setup : Setup P I)
    (Law : ∀ {α : Type}, Reading α → Reading α → Prop) : Prop where
  value {α : Type} (a : α) : Law (pure a : Reading α) (pure a)
  bind {α β : Type} {f f' : Reading α} {g g' : α → Reading β} (hf : Law f f')
    (hg : ∀ a, Law (g a) (g' a)) : Law (f >>= g) (f' >>= g')
  fault {α : Type} (cause : Cause) (position : Position) :
    Law (fail cause position : Reading α) (fail cause position)
  endOfInput {α : Type} : Law (endOfInput : Reading α) endOfInput
  current : Law current current
  consume : Law consume consume
  isNext (kind : Kind) : Law (isNext kind) (isNext kind)
  accept (kind : Kind) : Law (accept kind) (accept kind)
  skipLineBreaks : Law skipLineBreaks skipLineBreaks
  skipGroupedLineBreaks : Law skipGroupedLineBreaks skipGroupedLineBreaks
  look {α : Type} {f f' : State → Reading α}
    (hsees : ∀ s t, s.LooksLike t → f s = f t ∧ f' s = f' t) (h : ∀ s, Law (f s) (f' s)) :
    Law (get >>= f) (get >>= f')
  bracketed {α : Type} {f f' : Reading α} (h : Law f f') :
    Law (openGroup >>= fun _ => finishing f closeGroup) (openGroup >>= fun _ => finishing f' closeGroup)
  bracketedLines {α : Type} {f f' : Reading α} (h : Law f f') :
    Law (openGroup >>= fun _ => finishing f (Reading.skipLineBreaks *> closeGroup))
      (openGroup >>= fun _ => finishing f' (Reading.skipLineBreaks *> closeGroup))
  nested {α : Type} {f f' : Reading α} (h : Law f f') :
    Law (nested setup.settings.maxDepth f) (nested setup.settings.maxDepth f')

/-- Reads as the rule does, but reads bodies in the way that is given. -/
def InfixRule.readWith (body : Reading (List Tree)) :
    InfixRule → Reader Tree → Tree → Token → Reading Tree
  | .conditional, _, left, _ => do
    let trees ← body
    pure (.conditional (Reader.spanThrough left.span trees) left trees)
  | .function, r, left, t =>
    match Reader.parameters? left with
    | none => r.misplaced t "expected a parameter list before `->`"
    | some names => do
      let trees ← body
      pure (.function (Reader.spanThrough left.span trees) names trees)
  | rule, r, left, t => rule.read r left t

theorem InfixRule.readWith_body (rule : InfixRule) (r : Reader Tree) (left : Tree) (t : Token) :
    rule.readWith r.body r left t = rule.read r left t := by
  cases rule <;> rfl

namespace Relational

section Climbing

variable {P I N : Type} {setup : Setup P I} {Law : ∀ {α : Type}, Reading α → Reading α → Prop}
  {language language' : Language P I N} {operand operand' : Int → Reading N}

theorem require (h : Relational setup @Law) (source : String) (kind : Kind) :
    Law (require source kind) (require source kind) := by
  refine h.bind h.current fun t => ?_
  split
  · exact h.consume
  · exact h.fault _ _

theorem first (h : Relational setup @Law)
    (hstarts : ∀ rule token, Law (language.prefixRule rule (setup.reader operand) token)
      (language'.prefixRule rule (setup.reader operand') token)) :
    Law (language.first setup operand) (language'.first setup operand') := by
  refine h.bind h.skipGroupedLineBreaks fun _ => h.bind h.consume fun token => ?_
  split
  · exact hstarts _ _
  · exact h.fault _ _

theorem next (h : Relational setup @Law)
    (hcontinues : ∀ rule left token, Law (language.infixRule rule (setup.reader operand) left token)
      (language'.infixRule rule (setup.reader operand') left token))
    (left : N) : Law (language.next setup operand left) (language'.next setup operand' left) := by
  refine h.bind h.skipGroupedLineBreaks fun _ => h.bind h.consume fun token => ?_
  split
  · exact hcontinues _ _ _
  · exact h.fault _ _

theorem extend (h : Relational setup @Law)
    (hcontinues : ∀ rule left token, Law (language.infixRule rule (setup.reader operand) left token)
      (language'.infixRule rule (setup.reader operand') left token))
    (least : Int) (rounds : Nat) (left : N) :
    Law (language.extend setup operand least rounds left)
      (language'.extend setup operand' least rounds left) := by
  induction rounds generalizing left with
  | zero => exact h.value left
  | succ rounds ih =>
    refine h.look (fun s t hst => ?_) fun s => ?_
    · have hpower : setup.power s = setup.power t := hst.power _ _
      simp only [hst.done, hpower, and_self]
    · split
      · exact h.value left
      · exact h.bind (h.next hcontinues left) ih

theorem climb (h : Relational setup @Law)
    (hstarts : ∀ rule token, Law (language.prefixRule rule (setup.reader operand) token)
      (language'.prefixRule rule (setup.reader operand') token))
    (hcontinues : ∀ rule left token, Law (language.infixRule rule (setup.reader operand) left token)
      (language'.infixRule rule (setup.reader operand') left token))
    (least : Int) : Law (language.climb setup operand least) (language'.climb setup operand' least) :=
  h.bind (h.first hstarts) fun left => h.look (fun _ _ hst => by simp only [hst.ahead, and_self])
    fun s => h.extend hcontinues least s.ahead.length left

end Climbing

section Rules

variable {setup : Setup PrefixRule InfixRule} {Law : ∀ {α : Type}, Reading α → Reading α → Prop}
  {operand operand' : Int → Reading Tree}

theorem misplaced {α : Type} (h : Relational setup @Law) (token : Token) (message : String) :
    Law ((setup.reader operand).misplaced token message : Reading α)
      ((setup.reader operand').misplaced token message) := h.fault _ _

theorem statement (h : Relational setup @Law) (hoperand : ∀ least, Law (operand least) (operand' least)) :
    Law (setup.reader operand).statement (setup.reader operand').statement := by
  refine h.bind (hoperand 0) fun tree => h.look (fun s t hst => ?_) fun s => ?_
  · exact ⟨by simp only [hst.done, hst.afterLineBreak], by simp only [hst.done, hst.afterLineBreak]⟩
  · split
    · exact h.value tree
    · exact h.bind (h.require _ _) fun _ => h.value tree

theorem statementsWithin (h : Relational setup @Law)
    (hoperand : ∀ least, Law (operand least) (operand' least)) (level bound : Nat) :
    Law ((setup.reader operand).statementsWithin level bound)
      ((setup.reader operand').statementsWithin level bound) := by
  induction bound with
  | zero => exact h.value []
  | succ bound ih =>
    refine h.bind h.skipLineBreaks fun _ => h.look (fun s t hst => ?_) fun s => ?_
    · exact ⟨by simp only [hst.current?], by simp only [hst.current?]⟩
    · split
      · exact h.value []
      split
      · exact h.value []
      split
      · exact h.fault _ _
      · exact h.bind (h.statement hoperand) fun tree => h.bind ih fun trees => h.value (tree :: trees)

theorem block (h : Relational setup @Law) (hoperand : ∀ least, Law (operand least) (operand' least))
    (level : Nat) : Law ((setup.reader operand).block level) ((setup.reader operand').block level) :=
  h.look (fun _ _ hst => by simp only [hst.ahead, and_self])
    fun s => h.statementsWithin hoperand level s.ahead.length

theorem itemsWithin (h : Relational setup @Law) (hoperand : ∀ least, Law (operand least) (operand' least))
    (close : Kind) (bound : Nat) : Law ((setup.reader operand).itemsWithin close bound)
      ((setup.reader operand').itemsWithin close bound) := by
  induction bound with
  | zero => exact h.bind (hoperand 0) fun item => h.value [item]
  | succ bound ih =>
    refine h.bind h.skipLineBreaks fun _ => h.bind (h.isNext close) fun closed => ?_
    cases closed with
    | true => exact h.value []
    | false =>
      refine h.bind (hoperand 0) fun item => h.bind h.skipLineBreaks fun _ =>
        h.bind (h.accept _) fun more => ?_
      cases more with
      | true => exact h.bind ih fun items => h.value (item :: items)
      | false => exact h.value [item]

theorem sequence (h : Relational setup @Law) (hoperand : ∀ least, Law (operand least) (operand' least))
    (close : Kind) :
    Law ((setup.reader operand).sequence close) ((setup.reader operand').sequence close) := by
  have hitems : Law ((setup.reader operand).items close) ((setup.reader operand').items close) :=
    h.look (fun _ _ hst => by simp only [hst.ahead, and_self])
      fun s => h.itemsWithin hoperand close s.ahead.length
  unfold Reader.sequence
  rw [← bind_assoc, ← bind_assoc]
  exact h.bind (h.bracketed hitems) fun items => h.bind (h.require _ _) fun stop =>
    h.value (items, stop)

theorem parameterNames (h : Relational setup @Law) (items : List Tree) :
    Law (Reader.parameterNames items) (Reader.parameterNames items) := by
  induction items with
  | nil => exact h.value []
  | cons item items ih =>
    cases item with
    | identifier span name => exact h.bind ih fun names => h.value (name :: names)
    | _ => exact h.fault _ _

theorem parenthesis (h : Relational setup @Law) (hoperand : ∀ least, Law (operand least) (operand' least))
    (token : Token) :
    Law ((setup.reader operand).parenthesis token) ((setup.reader operand').parenthesis token) := by
  refine h.bind (h.sequence hoperand _) fun (items, stop) => h.bind (h.isNext _) fun arrow => ?_
  cases arrow with
  | true => exact h.bind (h.parameterNames items) fun names => h.value _
  | false =>
    simp only [Bool.false_eq_true, if_false]
    split
    · exact h.value _
    · refine h.look (fun s t hst => ?_) fun s => ?_
      · exact ⟨by simp only [hst.current?], by simp only [hst.current?]⟩
      · split
        · exact h.fault _ _
        · exact h.misplaced _ _

theorem index (h : Relational setup @Law) (hoperand : ∀ least, Law (operand least) (operand' least))
    (left : Tree) : Law ((setup.reader operand).index left) ((setup.reader operand').index left) := by
  unfold Reader.index
  rw [← bind_assoc, ← bind_assoc]
  exact h.bind (h.bracketedLines (hoperand 0)) fun item => h.bind (h.require _ _) fun stop =>
    h.value _

theorem prefixRule (h : Relational setup @Law) (hoperand : ∀ least, Law (operand least) (operand' least))
    (rule : PrefixRule) (token : Token) :
    Law (rule.read (setup.reader operand) token) (rule.read (setup.reader operand') token) := by
  cases rule with
  | identifier | boolean => exact h.value _
  | number =>
    simp only [PrefixRule.read, Reader.number, Reader.text, Setup.reader]
    split
    · exact h.value _
    · exact h.fault _ _
  | string =>
    simp only [PrefixRule.read, Reader.string, Reader.text, Setup.reader]
    split
    · exact h.value _
    · exact h.fault _ _
  | unary =>
    simp only [PrefixRule.read, Reader.unary]
    split
    · exact h.misplaced _ _
    · exact h.bind (hoperand _) fun operand => h.value _
  | parenthesis => exact h.parenthesis hoperand token
  | list => exact h.bind (h.sequence hoperand _) fun _ => h.value _

theorem infixRule {body body' : Reading (List Tree)} (h : Relational setup @Law)
    (hoperand : ∀ least, Law (operand least) (operand' least)) (hbody : Law body body')
    (rule : InfixRule) (left : Tree) (token : Token) :
    Law (rule.readWith body (setup.reader operand) left token)
      (rule.readWith body' (setup.reader operand') left token) := by
  cases rule with
  | binary =>
    simp only [InfixRule.readWith, InfixRule.read, Reader.binary]
    split
    · exact h.misplaced _ _
    · exact h.bind (hoperand _) fun right => h.value _
  | assignment =>
    simp only [InfixRule.readWith, InfixRule.read, Reader.assignment]
    split
    · exact h.bind (hoperand _) fun value => h.value _
    · exact h.misplaced _ _
  | conditional => exact h.bind hbody fun trees => h.value _
  | function =>
    simp only [InfixRule.readWith]
    split
    · exact h.misplaced _ _
    · exact h.bind hbody fun trees => h.value _
  | call => exact h.bind (h.sequence hoperand _) fun _ => h.value _
  | index => exact h.index hoperand left

end Rules

end Relational

/-- The steps have the property, and the ways in which readings are put together keep it. -/
structure Compositional {P I : Type} (setup : Setup P I) (Law : ∀ {α : Type}, Reading α → Prop) :
    Prop where
  value {α : Type} (a : α) : Law (pure a : Reading α)
  bind {α β : Type} {f : Reading α} {g : α → Reading β} (hf : Law f) (hg : ∀ a, Law (g a)) :
    Law (f >>= g)
  fault {α : Type} (cause : Cause) (position : Position) : Law (fail cause position : Reading α)
  endOfInput {α : Type} : Law (endOfInput : Reading α)
  current : Law current
  consume : Law consume
  isNext (kind : Kind) : Law (isNext kind)
  accept (kind : Kind) : Law (accept kind)
  skipLineBreaks : Law skipLineBreaks
  skipGroupedLineBreaks : Law skipGroupedLineBreaks
  look {α : Type} {f : State → Reading α} (hsees : ∀ s t, s.LooksLike t → f s = f t)
    (h : ∀ s, Law (f s)) : Law (get >>= f)
  bracketed {α : Type} {f : Reading α} (h : Law f) :
    Law (openGroup >>= fun _ => finishing f closeGroup)
  bracketedLines {α : Type} {f : Reading α} (h : Law f) :
    Law (openGroup >>= fun _ => finishing f (Reading.skipLineBreaks *> closeGroup))
  blocked {α : Type} {f : Nat → Reading α} (h : ∀ level, Law (f level)) :
    Law (openBlock >>= fun level => finishing (f level) closeBlock)
  nested {α : Type} {f : Reading α} (h : Law f) : Law (nested setup.settings.maxDepth f)

/-- The property of the first reading, as a relation to any other one. -/
def OfFirst (Law : ∀ {α : Type}, Reading α → Prop) {α : Type} (f _ : Reading α) : Prop := Law f

theorem OfFirst.self {Law : ∀ {α : Type}, Reading α → Prop} {α : Type} {f : Reading α}
    (h : OfFirst Law f f) : Law f := h

namespace Compositional

section Climbing

variable {P I N : Type} {setup : Setup P I} {Law : ∀ {α : Type}, Reading α → Prop}
  {language : Language P I N} {operand : Int → Reading N}

theorem relational (h : Compositional setup @Law) : Relational setup (OfFirst @Law) where
  value := h.value
  bind hf hg := h.bind hf hg
  fault := h.fault
  endOfInput := h.endOfInput
  current := h.current
  consume := h.consume
  isNext := h.isNext
  accept := h.accept
  skipLineBreaks := h.skipLineBreaks
  skipGroupedLineBreaks := h.skipGroupedLineBreaks
  look hsees hf := h.look (fun s t hst => (hsees s t hst).1) hf
  bracketed := h.bracketed
  bracketedLines := h.bracketedLines
  nested := h.nested

theorem require (h : Compositional setup @Law) (source : String) (kind : Kind) :
    Law (require source kind) :=
  h.relational.require source kind

theorem extend (h : Compositional setup @Law)
    (hcontinues : ∀ rule left token, Law (language.infixRule rule (setup.reader operand) left token))
    (least : Int) (rounds : Nat) (left : N) : Law (language.extend setup operand least rounds left) :=
  OfFirst.self (h.relational.extend hcontinues least rounds left)

theorem climb (h : Compositional setup @Law)
    (hstarts : ∀ rule token, Law (language.prefixRule rule (setup.reader operand) token))
    (hcontinues : ∀ rule left token, Law (language.infixRule rule (setup.reader operand) left token))
    (least : Int) : Law (language.climb setup operand least) :=
  OfFirst.self (h.relational.climb hstarts hcontinues least)

end Climbing

section Rules

variable {setup : Setup PrefixRule InfixRule} {Law : ∀ {α : Type}, Reading α → Prop}
  {operand : Int → Reading Tree}

theorem statement (h : Compositional setup @Law) (hoperand : ∀ least, Law (operand least)) :
    Law (setup.reader operand).statement :=
  OfFirst.self (h.relational.statement hoperand)

theorem statementsWithin (h : Compositional setup @Law) (hoperand : ∀ least, Law (operand least))
    (level bound : Nat) : Law ((setup.reader operand).statementsWithin level bound) :=
  OfFirst.self (h.relational.statementsWithin hoperand level bound)

theorem block (h : Compositional setup @Law) (hoperand : ∀ least, Law (operand least))
    (level : Nat) : Law ((setup.reader operand).block level) :=
  OfFirst.self (h.relational.block hoperand level)

theorem indentedBlock (h : Compositional setup @Law) (hoperand : ∀ least, Law (operand least)) :
    Law (setup.reader operand).indentedBlock := by
  refine h.blocked fun level => h.bind h.current fun token => ?_
  split
  · exact h.fault _ _
  · exact h.block hoperand level

theorem body (h : Compositional setup @Law) (hoperand : ∀ least, Law (operand least)) :
    Law (setup.reader operand).body := by
  refine h.bind (h.accept _) fun broken => ?_
  cases broken with
  | true => exact h.bind h.skipLineBreaks fun _ => h.indentedBlock hoperand
  | false => exact h.bind (hoperand 0) fun tree => h.value [tree]

theorem itemsWithin (h : Compositional setup @Law) (hoperand : ∀ least, Law (operand least))
    (close : Kind) (bound : Nat) : Law ((setup.reader operand).itemsWithin close bound) :=
  OfFirst.self (h.relational.itemsWithin hoperand close bound)

theorem prefixRule (h : Compositional setup @Law) (hoperand : ∀ least, Law (operand least))
    (rule : PrefixRule) (token : Token) : Law (rule.read (setup.reader operand) token) :=
  OfFirst.self (h.relational.prefixRule hoperand rule token)

theorem infixRule (h : Compositional setup @Law) (hoperand : ∀ least, Law (operand least))
    (rule : InfixRule) (left : Tree) (token : Token) :
    Law (rule.read (setup.reader operand) left token) := by
  rw [← rule.readWith_body]
  exact OfFirst.self (h.relational.infixRule hoperand (h.body hoperand) rule left token)

/-- The property holds of every expression, whatever rules the grammar puts on which kinds of tokens. -/
theorem expressionWithin (h : Compositional setup @Law) (bound : Nat) (least : Int) :
    Law (Tree.language.expressionWithin setup bound least) := by
  induction bound generalizing least with
  | zero => exact h.nested h.endOfInput
  | succ bound ih =>
    have hstarts : ∀ rule token, Law (Tree.language.prefixRule rule (setup.reader _) token) :=
      h.prefixRule ih
    exact h.nested (h.climb hstarts (h.infixRule ih) least)

theorem expression (h : Compositional setup @Law) (least : Int) :
    Law (Tree.language.expression setup least) :=
  h.look (fun _ _ hst => by simp only [hst.ahead]) fun s => h.expressionWithin s.ahead.length least

end Rules

end Compositional

end Offside
