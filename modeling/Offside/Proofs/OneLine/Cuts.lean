import Offside.Proofs.OneLine.Completeness

set_option autoImplicit false

/-!
# Where a phrase ends

Where a phrase is followed by another, every derivation breaks the tokens at the same place: the first
phrases of two derivations are both read from the same state, and a reading stops at one place only.
-/
namespace Offside.OneLine

open Reading
open Run (Starts)

variable {source : String}

namespace Terminal

variable {a b kind : Kind} {ks ls : List Token}

theorem kind_eq (s : Terminal a) (t : Terminal b) (h : s.val :: ks = t.val :: ls) : a = b := by
  rw [← s.property, (List.cons.inj h).1, t.property]

theorem cons_inj {s t : Terminal kind} (h : s.val :: ks = t.val :: ls) : s = t ∧ ks = ls :=
  ⟨Subtype.ext (List.cons.inj h).1, (List.cons.inj h).2⟩

theorem nextPower (t : Terminal kind) (ks : List Token) :
    nextPower (t.val :: ks) = Program.power kind := congrArg Program.power t.property

end Terminal

/-- Tokens that a reading on one line can take. -/
def Fine (source : String) (ks : List Token) : Prop :=
  ∀ t ∈ ks, t.kind ≠ .newline ∧ t.Readable source

namespace Fine

variable {js ks : List Token} {k : Token}

theorem left (h : Fine source (js ++ ks)) : Fine source js :=
  fun t ht => h t (List.mem_append_left _ ht)

theorem right (h : Fine source (js ++ ks)) : Fine source ks :=
  fun t ht => h t (List.mem_append_right _ ht)

theorem tail (h : Fine source (k :: ks)) : Fine source ks :=
  fun t ht => h t (List.mem_cons_of_mem _ ht)

theorem readable (h : Fine source ks) : ∀ t ∈ ks, t.Readable source := fun t ht => (h t ht).2

end Fine

/-- An expression at `least` is read from the tokens `js` and stops before `ks`. -/
def Cuts (source : String) (least : Int) (js ks : List Token) : Prop :=
  ∀ (settings : Settings) (limit : Nat) (s t : State), settings.maxDepth = limit + 1 →
    s.Passes js t → t.ahead = ks → Ready limit s →
    ∃ n, Run (Program.setup source settings) (.expression least) s [n] t

namespace Cuts

variable {least : Int} {js ks js' ks' : List Token}

/-- The reading of a cut from the start of its tokens. -/
theorem run (h : Cuts source least js ks) (hfine : Fine source (js ++ ks)) :
    ∃ n t, t.ahead = ks ∧ Run (Program.setup source { maxDepth := (js ++ ks).length + 1 })
      (.expression least) (.start 0 (js ++ ks)) [n] t := by
  have hready : Ready (js ++ ks).length (.start 0 (js ++ ks)) :=
    ⟨⟨fun t ht => (hfine t ht).1, rfl⟩, List.cons_ne_nil _ _, Nat.le_of_eq (Nat.zero_add _)⟩
  have hall : (State.start 0 (js ++ ks)).Passes (js ++ ks)
      ⟨(js ++ ks).reverse, [], .base 0, [0], 0⟩ :=
    ⟨(List.append_nil _).symm, (List.append_nil _).symm, rfl, rfl, rfl⟩
  obtain ⟨t, ht, htail⟩ := hall.split
  have hahead : t.ahead = ks := htail.ahead.trans (List.append_nil _)
  obtain ⟨n, hn⟩ := h { maxDepth := (js ++ ks).length + 1 } _ _ _ rfl ht hahead hready
  exact ⟨n, t, hahead, hn⟩

/-- Tokens are cut at one place only. -/
theorem ext (hfine : Fine source (js ++ ks)) (h : Cuts source least js ks)
    (h' : Cuts source least js' ks') (he : js ++ ks = js' ++ ks') : js = js' ∧ ks = ks' := by
  obtain ⟨m, t, rfl, hm⟩ := h.run hfine
  obtain ⟨n, u, rfl, hn⟩ := h'.run (he ▸ hfine)
  rw [← he] at hn
  obtain ⟨_, rfl⟩ := Run.det hm hn
  exact ⟨List.append_cancel_right he, rfl⟩

/-- What is read does not start with a closing bracket. -/
theorem ne_close (hfine : Fine source (js ++ ks)) (h : Cuts source least js ks) {close : Kind}
    (stop : Terminal close) (hclose : close = .closeParen ∨ close = .closeBracket)
    (ls : List Token) : stop.val :: ls ≠ js ++ ks := by
  intro he
  obtain ⟨n, t, _, hn⟩ := h.run hfine
  apply hn.not_isNext_close hclose
  simp [State.isNext, State.current?, State.start, ← he, stop.property]

end Cuts

variable {js ks : List Token} {least : Int}

theorem cuts_operation {tiers : Nat} (p : Phrase (.operation tiers)) (hp : p.Proper source)
    (ht : ∀ t ∈ p.tokens, t.Readable source)
    (htight : tiers = 0 ∧ least < 90 ∨ least < 80 - 10 * tiers) (hnext : nextPower ks ≤ least)
    (hmost : nextPower ks ≤ 80 - 10 * tiers) (harrow : nextPower ks ≠ 30) :
    Cuts source least p.tokens ks := by
  intro settings limit s t hlimit hpasses hahead hs
  rw [← hahead] at hnext hmost harrow
  obtain ⟨n, _, hrun⟩ :=
    expression_of_readsOperation hlimit (p.reads hlimit hp ht) hpasses hs htight hnext hmost harrow
  exact ⟨n, hrun⟩

theorem cuts_primary (p : Phrase .primary) (hp : p.Proper source)
    (ht : ∀ t ∈ p.tokens, t.Readable source) (hless : least < 90) (hnext : nextPower ks ≤ least)
    (hmost : nextPower ks ≤ 80) (harrow : nextPower ks ≠ 30) : Cuts source least p.tokens ks :=
  cuts_operation (.single p) hp ht (.inl ⟨rfl, hless⟩) hnext (by omega) harrow

theorem cuts_expression (p : Phrase .expression) (hp : p.Proper source)
    (ht : ∀ t ∈ p.tokens, t.Readable source) (hnext : nextPower ks ≤ 0) :
    Cuts source 0 p.tokens ks := by
  intro settings limit s t hlimit hpasses hahead hs
  rw [← hahead] at hnext
  obtain ⟨n, _, hrun⟩ :=
    p.reads hlimit hp ht s t 0 hpasses hs (Int.le_refl 0) (by decide) hnext
  exact ⟨n, hrun⟩

/-- A climb that starts with what is read stops before what binds no tighter. -/
theorem cuts_of_starts (h : ∀ (settings : Settings) (limit : Nat) (s t : State),
      settings.maxDepth = limit + 1 → s.Passes js t → t.ahead = ks → Ready (limit + 1) s →
      ∃ left, Starts (Program.setup source settings) least s left t)
    (hnext : nextPower ks ≤ least) : Cuts source least js ks := by
  intro settings limit s t hlimit hpasses hahead hs
  obtain ⟨left, hstarts⟩ :=
    h settings limit _ _ hlimit (passes_deeper hpasses) hahead hs.deeper
  refine ⟨left, expression_of_climb ?_ (hstarts _ _ ?_)⟩
  · have := hs.room
    omega
  · apply stop_of_nextPower ((hs.passes hpasses).line.nested _)
    change nextPower t.ahead ≤ least
    rwa [hahead]

theorem cuts_atom (p : Phrase .atom) (hp : p.Proper source)
    (ht : ∀ t ∈ p.tokens, t.Readable source) (hnext : nextPower ks ≤ least)
    (harrow : nextPower ks ≠ 30) : Cuts source least p.tokens ks := by
  refine cuts_of_starts (fun settings limit s t hlimit hpasses hahead hs => ?_) hnext
  rw [← hahead] at harrow
  obtain ⟨left, _, hstarts⟩ := p.reads hlimit hp ht s t hpasses hs harrow
  exact ⟨left, hstarts least⟩

theorem cuts_name (p : Phrase .name) (ht : ∀ t ∈ p.tokens, t.Readable source)
    (hnext : nextPower ks ≤ 0) : Cuts source 0 p.tokens ks := by
  refine cuts_of_starts (fun settings limit s t hlimit hpasses hahead hs => ?_) hnext
  rw [← hahead] at hnext
  obtain ⟨left, _, hstarts⟩ := p.reads hlimit p.proper_name ht s t hpasses hs (by omega)
  exact ⟨left, hstarts 0⟩

theorem cuts_parameters (p : Phrase .parameters) (ht : ∀ t ∈ p.tokens, t.Readable source)
    (harrow : nextPower ks = 30) : Cuts source 30 p.tokens ks := by
  refine cuts_of_starts (fun settings limit s t hlimit hpasses hahead hs => ?_) (by omega)
  rw [← hahead] at harrow
  obtain ⟨left, _, hstarts⟩ := p.reads hlimit p.proper_parameters ht s t hpasses hs harrow
  exact ⟨left, hstarts 30⟩

namespace Phrase

variable {ks' : List Token}

/-- The tokens of an expression up to its sign, and from its sign on. -/
def lead : Phrase .expression → List Token × List Token
  | .assignment left sign right => (left.tokens, sign.val :: right.tokens)
  | .conditional left sign right => (left.tokens, sign.val :: right.tokens)
  | .function left sign right => (left.tokens, sign.val :: right.tokens)
  | .plain inner => (inner.tokens, [])

theorem tokens_lead (p : Phrase .expression) : p.lead.1 ++ p.lead.2 = p.tokens := by
  cases p with
  | plain inner => exact List.append_nil _
  | _ => rfl

theorem cuts_lead (p : Phrase .expression) (hp : p.Proper source)
    (ht : ∀ t ∈ p.tokens, t.Readable source) : Cuts source 30 p.lead.1 p.lead.2 := by
  have hleft : ∀ t ∈ p.lead.1, t.Readable source := by
    intro t hmem
    apply ht t
    rw [← tokens_lead]
    exact List.mem_append_left _ hmem
  cases p with
  | assignment left sign right =>
    refine cuts_primary left hp.2.1 hleft (by decide) ?_ ?_ ?_ <;> rw [lead, sign.nextPower] <;> decide
  | conditional left sign right =>
    refine cuts_operation left hp.1 hleft (.inr (by decide)) ?_ ?_ ?_ <;> rw [lead, sign.nextPower] <;>
      decide
  | function left sign right =>
    apply cuts_parameters left hleft
    rw [lead, sign.nextPower]
    rfl
  | plain inner =>
    have hnone : nextPower (plain inner).lead.2 = 0 := rfl
    refine cuts_operation inner hp hleft (.inr (by decide)) ?_ ?_ ?_ <;> rw [hnone] <;> decide

/-- The kind of the sign. -/
def sign? : Phrase .expression → Option Kind
  | .assignment _ _ _ => some .assignment
  | .conditional _ _ _ => some .question
  | .function _ _ _ => some .arrow
  | .plain _ => none

theorem sign?_eq (p : Phrase .expression) : p.lead.2.head?.map Token.kind = p.sign? := by
  cases p with
  | plain inner => rfl
  | assignment _ sign _ | conditional _ sign _ | function _ sign _ =>
    exact congrArg some sign.property

/-- Expressions with the same tokens have the same sign at the same place. -/
theorem lead_eq {p q : Phrase .expression} (hp : p.Proper source) (hq : q.Proper source)
    (hfine : Fine source p.tokens) (he : p.tokens = q.tokens) :
    p.lead.1 = q.lead.1 ∧ p.lead.2 = q.lead.2 ∧ p.sign? = q.sign? := by
  have hq' : ∀ t ∈ q.tokens, t.Readable source := he ▸ hfine.readable
  rw [← tokens_lead] at he
  have hcut := Cuts.ext (by rwa [tokens_lead]) (cuts_lead p hp hfine.readable)
    (cuts_lead q hq hq') (he.trans q.tokens_lead.symm)
  refine ⟨hcut.1, hcut.2, ?_⟩
  rw [← sign?_eq, ← sign?_eq, hcut.2]

/-- The kind of the first token of an atom. -/
def opening : Phrase .atom → Kind
  | .identifier _ => .identifier
  | .number _ => .number
  | .string _ => .string
  | .trueWord _ => .trueWord
  | .falseWord _ => .falseWord
  | .group _ _ _ _ => .openParen
  | .list _ _ _ => .openBracket

theorem opening_eq (p : Phrase .atom) : p.tokens.head?.map Token.kind = some p.opening := by
  cases p with
  | identifier t | number t | string t | trueWord t | falseWord t | group t _ _ _ | list t _ _ =>
    exact congrArg some t.property

theorem opening_eq_of_tokens {p q : Phrase .atom} (he : p.tokens = q.tokens) :
    p.opening = q.opening := by
  have hk := congrArg (fun ts => ts.head?.map Token.kind) he
  simp only [opening_eq, Option.some.injEq] at hk
  exact hk

/-- No primary starts with a sign. -/
theorem ne_primary {sign : Token} {operator : Operator}
    (hwritten : Operator.unary? sign.kind = some operator) (ks : List Token) (p : Phrase .primary) :
    sign :: ks ≠ p.tokens := by
  intro he
  cases p with
  | suffixed left rest =>
    have hk := congrArg (fun ts => ts.head?.map Token.kind) he
    have hhead : (left.tokens ++ rest.tokens).head? = left.tokens.head? := by
      obtain ⟨k, ls, hl⟩ := List.exists_cons_of_ne_nil left.tokens_atom_ne_nil
      rw [hl]
      rfl
    simp only [tokens, hhead, opening_eq, List.head?_cons, Option.map_some,
      Option.some.injEq] at hk
    rw [hk] at hwritten
    cases left <;> cases hwritten

theorem cut_expression {p q : Phrase .expression} (hp : p.Proper source) (hq : q.Proper source)
    (hfine : Fine source (p.tokens ++ ks)) (he : p.tokens ++ ks = q.tokens ++ ks')
    (hnext : nextPower ks ≤ 0) (hnext' : nextPower ks' ≤ 0) : p.tokens = q.tokens ∧ ks = ks' :=
  Cuts.ext hfine (cuts_expression p hp hfine.left.readable hnext)
    (cuts_expression q hq (he ▸ hfine).left.readable hnext') he

theorem cut_name {p q : Phrase .name} (hfine : Fine source (p.tokens ++ ks))
    (he : p.tokens ++ ks = q.tokens ++ ks') (hnext : nextPower ks ≤ 0)
    (hnext' : nextPower ks' ≤ 0) : p.tokens = q.tokens ∧ ks = ks' :=
  Cuts.ext hfine (cuts_name p hfine.left.readable hnext)
    (cuts_name q (he ▸ hfine).left.readable hnext') he

theorem ne_expression {p : Phrase .expression} (hp : p.Proper source)
    (hfine : Fine source (p.tokens ++ ks)) {close : Kind}
    (hclose : close = .closeParen ∨ close = .closeBracket) (stop : Terminal close)
    (ls : List Token) (hnext : nextPower ks ≤ 0) : stop.val :: ls ≠ p.tokens ++ ks :=
  Cuts.ne_close hfine (cuts_expression p hp hfine.left.readable hnext) stop hclose ls

theorem ne_name {p : Phrase .name} (hfine : Fine source (p.tokens ++ ks))
    (stop : Terminal .closeParen) (ls : List Token) (hnext : nextPower ks ≤ 0) :
    stop.val :: ls ≠ p.tokens ++ ks :=
  Cuts.ne_close hfine (cuts_name p hfine.left.readable hnext) stop (.inl rfl) ls

theorem nextPower_close {close : Kind} (hclose : close = .closeParen ∨ close = .closeBracket)
    (stop : Terminal close) (ls : List Token) : nextPower (stop.val :: ls) ≤ 0 := by
  rw [stop.nextPower]
  rcases hclose with rfl | rfl <;> decide

theorem cut_operation {tiers : Nat} (htiers : tiers < 4) {p q : Phrase (.operation tiers)}
    {f g : Phrase (.operands tiers)} (hp : p.Proper source) (hq : q.Proper source)
    (hfine : Fine source (p.tokens ++ f.tokens))
    (he : p.tokens ++ f.tokens = q.tokens ++ g.tokens) :
    p.tokens = q.tokens ∧ f.tokens = g.tokens := by
  have hnext : ∀ h : Phrase (.operands tiers),
      nextPower h.tokens ≤ 70 - 10 * tiers ∧ nextPower h.tokens ≠ 30 := by
    intro h
    have hnil : nextPower [] ≤ 70 - 10 * tiers := by
      change 0 ≤ 70 - 10 * (tiers : Int)
      omega
    simpa only [List.append_nil] using nextPower_append h.tokens_operands hnil (by decide)
  have hf := hnext f
  have hg := hnext g
  exact Cuts.ext hfine
    (cuts_operation p hp hfine.left.readable (.inr (by omega)) hf.1 (by omega) hf.2)
    (cuts_operation q hq (he ▸ hfine).left.readable (.inr (by omega)) hg.1 (by omega) hg.2) he

theorem cut_atom {p q : Phrase .atom} {f g : Phrase .suffixes} (hp : p.Proper source)
    (hq : q.Proper source) (hfine : Fine source (p.tokens ++ f.tokens))
    (he : p.tokens ++ f.tokens = q.tokens ++ g.tokens) :
    p.tokens = q.tokens ∧ f.tokens = g.tokens := by
  have hnext : ∀ h : Phrase .suffixes, nextPower h.tokens ≤ 90 ∧ nextPower h.tokens ≠ 30 := by
    intro h
    rcases h.tokens_suffixes with hnil | ⟨k, ls, hcons, hk⟩
    · rw [hnil]
      decide
    · rw [hcons]
      change Program.power k.kind ≤ 90 ∧ Program.power k.kind ≠ 30
      omega
  exact Cuts.ext hfine (cuts_atom p hp hfine.left.readable (hnext f).1 (hnext f).2)
    (cuts_atom q hq (he ▸ hfine).left.readable (hnext g).1 (hnext g).2) he

theorem nextPower_optional (comma : Option (Terminal .comma)) (stop : Terminal .closeParen) :
    nextPower (optional comma ++ [stop.val]) ≤ 0 := by
  cases comma with
  | none => exact Int.le_of_eq (stop.nextPower _)
  | some comma => exact Int.le_of_eq (comma.nextPower _)

theorem optional_inj {comma comma' : Option (Terminal .comma)} {stop stop' : Terminal .closeParen}
    (h : optional comma ++ [stop.val] = optional comma' ++ [stop'.val]) :
    comma = comma' ∧ stop = stop' := by
  cases comma with
  | none =>
    cases comma' with
    | none => exact ⟨rfl, (Terminal.cons_inj h).1⟩
    | some comma' => cases stop.kind_eq comma' h
  | some comma =>
    cases comma' with
    | none => cases comma.kind_eq stop' h
    | some comma' =>
      obtain ⟨rfl, hstop⟩ := Terminal.cons_inj (s := comma) (t := comma') h
      exact ⟨rfl, (Terminal.cons_inj hstop).1⟩

end Phrase

end Offside.OneLine
