import Offside.Proofs.OneLine.Reading
import Offside.Proofs.Scanning

set_option autoImplicit false

/-!
# All of the grammar is read

For each symbol: what it means that tokens are read as a tree of the symbol, from any state that has room
for them. An operation or a primary is read into a tree that is still being extended, so what is said of
it is how an extension behind it becomes a climb that starts before it.
-/
namespace Offside.OneLine

open Reading
open Run (Starts Extends)

/-- On one line, inside some block, with room to open an expression for each token ahead. -/
structure Ready (limit : Nat) (s : State) : Prop where
  line : OnLine s
  groups : s.groups ≠ []
  room : s.depth + s.ahead.length ≤ limit

/-- The state inside one more expression. -/
def deeper (s : State) : State := { s with depth := s.depth + 1 }

theorem passes_deeper {s t : State} {ks : List Token} (h : s.Passes ks t) :
    (deeper s).Passes ks (deeper t) :=
  ⟨h.ahead, h.passed, h.indentation, h.groups, congrArg (· + 1) h.depth⟩

namespace Ready

variable {limit : Nat} {s t : State} {ks : List Token}

theorem passes (h : Ready limit s) (hp : s.Passes ks t) : Ready limit t := by
  refine ⟨h.line.passes hp, ?_, ?_⟩
  · rw [hp.groups]
    exact h.groups
  · have := hp.length_ahead
    have := hp.depth
    have := h.room
    omega

/-- A token that is passed makes room for an expression. -/
theorem takes (h : Ready (limit + 1) s) (hp : s.Passes ks t) (hks : ks ≠ []) : Ready limit t := by
  refine ⟨h.line.passes hp, (h.passes hp).groups, ?_⟩
  have := hp.length_ahead
  have := hp.depth
  have := h.room
  have := List.length_pos_iff.2 hks
  omega

theorem openGroup (h : Ready limit s) : Ready limit s.openGroup := by
  obtain ⟨n, outer, hs⟩ := List.exists_cons_of_ne_nil h.groups
  have ho : s.openGroup = { s with groups := (n + 1) :: outer } := by simp [State.openGroup, hs]
  refine ⟨h.line.openGroup, ?_, ?_⟩
  · rw [ho]
    exact List.cons_ne_nil _ _
  · rw [ho]
    exact h.room

theorem deeper (h : Ready limit s) : Ready (limit + 1) (deeper s) := by
  refine ⟨h.line.nested _, h.groups, ?_⟩
  have := h.room
  change s.depth + 1 + s.ahead.length ≤ limit + 1
  omega

end Ready

variable {source : String} {settings : Settings} {limit : Nat} {least : Int}
  {s t u v : State} {token : Token} {n left longer : Tree}

section Steps

theorem climb_of_start (hs : OnLine s) (htoken : s.Passes [token] u) {rule : PrefixRule}
    (hrule : Program.prefixRule? token.kind = some rule)
    (hstart : Run (Program.setup source settings) (.start rule token) u [left] t)
    (hextension : Run (Program.setup source settings) (.extension least left) t [n] v) :
    Run (Program.setup source settings) (.climb least) s [n] v := by
  refine .first ?_ (Program.setup_prefixRule?.trans hrule) hstart hextension
  rw [hs.skipGroupedLineBreaks]
  exact State.takes_iff.2 htoken

theorem extension_of_continuation (hs : OnLine s) (htoken : s.Passes [token] u)
    (hless : least < Program.power token.kind) {rule : InfixRule}
    (hrule : (Program.infixRule? token.kind).map Prod.snd = some rule)
    (hcontinuation :
      Run (Program.setup source settings) (.continuation rule left token) u [longer] t)
    (hextension : Run (Program.setup source settings) (.extension least longer) t [n] v) :
    Run (Program.setup source settings) (.extension least left) s [n] v := by
  refine .next ?_ ?_ (Program.setup_infixRule?.trans hrule) hcontinuation hextension
  · rw [hs.power, State.done_iff, htoken.ahead]
    rintro (hnil | hle)
    · cases hnil
    · exact absurd hle (Int.not_le.2 hless)
  · rw [hs.skipGroupedLineBreaks]
    exact State.takes_iff.2 htoken

theorem stop_of_nextPower (hs : OnLine s) (hnext : nextPower s.ahead ≤ least) :
    Run (Program.setup source settings) (.extension least left) s [left] s :=
  .stop (.inr (by rwa [hs.power]))

theorem expression_of_climb (hroom : s.depth < settings.maxDepth)
    (h : Run (Program.setup source settings) (.climb least) (deeper s) [n] (deeper t)) :
    Run (Program.setup source settings) (.expression least) s [n] t := .nested hroom h

end Steps

/-! ### What it means that a symbol is read -/

variable (source settings limit) (ks : List Token)

def ReadsAtom (e : Tree) : Prop :=
  ∀ s t, s.Passes ks t → Ready (limit + 1) s → nextPower t.ahead ≠ 30 →
    ∃ left : Tree, left.bare = e ∧ ∀ least : Int, Starts (Program.setup source settings) least s left t

def ReadsParameters (names : List String) : Prop :=
  ∀ s t, s.Passes ks t → Ready (limit + 1) s → nextPower t.ahead = 30 →
    ∃ left : Tree, Reader.parameters? left = some names ∧
      ∀ least : Int, Starts (Program.setup source settings) least s left t

def ReadsPrimary (e : Tree) : Prop :=
  ∀ s t, s.Passes ks t → Ready (limit + 1) s → nextPower t.ahead ≠ 30 →
    ∃ left : Tree, left.bare = e ∧
      ∀ least : Int, least < 90 → Starts (Program.setup source settings) least s left t

def ReadsSuffixes (f : Tree → Tree) : Prop :=
  ∀ s t left, s.Passes ks t → Ready limit s →
    ∃ longer : Tree, longer.bare = f left.bare ∧
      ∀ least : Int, least < 90 → Extends (Program.setup source settings) least s left longer t

def ReadsOperation (tiers : Nat) (e : Tree) : Prop :=
  ∀ s t, s.Passes ks t → Ready (limit + 1) s → nextPower t.ahead ≤ 80 - 10 * tiers →
    nextPower t.ahead ≠ 30 → ∃ left : Tree, left.bare = e ∧
      ∀ least : Int, tiers = 0 ∧ least < 90 ∨ least < 80 - 10 * tiers →
        Starts (Program.setup source settings) least s left t

def ReadsOperands (tier : Nat) (f : Tree → Tree) : Prop :=
  ∀ s t left, s.Passes ks t → Ready limit s → nextPower t.ahead ≤ 70 - 10 * tier →
    nextPower t.ahead ≠ 30 → ∃ longer : Tree, longer.bare = f left.bare ∧
      ∀ least : Int, least < 70 - 10 * tier →
        Extends (Program.setup source settings) least s left longer t

def ReadsExpression (e : Tree) : Prop :=
  ∀ s t least, s.Passes ks t → Ready limit s → 0 ≤ least → least < 10 → nextPower t.ahead ≤ 0 →
    ∃ n : Tree, n.bare = e ∧ Run (Program.setup source settings) (.expression least) s [n] t

def ReadsArguments (es : List Tree) : Prop :=
  ∀ s t close, s.Passes ks t → Ready limit s → close = .closeParen ∨ close = .closeBracket →
    t.isNext close → ∃ items : List Tree, Tree.bareAll items = es ∧
      Run (Program.setup source settings) (.items close) s items t

/-- The tokens are read as the symbol with the meaning. A name is read as the tree that it makes. -/
def Reads : (x : Symbol) → x.Meaning → Prop
  | .expression, e => ReadsExpression source settings limit ks e
  | .operation tiers, e => ReadsOperation source settings limit ks tiers e
  | .operands tier, f => ReadsOperands source settings limit ks tier f
  | .primary, e => ReadsPrimary source settings limit ks e
  | .suffixes, f => ReadsSuffixes source settings limit ks f
  | .atom, e => ReadsAtom source settings limit ks e
  | .arguments, es => ReadsArguments source settings limit ks es
  | .name, name => ReadsAtom source settings limit ks (.identifier default name)
  | .names, names =>
    ReadsArguments source settings limit ks (List.map (.identifier default) names)
  | .parameters, names => ReadsParameters source settings limit ks names

variable {source settings limit ks} {js : List Token} {e l : Tree} {es : List Tree}

/-! ### Atoms -/

section Atoms

theorem readsAtom_token (left : Tree) {rule : PrefixRule}
    (hrule : Program.prefixRule? token.kind = some rule)
    (hstart : ∀ s, Run (Program.setup source settings) (.start rule token) s [left] s) :
    ReadsAtom source settings limit [token] left.bare := by
  intro s t hp hs _
  exact ⟨left, rfl, fun _ _ _ hextension => climb_of_start hs.line hp hrule (hstart t) hextension⟩

theorem readsAtom_identifier (hk : token.kind = .identifier) :
    ReadsAtom source settings limit [token] (.identifier default (token.text source)) :=
  readsAtom_token (.identifier token.span (token.text source)) (by rw [hk]; rfl)
    fun _ => .identifier

theorem readsAtom_number (hk : token.kind = .number) (hr : token.Readable source) :
    ReadsAtom source settings limit [token] (.number default (numberOf source token)) := by
  obtain ⟨value, hvalue⟩ := Option.isSome_iff_exists.1 (hr.number hk)
  have hof : numberOf source token = value := by rw [numberOf, hvalue, Option.getD_some]
  rw [hof]
  exact readsAtom_token (.number token.span value) (by rw [hk]; rfl) fun _ => .number hvalue

theorem readsAtom_string (hk : token.kind = .string) (hr : token.Readable source) :
    ReadsAtom source settings limit [token] (.string default (stringOf source token)) := by
  obtain ⟨cs, hcs⟩ := Option.isSome_iff_exists.1 (hr.string hk)
  have hof : stringOf source token = Text.unescape (String.ofList cs) := by
    rw [stringOf, hcs, Option.map_some, Option.getD_some]
  rw [hof]
  exact readsAtom_token (.string token.span (Text.unescape (String.ofList cs)))
    (by rw [hk]; rfl) fun _ => .string hcs

theorem readsAtom_boolean (hk : token.kind = .trueWord ∨ token.kind = .falseWord) :
    ReadsAtom source settings limit [token] (.boolean default (token.kind = .trueWord)) :=
  readsAtom_token (.boolean token.span (token.kind = .trueWord))
    (by rcases hk with hk | hk <;> rw [hk] <;> rfl) fun _ => .boolean

end Atoms

/-! ### Bracketed sequences -/

section Brackets

variable {start stop : Token} {names : List String}

/-- What stands between brackets is read as a sequence from the opening bracket on. -/
theorem items_of_readsArguments (h : ReadsArguments source settings limit ks es) {close : Kind}
    (hclose : close = .closeParen ∨ close = .closeBracket) (hstop : stop.kind = close)
    (hp : s.Passes (start :: (ks ++ [stop])) t) (hs : Ready (limit + 1) s) :
    ∃ u v, ∃ items : List Tree, s.Passes [start] u ∧ Tree.bareAll items = es ∧
      Run (Program.setup source settings) (.items close) u.openGroup items v ∧
      v.Closes close stop t := by
  obtain ⟨u, hu, ht⟩ := hp.uncons
  have hready := hs.takes hu (List.cons_ne_nil _ _)
  obtain ⟨v, hv, hahead, hcloses⟩ := ht.closes hready.groups hstop
  have hnext : v.isNext close := by simp [State.isNext, State.current?, hahead, hstop]
  obtain ⟨items, hitems, hrun⟩ := h _ _ close hv hready.openGroup hclose hnext
  exact ⟨u, v, items, hu, hitems, hrun, hcloses⟩

theorem readsAtom_group (h : ReadsArguments source settings limit ks [e])
    (hstart : start.kind = .openParen) (hstop : stop.kind = .closeParen) :
    ReadsAtom source settings limit (start :: (ks ++ [stop])) e := by
  intro s t hp hs harrow
  obtain ⟨u, v, items, hu, hitems, hrun, hcloses⟩ :=
    items_of_readsArguments h (.inl rfl) hstop hp hs
  have hnot : ¬t.isNext .arrow := fun hnext => harrow (nextPower_of_isNext_arrow hnext)
  match items, hitems with
  | [item], hitems =>
    obtain ⟨rfl, _⟩ := List.cons.inj hitems
    refine ⟨item.withSpan (start.span.through stop.span), Tree.bare_withSpan _ _,
      fun _ _ _ hextension => ?_⟩
    exact climb_of_start hs.line hu (by rw [hstart]; rfl) (.grouping hrun hcloses hnot) hextension

theorem readsAtom_list (h : ReadsArguments source settings limit ks es)
    (hstart : start.kind = .openBracket) (hstop : stop.kind = .closeBracket) :
    ReadsAtom source settings limit (start :: (ks ++ [stop])) (.list default es) := by
  intro s t hp hs _
  obtain ⟨u, v, items, hu, hitems, hrun, hcloses⟩ :=
    items_of_readsArguments h (.inr rfl) hstop hp hs
  refine ⟨.list (start.span.through stop.span) items, ?_, fun _ _ _ hextension => ?_⟩
  · rw [Tree.bare, hitems]
  · exact climb_of_start hs.line hu (by rw [hstart]; rfl) (.list hrun hcloses) hextension

theorem readsParameters_list
    (h : ReadsArguments source settings limit ks (List.map (.identifier default) names))
    (hstart : start.kind = .openParen) (hstop : stop.kind = .closeParen) :
    ReadsParameters source settings limit (start :: (ks ++ [stop])) names := by
  intro s t hp hs harrow
  obtain ⟨u, v, items, hu, hitems, hrun, hcloses⟩ :=
    items_of_readsArguments h (.inl rfl) hstop hp hs
  have hnames : items.map Tree.name? = names.map some := by
    rw [← Tree.map_name?_bareAll, hitems, List.map_map]
    rfl
  refine ⟨.parameters (start.span.through stop.span) names, rfl, fun _ _ _ hextension => ?_⟩
  exact climb_of_start hs.line hu (by rw [hstart]; rfl)
    (.parameters hrun hcloses (isNext_arrow_of_nextPower harrow) hnames) hextension

theorem readsParameters_one (hk : token.kind = .identifier) :
    ReadsParameters source settings limit [token] [token.text source] := by
  intro s t hp hs _
  exact ⟨.identifier token.span (token.text source), rfl, fun _ _ _ hextension =>
    climb_of_start hs.line hp (by rw [hk]; rfl) .identifier hextension⟩

theorem readsArguments_none : ReadsArguments source settings limit [] [] := by
  intro s t close hp hs _ hnext
  obtain rfl := State.ext_of_passes (.refl s) hp
  refine ⟨[], rfl, ?_⟩
  have hrun : Run (Program.setup source settings) (.items close) s [] s.skipLineBreaks :=
    .noItems (by rwa [hs.line.skipLineBreaks])
  rwa [hs.line.skipLineBreaks] at hrun

theorem readsArguments_last (h : ReadsExpression source settings limit ks e) :
    ReadsArguments source settings limit ks [e] := by
  intro s t close hp hs hclose hnext
  have hloose : nextPower t.ahead ≤ 0 := nextPower_of_isNext_close hclose hnext
  obtain ⟨item, rfl, hrun⟩ := h s t 0 hp hs (Int.le_refl 0) (by decide) hloose
  have hopen := hrun.not_isNext_close hclose
  have hlast : ¬t.isNext .comma :=
    fun hcomma => Kind.ne_comma hclose (State.kind_eq_of_isNext hnext hcomma)
  have hskip := (hs.passes hp).line.skipLineBreaks
  refine ⟨[item], rfl, ?_⟩
  rw [← hskip]
  refine .lastItem ?_ ?_ ?_
  · rwa [hs.line.skipLineBreaks]
  · rwa [hs.line.skipLineBreaks]
  · rwa [hskip]

theorem readsArguments_more (h : ReadsExpression source settings limit js e) {comma : Token}
    (hcomma : comma.kind = .comma) (hes : ReadsArguments source settings limit ks es) :
    ReadsArguments source settings limit (js ++ comma :: ks) (e :: es) := by
  intro s t close hp hs hclose hnext
  obtain ⟨u, hu, hrest⟩ := hp.split
  obtain ⟨v, hv, ht⟩ := hrest.uncons
  have hloose : nextPower u.ahead ≤ 0 := by
    rw [hrest.ahead]
    change Program.power comma.kind ≤ 0
    rw [hcomma]
    decide
  obtain ⟨item, rfl, hrun⟩ := h s u 0 hu hs (Int.le_refl 0) (by decide) hloose
  have hopen := hrun.not_isNext_close hclose
  obtain ⟨items, rfl, hitems⟩ := hes v t close ht ((hs.passes hu).passes hv) hclose hnext
  refine ⟨item :: items, rfl, .item (t := u) ?_ ?_ ?_ hcomma hitems⟩
  · rwa [hs.line.skipLineBreaks]
  · rwa [hs.line.skipLineBreaks]
  · rw [(hs.passes hu).line.skipLineBreaks]
    exact State.takes_iff.2 hv

end Brackets

/-! ### Primaries -/

section Primaries

variable {start stop : Token} {f : Tree → Tree}

theorem readsPrimary_suffixed (h : ReadsAtom source settings limit js e)
    (hf : ReadsSuffixes source settings limit ks f) (hjs : js ≠ [])
    (hks : ks = [] ∨ ∃ k ls, ks = k :: ls ∧ Program.power k.kind = 90) :
    ReadsPrimary source settings limit (js ++ ks) (f e) := by
  intro s t hp hs harrow
  obtain ⟨u, hu, ht⟩ := hp.split
  have hready : Ready limit u := hs.takes hu hjs
  have hnext : nextPower u.ahead ≠ 30 := by
    rcases hks with rfl | ⟨k, ls, rfl, hk⟩
    · rwa [ht.ahead]
    · rw [ht.ahead]
      change Program.power k.kind ≠ 30
      omega
  obtain ⟨left, rfl, hleft⟩ := h s u hu hs hnext
  obtain ⟨longer, hlonger, hext⟩ := hf u t left ht hready
  exact ⟨longer, hlonger, fun least hless v n hn => hleft least v n (hext least hless v n hn)⟩

theorem readsSuffixes_none : ReadsSuffixes source settings limit [] fun left => left := by
  intro s t left hp _
  obtain rfl := State.ext_of_passes (.refl s) hp
  exact ⟨left, rfl, fun _ _ _ _ hn => hn⟩

theorem readsSuffixes_call (hstart : start.kind = .openParen)
    (h : ReadsArguments source settings limit js es) (hstop : stop.kind = .closeParen)
    (hf : ReadsSuffixes source settings limit ks f) :
    ReadsSuffixes source settings limit (start :: (js ++ stop :: ks))
      fun left => f (.call default left es) := by
  intro s t left hp hs
  rw [← List.singleton_append (l := ks), ← List.append_assoc, ← List.cons_append] at hp
  obtain ⟨w, hw, ht⟩ := hp.split
  obtain ⟨u, v, items, hu, rfl, hrun, hcloses⟩ :=
    items_of_readsArguments h (.inl rfl) hstop hw ⟨hs.line, hs.groups, Nat.le_succ_of_le hs.room⟩
  obtain ⟨longer, hlonger, hext⟩ :=
    hf w t (.call (left.span.through stop.span) left items) ht (hs.passes hw)
  refine ⟨longer, hlonger, fun least hless v n hn => ?_⟩
  refine extension_of_continuation hs.line hu ?_ ?_ (.call hrun hcloses) (hext least hless v n hn)
  · rw [hstart]
    exact hless
  · rw [hstart]
    rfl

theorem readsSuffixes_index (hstart : start.kind = .openBracket)
    (h : ReadsExpression source settings limit js e) (hstop : stop.kind = .closeBracket)
    (hf : ReadsSuffixes source settings limit ks f) :
    ReadsSuffixes source settings limit (start :: (js ++ stop :: ks))
      fun left => f (.index default left e) := by
  intro s t left hp hs
  rw [← List.singleton_append (l := ks), ← List.append_assoc, ← List.cons_append] at hp
  obtain ⟨w, hw, ht⟩ := hp.split
  obtain ⟨u, hu, hinner⟩ := hw.uncons
  have hready := (hs.passes hu).openGroup
  obtain ⟨v, hv, hahead, hcloses⟩ := hinner.closes (hs.passes hu).groups hstop
  have hloose : nextPower v.ahead ≤ 0 := by
    rw [hahead]
    change Program.power stop.kind ≤ 0
    rw [hstop]
    decide
  obtain ⟨item, rfl, hrun⟩ := h _ _ 0 hv hready (Int.le_refl 0) (by decide) hloose
  rw [← (hready.passes hv).line.skipLineBreaks] at hcloses
  obtain ⟨longer, hlonger, hext⟩ :=
    hf w t (.index (left.span.through stop.span) left item) ht (hs.passes hw)
  refine ⟨longer, hlonger, fun least hless v n hn => ?_⟩
  refine extension_of_continuation hs.line hu ?_ ?_ (.index hrun hcloses) (hext least hless v n hn)
  · rw [hstart]
    exact hless
  · rw [hstart]
    rfl

end Primaries

/-! ### Operations -/

section Operations

variable {f : Tree → Tree} {tiers : Nat} {sign : Token} {operator : Operator}

/-- An operation is a whole expression where nothing binds that could extend it. -/
theorem expression_of_readsOperation (hlimit : settings.maxDepth = limit + 1)
    (h : ReadsOperation source settings limit ks tiers e) (hp : s.Passes ks t) (hs : Ready limit s)
    (htight : tiers = 0 ∧ least < 90 ∨ least < 80 - 10 * tiers)
    (hnext : nextPower t.ahead ≤ least) (hmost : nextPower t.ahead ≤ 80 - 10 * tiers)
    (harrow : nextPower t.ahead ≠ 30) :
    ∃ n : Tree, n.bare = e ∧ Run (Program.setup source settings) (.expression least) s [n] t := by
  obtain ⟨n, hn, hstarts⟩ := h _ _ (passes_deeper hp) hs.deeper hmost harrow
  refine ⟨n, hn, expression_of_climb ?_ (hstarts least htight _ _ ?_)⟩
  · have := hs.room
    omega
  · exact stop_of_nextPower ((hs.passes hp).line.nested _) hnext

theorem readsOperation_single (h : ReadsPrimary source settings limit ks e) :
    ReadsOperation source settings limit ks 0 e := by
  intro s t hp hs _ harrow
  obtain ⟨left, hleft, hstarts⟩ := h s t hp hs harrow
  refine ⟨left, hleft, fun least hless => hstarts least ?_⟩
  omega

theorem readsOperation_unary (hlimit : settings.maxDepth = limit + 1)
    (hwritten : Operator.unary? sign.kind = some operator)
    (h : ReadsOperation source settings limit ks 0 e) :
    ReadsOperation source settings limit (sign :: ks) 0 (.unary default operator e) := by
  intro s t hp hs hmost harrow
  obtain ⟨u, hu, ht⟩ := hp.uncons
  obtain ⟨operand, rfl, hrun⟩ : ∃ n : Tree, n.bare = e ∧
      Run (Program.setup source settings) (.expression Level.unary.power) u [n] t :=
    expression_of_readsOperation hlimit h ht (hs.takes hu (List.cons_ne_nil _ _))
      (.inl ⟨rfl, by decide⟩) hmost hmost harrow
  refine ⟨.unary (sign.span.through operand.span) operator operand, rfl, fun least _ v n hn => ?_⟩
  refine climb_of_start hs.line hu ?_ (.unary hwritten hrun) hn
  revert hwritten
  cases sign.kind <;> simp [Operator.unary?, Program.prefixRule?]

theorem nextPower_append {ts : List Token} {tier : Nat}
    (hks : ks = [] ∨ ∃ k ls, ks = k :: ls ∧ k.kind ∈ OneLine.tier tier)
    (hmost : nextPower ts ≤ 70 - 10 * tier) (harrow : nextPower ts ≠ 30) :
    nextPower (ks ++ ts) ≤ 70 - 10 * tier ∧ nextPower (ks ++ ts) ≠ 30 := by
  rcases hks with rfl | ⟨k, ls, rfl, hk⟩
  · exact ⟨hmost, harrow⟩
  · have hpower := power_of_tier hk
    change Program.power k.kind ≤ _ ∧ Program.power k.kind ≠ 30
    omega

theorem readsOperation_chain (h : ReadsOperation source settings limit js tiers e)
    (hf : ReadsOperands source settings limit ks tiers f) (hjs : js ≠ [])
    (hks : ks = [] ∨ ∃ k ls, ks = k :: ls ∧ k.kind ∈ tier tiers) :
    ReadsOperation source settings limit (js ++ ks) (tiers + 1) (f e) := by
  intro s t hp hs hmost harrow
  obtain ⟨u, hu, ht⟩ := hp.split
  have hready : Ready limit u := hs.takes hu hjs
  have hmost' : nextPower t.ahead ≤ 70 - 10 * tiers := by omega
  have hnext := nextPower_append hks hmost' harrow
  rw [← ht.ahead] at hnext
  obtain ⟨left, rfl, hleft⟩ := h s u hu hs (by omega) hnext.2
  obtain ⟨longer, hlonger, hext⟩ := hf u t left ht hready (by omega) harrow
  refine ⟨longer, hlonger, fun least hless v n hn => hleft least (by omega) v n ?_⟩
  exact hext least (by omega) v n hn

theorem readsOperands_none : ReadsOperands source settings limit [] tiers fun left => left := by
  intro s t left hp _ _ _
  obtain rfl := State.ext_of_passes (.refl s) hp
  exact ⟨left, rfl, fun _ _ _ _ hn => hn⟩

theorem readsOperands_more (hlimit : settings.maxDepth = limit + 1)
    (hmem : sign.kind ∈ tier tiers) (hwritten : Operator.binary? sign.kind = some operator)
    (h : ReadsOperation source settings limit js tiers e)
    (hf : ReadsOperands source settings limit ks tiers f)
    (hks : ks = [] ∨ ∃ k ls, ks = k :: ls ∧ k.kind ∈ tier tiers) :
    ReadsOperands source settings limit (sign :: (js ++ ks)) tiers
      fun left => f (.binary default operator left e) := by
  intro s t left hp hs hmost harrow
  obtain ⟨hpower, hlt⟩ := power_of_tier hmem
  obtain ⟨u, hu, hrest⟩ := hp.uncons
  obtain ⟨v, hv, ht⟩ := hrest.split
  have hnext := nextPower_append hks hmost harrow
  rw [← ht.ahead] at hnext
  obtain ⟨right, rfl, hrun⟩ := expression_of_readsOperation hlimit h hv (hs.passes hu)
    (.inr (by omega)) hnext.1 (by omega) hnext.2
  obtain ⟨longer, hlonger, hext⟩ := hf v t (.binary (left.span.through right.span) operator left right)
    ht ((hs.passes hu).passes hv) hmost harrow
  refine ⟨longer, hlonger, fun least hless w n hn => ?_⟩
  refine extension_of_continuation hs.line hu (by omega) ?_ (.binary hwritten ?_)
    (hext least hless w n hn)
  · revert hwritten
    cases sign.kind <;> simp [Operator.binary?, Program.infixRule?]
  · rw [Program.setup_power, hpower]
    exact hrun

end Operations

/-! ### Expressions -/

section Expressions

variable {sign : Token} {names : List String}

/-- A sign behind what has been read continues it to a whole expression. -/
theorem expression_of_sign (hlimit : settings.maxDepth = limit + 1)
    (hp : s.Passes (js ++ sign :: ks) t) (hs : Ready limit s) (hleast : 0 ≤ least)
    (hnext : nextPower t.ahead ≤ 0) (hu : (deeper s).Passes js u)
    (hstarts : Starts (Program.setup source settings) least (deeper s) left u) (hv : u.Passes [sign] v)
    (hless : least < Program.power sign.kind) {rule : InfixRule}
    (hrule : (Program.infixRule? sign.kind).map Prod.snd = some rule)
    (hcontinuation :
      Run (Program.setup source settings) (.continuation rule left sign) v [n] (deeper t)) :
    Run (Program.setup source settings) (.expression least) s [n] t := by
  refine expression_of_climb ?_ (hstarts _ _ ?_)
  · have := hs.room
    omega
  · apply extension_of_continuation (hs.deeper.passes hu).line hv hless hrule hcontinuation
    exact stop_of_nextPower ((hs.passes hp).line.nested _) (Int.le_trans hnext hleast)

theorem readsExpression_plain (hlimit : settings.maxDepth = limit + 1)
    (h : ReadsOperation source settings limit ks 4 e) :
    ReadsExpression source settings limit ks e := by
  intro s t least hp hs hleast hless hnext
  exact expression_of_readsOperation hlimit h hp hs (.inr (by omega)) (by omega) (by omega)
    (by omega)

/-- A state before the sign and one behind it. -/
theorem passes_sign (hp : s.Passes (js ++ sign :: ks) t) (hs : Ready limit s) :
    ∃ u v, (deeper s).Passes js u ∧ nextPower u.ahead = Program.power sign.kind ∧
      u.Passes [sign] v ∧ v.Passes ks (deeper t) ∧ Ready limit v := by
  obtain ⟨u, hu, hrest⟩ := (passes_deeper hp).split
  obtain ⟨v, hv, ht⟩ := hrest.uncons
  refine ⟨u, v, hu, ?_, hv, ht, hs.deeper.takes (hu.trans hv) (by simp)⟩
  rw [hv.ahead]
  rfl

theorem readsExpression_assignment (hlimit : settings.maxDepth = limit + 1)
    (h : ReadsPrimary source settings limit js l) (ha : l.isAssignable)
    (hsign : sign.kind = .assignment) (he : ReadsExpression source settings limit ks e) :
    ReadsExpression source settings limit (js ++ sign :: ks) (.assign default l e) := by
  intro s t least hp hs hleast hless hnext
  have hpower : Program.power sign.kind = 10 := by rw [hsign]; rfl
  obtain ⟨u, v, hu, hsigned, hv, ht, hready⟩ := passes_sign hp hs
  obtain ⟨target, rfl, hstarts⟩ := h _ u hu hs.deeper (by omega)
  obtain ⟨value, rfl, hrun⟩ := he v _ 9 ht hready (by decide) (by decide) hnext
  rw [Tree.isAssignable_bare] at ha
  refine ⟨.assign (target.span.through value.span) target value, rfl, ?_⟩
  refine expression_of_sign hlimit hp hs hleast hnext hu (hstarts least (by omega)) hv (by omega)
    (by rw [hsign]; rfl) (.assignment ha ?_)
  rw [Program.setup_power, hpower]
  exact hrun

/-- A body on the line is one expression. -/
theorem body_of_readsExpression (he : ReadsExpression source settings limit ks e)
    (hp : s.Passes ks t) (hs : Ready limit s) (hnext : nextPower t.ahead ≤ 0) :
    ∃ n : Tree, n.bare = e ∧ Run (Program.setup source settings) .body s [n] t := by
  obtain ⟨n, hn, hrun⟩ := he s t 0 hp hs (Int.le_refl 0) (by decide) hnext
  refine ⟨n, hn, .inlineBody (fun hbreak => ?_) hrun⟩
  obtain ⟨token, htoken, hk⟩ := State.isNext_iff.1 hbreak
  obtain ⟨rest, hahead⟩ := State.current?_eq_some_iff.1 htoken
  exact hs.line.ahead token (by rw [hahead]; exact List.mem_cons_self) hk

theorem readsExpression_conditional (hlimit : settings.maxDepth = limit + 1)
    (h : ReadsOperation source settings limit js 4 l) (hsign : sign.kind = .question)
    (he : ReadsExpression source settings limit ks e) :
    ReadsExpression source settings limit (js ++ sign :: ks) (.conditional default l [e]) := by
  intro s t least hp hs hleast hless hnext
  have hpower : Program.power sign.kind = 20 := by rw [hsign]; rfl
  obtain ⟨u, v, hu, hsigned, hv, ht, hready⟩ := passes_sign hp hs
  obtain ⟨condition, rfl, hstarts⟩ := h _ u hu hs.deeper (by omega) (by omega)
  obtain ⟨body, rfl, hbody⟩ := body_of_readsExpression he ht hready hnext
  refine ⟨.conditional (Reader.spanThrough condition.span [body]) condition [body], rfl, ?_⟩
  exact expression_of_sign hlimit hp hs hleast hnext hu (hstarts least (by omega)) hv (by omega)
    (by rw [hsign]; rfl) (.conditional hbody)

theorem readsExpression_function (hlimit : settings.maxDepth = limit + 1)
    (h : ReadsParameters source settings limit js names) (hsign : sign.kind = .arrow)
    (he : ReadsExpression source settings limit ks e) :
    ReadsExpression source settings limit (js ++ sign :: ks) (.function default names [e]) := by
  intro s t least hp hs hleast hless hnext
  have hpower : Program.power sign.kind = 30 := by rw [hsign]; rfl
  obtain ⟨u, v, hu, hsigned, hv, ht, hready⟩ := passes_sign hp hs
  obtain ⟨left, hnames, hstarts⟩ := h _ u hu hs.deeper (by omega)
  obtain ⟨body, rfl, hbody⟩ := body_of_readsExpression he ht hready hnext
  refine ⟨.function (Reader.spanThrough left.span [body]) names [body], rfl, ?_⟩
  exact expression_of_sign hlimit hp hs hleast hnext hu (hstarts least) hv (by omega)
    (by rw [hsign]; rfl) (.function hnames hbody)

/-- An atom is a whole expression where nothing extends it. -/
theorem readsExpression_atom (hlimit : settings.maxDepth = limit + 1)
    (h : ReadsAtom source settings limit ks e) : ReadsExpression source settings limit ks e := by
  intro s t least hp hs hleast hless hnext
  have harrow : nextPower (deeper t).ahead ≠ 30 := by
    change nextPower t.ahead ≠ 30
    omega
  obtain ⟨left, rfl, hstarts⟩ := h _ _ (passes_deeper hp) hs.deeper harrow
  refine ⟨left, rfl, expression_of_climb ?_ (hstarts least _ _ ?_)⟩
  · have := hs.room
    omega
  · exact stop_of_nextPower ((hs.passes hp).line.nested _) (Int.le_trans hnext hleast)

/-- One expression with or without a comma behind it is a sequence. -/
theorem readsArguments_one (h : ReadsExpression source settings limit ks e)
    (comma : Option (Terminal .comma)) :
    ReadsArguments source settings limit (ks ++ Phrase.optional comma) [e] := by
  cases comma with
  | none =>
    rw [Phrase.optional, List.append_nil]
    exact readsArguments_last h
  | some comma => exact readsArguments_more h comma.property readsArguments_none

end Expressions

/-! ### All symbols -/

namespace Phrase

theorem tokens_operands {tier : Nat} (p : Phrase (.operands tier)) :
    p.tokens = [] ∨ ∃ k ls, p.tokens = k :: ls ∧ k.kind ∈ OneLine.tier tier := by
  cases p with
  | noOperand => exact .inl rfl
  | operand sign hmem _ _ _ _ => exact .inr ⟨sign, _, rfl, hmem⟩

theorem tokens_suffixes (p : Phrase .suffixes) :
    p.tokens = [] ∨ ∃ k ls, p.tokens = k :: ls ∧ Program.power k.kind = 90 := by
  cases p with
  | noSuffix => exact .inl rfl
  | call start _ _ _ => exact .inr ⟨start.val, _, rfl, by rw [start.property]; rfl⟩
  | index start _ _ _ => exact .inr ⟨start.val, _, rfl, by rw [start.property]; rfl⟩

theorem tokens_atom_ne_nil (p : Phrase .atom) : p.tokens ≠ [] := by
  cases p <;> exact List.cons_ne_nil _ _

theorem tokens_operation_ne_nil : {tiers : Nat} → (p : Phrase (.operation tiers)) → p.tokens ≠ []
  | _, .unary _ _ _ _ => List.cons_ne_nil _ _
  | _, .single (.suffixed left _) => List.append_ne_nil_of_left_ne_nil left.tokens_atom_ne_nil _
  | _, .chain left _ => List.append_ne_nil_of_left_ne_nil left.tokens_operation_ne_nil _

theorem proper_name (p : Phrase .name) : p.Proper source := by
  cases p <;> trivial

theorem proper_names (p : Phrase .names) : p.Proper source := by
  cases p <;> trivial

theorem proper_parameters (p : Phrase .parameters) : p.Proper source := by
  cases p <;> trivial

/-- A proper phrase is read wherever there is room for it. -/
theorem reads (hlimit : settings.maxDepth = limit + 1) {x : Symbol} (p : Phrase x)
    (hp : p.Proper source) (ht : ∀ t ∈ p.tokens, t.Readable source) :
    Reads source settings limit p.tokens x (p.meaning source) := by
  induction p with
  | assignment left sign right ih ih' =>
    simp only [tokens, List.forall_mem_append, List.forall_mem_cons] at ht
    exact readsExpression_assignment hlimit (ih hp.2.1 ht.1) hp.1 sign.property
      (ih' hp.2.2 ht.2.2)
  | conditional left sign right ih ih' =>
    simp only [tokens, List.forall_mem_append, List.forall_mem_cons] at ht
    exact readsExpression_conditional hlimit (ih hp.1 ht.1) sign.property (ih' hp.2 ht.2.2)
  | function left sign right ih ih' =>
    simp only [tokens, List.forall_mem_append, List.forall_mem_cons] at ht
    exact readsExpression_function hlimit (ih left.proper_parameters ht.1) sign.property
      (ih' hp ht.2.2)
  | plain inner ih => exact readsExpression_plain hlimit (ih hp ht)
  | unary sign operator hwritten right ih =>
    simp only [tokens, List.forall_mem_cons] at ht
    exact readsOperation_unary hlimit hwritten (ih hp ht.2)
  | single inner ih => exact readsOperation_single (ih hp ht)
  | chain left rest ih ih' =>
    simp only [tokens, List.forall_mem_append] at ht
    exact readsOperation_chain (ih hp.1 ht.1) (ih' hp.2 ht.2) left.tokens_operation_ne_nil
      rest.tokens_operands
  | noOperand => exact readsOperands_none
  | operand sign hmem operator hwritten next rest ih ih' =>
    simp only [tokens, List.forall_mem_cons, List.forall_mem_append] at ht
    exact readsOperands_more hlimit hmem hwritten (ih hp.1 ht.2.1) (ih' hp.2 ht.2.2)
      rest.tokens_operands
  | suffixed left rest ih ih' =>
    simp only [tokens, List.forall_mem_append] at ht
    exact readsPrimary_suffixed (ih hp.1 ht.1) (ih' hp.2 ht.2) left.tokens_atom_ne_nil
      rest.tokens_suffixes
  | noSuffix => exact readsSuffixes_none
  | call start inner stop rest ih ih' =>
    simp only [tokens, List.forall_mem_cons, List.forall_mem_append] at ht
    exact readsSuffixes_call start.property (ih hp.1 ht.2.1) stop.property (ih' hp.2 ht.2.2.2)
  | index start inner stop rest ih ih' =>
    simp only [tokens, List.forall_mem_cons, List.forall_mem_append] at ht
    exact readsSuffixes_index start.property (ih hp.1 ht.2.1) stop.property (ih' hp.2 ht.2.2.2)
  | identifier t => exact readsAtom_identifier t.property
  | number t => exact readsAtom_number t.property (ht _ List.mem_cons_self)
  | string t => exact readsAtom_string t.property (ht _ List.mem_cons_self)
  | trueWord t =>
    have h : ReadsAtom source settings limit [t.val] (.boolean default (t.val.kind = .trueWord)) :=
      readsAtom_boolean (.inl t.property)
    rwa [t.property] at h
  | falseWord t =>
    have h : ReadsAtom source settings limit [t.val] (.boolean default (t.val.kind = .trueWord)) :=
      readsAtom_boolean (.inr t.property)
    rwa [t.property] at h
  | group start inner comma stop ih =>
    simp only [tokens, List.forall_mem_cons, List.forall_mem_append] at ht
    have h := readsAtom_group (readsArguments_one (ih hp ht.2.1) comma) start.property
      stop.property
    rwa [List.append_assoc] at h
  | list start inner stop ih =>
    simp only [tokens, List.forall_mem_cons, List.forall_mem_append] at ht
    exact readsAtom_list (ih hp ht.2.1) start.property stop.property
  | noArguments => exact readsArguments_none
  | lastArgument first ih => exact readsArguments_last (ih hp ht)
  | argument first comma rest ih ih' =>
    simp only [tokens, List.forall_mem_cons, List.forall_mem_append] at ht
    exact readsArguments_more (ih hp.1 ht.1) comma.property (ih' hp.2 ht.2.2)
  | bareName t => exact readsAtom_identifier t.property
  | groupedName start inner comma stop ih =>
    simp only [tokens, List.forall_mem_cons, List.forall_mem_append] at ht
    have hinner := readsExpression_atom hlimit (ih inner.proper_name ht.2.1)
    have h := readsAtom_group (readsArguments_one hinner comma) start.property stop.property
    rwa [List.append_assoc] at h
  | noNames => exact readsArguments_none
  | lastName first ih =>
    exact readsArguments_last (readsExpression_atom hlimit (ih first.proper_name ht))
  | moreNames first comma rest ih ih' =>
    simp only [tokens, List.forall_mem_cons, List.forall_mem_append] at ht
    exact readsArguments_more (readsExpression_atom hlimit (ih first.proper_name ht.1))
      comma.property (ih' rest.proper_names ht.2.2)
  | oneParameter t => exact readsParameters_one t.property
  | parameterList start inner stop ih =>
    simp only [tokens, List.forall_mem_cons, List.forall_mem_append] at ht
    exact readsParameters_list (ih inner.proper_names ht.2.1) start.property stop.property

end Phrase

/-- The tokens of a proper expression are one statement. -/
theorem run_of_phrase (p : Phrase .expression) (hp : p.Proper source)
    (ht : ∀ t ∈ p.tokens, t.kind ≠ .newline ∧ t.Readable source)
    (hcolumn : ∀ t ∈ p.tokens.head?, t.column = 0) (hdepth : p.tokens.length < settings.maxDepth)
    (indentWidth : Nat) :
    ∃ n t, n.bare = p.meaning source ∧ Run (Program.setup source settings) (.statements 0)
      (.start indentWidth p.tokens) [n] t := by
  obtain ⟨limit, hlimit⟩ := Nat.exists_eq_succ_of_ne_zero (Nat.ne_zero_of_lt hdepth)
  have hs : Ready limit (.start indentWidth p.tokens) := by
    refine ⟨⟨fun t hmem => (ht t hmem).1, rfl⟩, List.cons_ne_nil _ _, ?_⟩
    change 0 + p.tokens.length ≤ limit
    omega
  have hpasses : (State.start indentWidth p.tokens).Passes p.tokens
      ⟨p.tokens.reverse, [], .base indentWidth, [0], 0⟩ :=
    ⟨(List.append_nil _).symm, (List.append_nil _).symm, rfl, rfl, rfl⟩
  obtain ⟨n, hn, hrun⟩ := p.reads hlimit hp (fun t hmem => (ht t hmem).2) _ _ 0 hpasses hs
    (Int.le_refl 0) (by decide) (Int.le_refl 0)
  have hlt := hrun.length_ahead_lt
  obtain ⟨token, rest, htokens⟩ : ∃ token rest, p.tokens = token :: rest := by
    apply List.exists_cons_of_ne_nil
    intro hnil
    rw [hnil] at hlt
    exact absurd hlt (Nat.not_lt_zero _)
  have hcurrent : (State.start indentWidth p.tokens).current? = some token := by
    simp [State.current?, State.start, htokens]
  rw [← hs.line.skipLineBreaks] at hrun
  have hend : State.EndsLine ⟨p.tokens.reverse, [], .base indentWidth, [0], 0⟩
      ⟨p.tokens.reverse, [], .base indentWidth, [0], 0⟩ := State.endsLine_of_done rfl
  have hrest : Run (Program.setup source settings) (.statements 0)
      ⟨p.tokens.reverse, [], .base indentWidth, [0], 0⟩ [] _ := .noTokens rfl
  refine ⟨n, _, hn, .statement ?_ (hcolumn token hcurrent) hrun hend hrest⟩
  rwa [hs.line.skipLineBreaks]

end Offside.OneLine
