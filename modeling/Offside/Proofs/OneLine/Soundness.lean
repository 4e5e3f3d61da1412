import Offside.Proofs.OneLine.Reading

set_option autoImplicit false

/-!
# Only the grammar is read

The tree that was read so far is kept together with the tokens it derives from and with what the next
token cannot be. Before an arrow there may stand a tree that derives from nothing; no reading gets past
that arrow.
-/
namespace Offside.OneLine

open Reading

variable {source : String} {settings : Settings}

/-- What has been read while operators that bind no tighter than `least` are left to the caller. -/
inductive Held (source : String) (least : Int) (ks : List Token) (n : Tree) (rest : List Token) : Prop
  | primary (h : Derives source .primary ks n.bare)
  | operation (tiers : Nat) (hmost : tiers ≤ 4) (htight : tiers = 0 ∨ least < 80 - 10 * tiers)
      (h : Derives source (.operation tiers) ks n.bare) (hnext : nextPower rest ≤ 80 - 10 * tiers)
  | expression (hleast : least < 30) (h : Derives source .expression ks n.bare)
      (hnext : nextPower rest ≤ 0)
  | parameters (names : List String) (h : Derives source .parameters ks names)
      (hnames : Reader.parameters? n = some names) (harrow : nextPower rest = 30)
  | dangling (hnone : Reader.parameters? n = none) (harrow : nextPower rest = 30)

namespace Held

variable {least : Int} {ks rest : List Token} {n : Tree} {t : Token}

/-- Of what follows only matters how tightly it binds. -/
theorem congr {rest' : List Token} (h : Held source least ks n rest)
    (hnext : nextPower rest' = nextPower rest) : Held source least ks n rest' := by
  cases h with
  | primary h => exact .primary h
  | operation tiers hmost htight h hle => exact .operation tiers hmost htight h (hnext ▸ hle)
  | expression hleast h hle => exact .expression hleast h (hnext ▸ hle)
  | parameters names h hnames harrow => exact .parameters names h hnames (hnext.trans harrow)
  | dangling hnone harrow => exact .dangling hnone (hnext.trans harrow)

/-- Unless an arrow follows, an expression was read. -/
theorem derives (h : Held source least ks n rest) (hnext : nextPower rest ≠ 30) :
    Derives source .expression ks n.bare := by
  cases h with
  | primary h => exact (h.primary.lift (Nat.zero_le 4)).plain
  | operation tiers hmost _ h _ => exact (h.lift hmost).plain
  | expression _ h _ => exact h
  | parameters _ _ _ harrow | dangling _ harrow => exact absurd harrow hnext

/-- Where nothing binds any more, an expression was read. -/
theorem whole (h : Held source least ks n rest) (hnext : nextPower rest ≤ 0) :
    Derives source .expression ks n.bare := h.derives (by omega)

/-- To the left of an operator an operation was read whose operators bind no looser than it. -/
theorem left (h : Held source least ks n (t :: rest)) {tiers : Nat}
    (hpos : 0 < Program.power t.kind) (harrow : Program.power t.kind ≠ 30)
    (hpower : 80 - 10 * tiers ≤ Program.power t.kind ∨ 4 ≤ tiers) :
    Derives source (.operation tiers) ks n.bare := by
  have ht : nextPower (t :: rest) = Program.power t.kind := rfl
  cases h with
  | primary h => exact h.primary.lift (Nat.zero_le _)
  | operation _ _ _ h _ => exact h.lift (by omega)
  | expression _ _ _ => omega
  | parameters _ _ _ _ | dangling _ _ => contradiction

/-- To the right of an operator an operation was read whose operators bind tighter, unless an arrow
follows. -/
theorem right {tiers : Nat} (hmost : tiers ≤ 4) (h : Held source (80 - 10 * tiers) ks n rest) :
    Derives source (.operation (tiers - 1)) ks n.bare ∨ nextPower rest = 30 := by
  cases h with
  | primary h => exact .inl (h.primary.lift (Nat.zero_le _))
  | operation _ _ htight h _ => exact .inl (h.lift (by omega))
  | expression _ _ _ => omega
  | parameters _ _ _ harrow | dangling _ harrow => exact .inr harrow

/-- To the left of a call or an index a primary was read. -/
theorem callee (h : Held source least ks n (t :: rest)) (hpower : Program.power t.kind = 90) :
    Derives source .primary ks n.bare := by
  have ht : nextPower (t :: rest) = Program.power t.kind := rfl
  cases h with
  | primary h => exact h
  | operation _ _ _ _ _ => omega
  | expression _ _ _ => omega
  | parameters _ _ _ _ | dangling _ _ => omega

/-- To the left of an arrow parameters were read. -/
theorem names (h : Held source least ks n (t :: rest)) (hpower : Program.power t.kind = 30)
    {names : List String} (hnames : Reader.parameters? n = some names) :
    Derives source .parameters ks names := by
  have ht : nextPower (t :: rest) = Program.power t.kind := rfl
  rw [← Tree.parameters?_bare] at hnames
  cases h with
  | primary h => exact h.primary.parameters hnames
  | operation _ _ _ h _ => exact h.parameters hnames
  | expression _ _ _ => omega
  | parameters names' h hnames' _ =>
    rw [← Tree.parameters?_bare, hnames] at hnames'
    cases hnames'
    exact h
  | dangling hnone _ =>
    rw [← Tree.parameters?_bare, hnames] at hnone
    cases hnone

end Held

/-- What a run on one line has read, behind what it was given: the tokens `ks` up to `rest`. -/
def Sound (source : String) (ks : List Token) (out : List Tree) (rest : List Token) : Task → Prop
  | .expression least | .climb least => 0 ≤ least →
    ∃ n, out = [n] ∧ Held source least ks n rest ∧ nextPower rest ≤ least
  | .extension least left => 0 ≤ least → ∀ js, Held source least js left (ks ++ rest) →
    ∃ n, out = [n] ∧ Held source least (js ++ ks) n rest ∧ nextPower rest ≤ least
  | .start _ token => ∃ n, out = [n] ∧ ∀ least, Held source least (token :: ks) n rest
  | .continuation _ left token => ∀ least js, 0 ≤ least → least < Program.power token.kind →
    Held source least js left (token :: (ks ++ rest)) →
    ∃ n, out = [n] ∧ Held source least (js ++ token :: ks) n rest
  | .items _ => Derives source .arguments ks (Tree.bareAll out)
  | .statements level => level = 0 →
    if ks ++ rest = [] then out = []
    else ∃ n, out = [n] ∧ Derives source .expression ks n.bare ∧ rest = []
  | .body => ∃ n, out = [n] ∧ Derives source .expression ks n.bare ∧ nextPower rest ≤ 0

namespace Sound

variable {ks ls rest rest' : List Token} {token stop : Token} {span : Span} {least : Int}
  {left longer operand item n : Tree} {items trees : List Tree}

/-- What an operand from the loosest operators on has read is an expression. -/
theorem whole (h : Sound source ks [item] rest (.expression 0)) :
    Derives source .expression ks item.bare ∧ nextPower rest ≤ 0 := by
  obtain ⟨_, hitem, hheld, hnext⟩ := h (Int.le_refl 0)
  cases hitem
  exact ⟨hheld.whole hnext, hnext⟩

theorem first {rule : PrefixRule} (h : Sound source ks [left] (ls ++ rest) (.start rule token))
    (h' : Sound source ls [n] rest (.extension least left)) :
    Sound source (token :: (ks ++ ls)) [n] rest (.climb least) := by
  intro hleast
  obtain ⟨_, hleft, hheld⟩ := h
  cases hleft
  exact h' hleast _ (hheld least)

theorem next {rule : InfixRule} (hpower : least < Program.power token.kind)
    (h : Sound source ks [longer] (ls ++ rest) (.continuation rule left token))
    (h' : Sound source ls [n] rest (.extension least longer)) :
    Sound source (token :: (ks ++ ls)) [n] rest (.extension least left) := by
  intro hleast js hheld
  rw [List.cons_append, List.append_assoc] at hheld
  obtain ⟨_, hlonger, hheld⟩ := h least js hleast hpower hheld
  cases hlonger
  obtain ⟨n', hn, hheld, hnext⟩ := h' hleast _ hheld
  refine ⟨n', hn, ?_, hnext⟩
  simpa only [List.append_assoc, List.cons_append] using hheld

theorem unary {operator : Operator} (hoperator : Operator.unary? token.kind = some operator)
    (h : Sound source ks [operand] rest (.expression Level.unary.power)) :
    Sound source ks [.unary span operator operand] rest (.start .unary token) := by
  obtain ⟨_, hoperand, hheld, hnext⟩ := h (by decide)
  cases hoperand
  refine ⟨_, rfl, fun least => ?_⟩
  rcases Held.right (Nat.zero_le 4) hheld with hd | harrow
  · exact .operation 0 (Nat.zero_le 4) (.inl rfl) (hd.unary hoperator) hnext
  · exact .dangling rfl harrow

theorem parameters {names : List String} (hk : token.kind = .openParen)
    (h : Sound source ks items rest' (.items .closeParen)) (hclose : stop.kind = .closeParen)
    (harrow : nextPower rest = 30) (hnames : items.map Tree.name? = names.map some) :
    Sound source (ks ++ [stop]) [.parameters span names] rest (.start .parenthesis token) := by
  refine ⟨_, rfl, fun least => .parameters _ (Derives.parameterList hk (Derives.names h ?_) hclose)
    rfl harrow⟩
  rw [Tree.map_name?_bareAll, hnames]

theorem grouping (hk : token.kind = .openParen)
    (h : Sound source ks [item] rest' (.items .closeParen)) (hclose : stop.kind = .closeParen) :
    Sound source (ks ++ [stop]) [item.withSpan span] rest (.start .parenthesis token) := by
  refine ⟨_, rfl, fun least => .primary ?_⟩
  rw [Tree.bare_withSpan]
  exact (Derives.group hk h hclose).atom

theorem list (hk : token.kind = .openBracket)
    (h : Sound source ks items rest' (.items .closeBracket)) (hclose : stop.kind = .closeBracket) :
    Sound source (ks ++ [stop]) [.list span items] rest (.start .list token) :=
  ⟨_, rfl, fun _ => .primary (Derives.list hk h hclose).atom⟩

theorem binary {operator : Operator} (hoperator : Operator.binary? token.kind = some operator)
    (h : Sound source ks [operand] rest (.expression (Program.power token.kind))) :
    Sound source ks [.binary span operator left operand] rest (.continuation .binary left token) := by
  obtain ⟨n, hmem⟩ := tier_of_binary hoperator
  obtain ⟨hpower, hn⟩ := power_of_tier hmem
  have hleast' : Program.power token.kind = 80 - 10 * ((n + 1 : Nat) : Int) := by omega
  rw [hleast'] at h
  intro least js hleast hless hheld
  obtain ⟨right, hright, hheld', hnext⟩ := h (by omega)
  cases hright
  have hleft : Derives source (.operation (n + 1)) js left.bare :=
    hheld.left (by omega) (by omega) (by omega)
  refine ⟨_, rfl, ?_⟩
  rcases hheld'.right (by omega) with hd | harrow
  · exact .operation (n + 1) (by omega) (.inr (by omega)) (hleft.binary hmem hoperator hd) hnext
  · exact .dangling rfl harrow

theorem assignment (hk : token.kind = .assignment) (htarget : left.isAssignable)
    (h : Sound source ks [operand] rest (.expression (Program.power token.kind - 1))) :
    Sound source ks [.assign span left operand] rest (.continuation .assignment left token) := by
  have hpower : Program.power token.kind = 10 := by rw [hk]; rfl
  rw [hpower] at h
  intro least js hleast hless hheld
  obtain ⟨value, hvalue, hheld', hnext⟩ := h (by decide)
  cases hvalue
  have hnext' := nextPower_le_zero hnext
  have hleft : Derives source (.operation 4) js left.bare :=
    hheld.left (by omega) (by omega) (by omega)
  rw [← Tree.isAssignable_bare] at htarget
  exact ⟨_, rfl, .expression (by omega) ((hleft.primary_of_isAssignable htarget).assignment
    htarget hk (hheld'.whole hnext')) hnext'⟩

theorem conditional (hk : token.kind = .question) (h : Sound source ks trees rest .body) :
    Sound source ks [.conditional span left trees] rest (.continuation .conditional left token) := by
  have hpower : Program.power token.kind = 20 := by rw [hk]; rfl
  obtain ⟨n, rfl, hd, hnext⟩ := h
  intro least js hleast hless hheld
  have hleft : Derives source (.operation 4) js left.bare :=
    hheld.left (by omega) (by omega) (by omega)
  exact ⟨_, rfl, .expression (by omega) (hleft.conditional hk hd) hnext⟩

theorem function {names : List String} (hk : token.kind = .arrow)
    (hnames : Reader.parameters? left = some names) (h : Sound source ks trees rest .body) :
    Sound source ks [.function span names trees] rest (.continuation .function left token) := by
  have hpower : Program.power token.kind = 30 := by rw [hk]; rfl
  obtain ⟨n, rfl, hd, hnext⟩ := h
  intro least js hleast hless hheld
  exact ⟨_, rfl, .expression (by omega) ((hheld.names hpower hnames).function hk hd) hnext⟩

theorem call (hk : token.kind = .openParen) (h : Sound source ks items rest' (.items .closeParen))
    (hclose : stop.kind = .closeParen) :
    Sound source (ks ++ [stop]) [.call span left items] rest (.continuation .call left token) :=
  fun _ _ _ _ hheld =>
    ⟨_, rfl, .primary (Derives.call (hheld.callee (by rw [hk]; rfl)) hk h hclose)⟩

theorem index (hk : token.kind = .openBracket) (h : Sound source ks [item] rest' (.expression 0))
    (hclose : stop.kind = .closeBracket) :
    Sound source (ks ++ [stop]) [.index span left item] rest (.continuation .index left token) :=
  fun _ _ _ _ hheld =>
    ⟨_, rfl, .primary (Derives.index (hheld.callee (by rw [hk]; rfl)) hk h.whole.1 hclose)⟩

/-- On one line a statement takes all tokens. -/
theorem statement {level : Nat} (hks : ks ≠ []) (h : Sound source ks [item] (ls ++ rest) (.expression 0))
    (hdone : ls ++ rest = []) (h' : Sound source ls trees rest (.statements level)) :
    Sound source (ks ++ ls) (item :: trees) rest (.statements level) := by
  intro hlevel
  have hnil := h' hlevel
  rw [if_pos hdone] at hnil
  obtain ⟨rfl, rfl⟩ := List.append_eq_nil_iff.1 hdone
  rw [List.append_nil, List.append_nil, if_neg hks, hnil]
  exact ⟨_, rfl, h.whole.1, rfl⟩

end Sound

variable {task : Task} {s t : State} {out : List Tree}

/-- A run on one line has read what the grammar derives. -/
theorem sound (h : Run (Program.setup source settings) task s out t) (hs : OnLine s)
    (hf : Program.Fits task) : ∃ ks, s.Passes ks t ∧ Sound source ks out t.ahead task := by
  induction h with
  | nested _ _ ih =>
    obtain ⟨ks, h, hsound⟩ := ih (hs.nested _) trivial
    exact ⟨ks, ⟨h.ahead, h.passed, h.indentation, h.groups, by simp [h.depth]⟩, hsound⟩
  | first htoken hrule _ _ ih ih' =>
    rw [hs.skipGroupedLineBreaks] at htoken
    have ht := hs.passes htoken.passes
    obtain ⟨ks, h, hstart⟩ := ih ht (Program.fits_start hrule)
    obtain ⟨ls, h', hextension⟩ := ih' (ht.passes h) trivial
    rw [h'.ahead] at hstart
    exact ⟨_, (htoken.passes.trans h).trans h', hstart.first hextension⟩
  | stop hloose =>
    refine ⟨[], .refl _, fun hleast js hheld => ⟨_, rfl, ?_, hs.nextPower_le hleast hloose⟩⟩
    rw [List.append_nil]
    exact hheld
  | @next _ _ _ _ _ _ _ _ token _ htight htoken hrule _ _ ih ih' =>
    rw [hs.skipGroupedLineBreaks] at htoken
    have ht := hs.passes htoken.passes
    obtain ⟨ks, h, hcontinuation⟩ := ih ht (Program.fits_continuation hrule)
    obtain ⟨ls, h', hextension⟩ := ih' (ht.passes h) trivial
    rw [h'.ahead] at hcontinuation
    refine ⟨_, (htoken.passes.trans h).trans h', hcontinuation.next ?_ hextension⟩
    rw [hs.power, htoken.passes.ahead] at htight
    exact Int.not_le.1 fun hle => htight (.inr hle)
  | @identifier token s =>
    have hk := Program.kind_of_prefixRule hf
    exact ⟨[], .refl _, _, rfl, fun _ =>
      .primary (Derives.atom ⟨.identifier ⟨token, hk⟩, trivial, rfl, rfl⟩)⟩
  | @number token s value hvalue =>
    have hk := Program.kind_of_prefixRule hf
    refine ⟨[], .refl _, _, rfl, fun _ =>
      .primary (Derives.atom ⟨.number ⟨token, hk⟩, trivial, rfl, ?_⟩)⟩
    rw [Program.setup_source] at hvalue
    simp only [Phrase.meaning, numberOf, hvalue, Option.getD_some, Tree.bare]
  | @string token s cs hinside =>
    have hk := Program.kind_of_prefixRule hf
    refine ⟨[], .refl _, _, rfl, fun _ =>
      .primary (Derives.atom ⟨.string ⟨token, hk⟩, trivial, rfl, ?_⟩)⟩
    rw [Program.setup_source] at hinside
    simp only [Phrase.meaning, stringOf, hinside, Option.map_some, Option.getD_some, Tree.bare]
  | @boolean token s =>
    refine ⟨[], .refl _, _, rfl, fun _ => .primary (Derives.atom ?_)⟩
    rcases Program.kind_of_prefixRule hf with hk | hk
    · exact ⟨.trueWord ⟨token, hk⟩, trivial, rfl, by simp [Phrase.meaning, Tree.bare, hk]⟩
    · exact ⟨.falseWord ⟨token, hk⟩, trivial, rfl, by simp [Phrase.meaning, Tree.bare, hk]⟩
  | unary hoperator _ ih =>
    obtain ⟨ks, h, hsound⟩ := ih hs trivial
    exact ⟨ks, h, hsound.unary hoperator⟩
  | parameters _ hstop harrow hnames ih =>
    obtain ⟨ks, h, hsound⟩ := ih hs.openGroup trivial
    exact ⟨_, hstop.passes h, hsound.parameters (Program.kind_of_prefixRule hf) hstop.kind_eq
      (nextPower_of_isNext_arrow harrow) hnames⟩
  | grouping _ hstop harrow ih =>
    obtain ⟨ks, h, hsound⟩ := ih hs.openGroup trivial
    exact ⟨_, hstop.passes h, hsound.grouping (Program.kind_of_prefixRule hf) hstop.kind_eq⟩
  | list _ hstop ih =>
    obtain ⟨ks, h, hsound⟩ := ih hs.openGroup trivial
    exact ⟨_, hstop.passes h, hsound.list (Program.kind_of_prefixRule hf) hstop.kind_eq⟩
  | binary hoperator _ ih =>
    obtain ⟨ks, h, hsound⟩ := ih hs trivial
    rw [Program.setup_power] at hsound
    exact ⟨ks, h, hsound.binary hoperator⟩
  | assignment htarget _ ih =>
    obtain ⟨ks, h, hsound⟩ := ih hs trivial
    rw [Program.setup_power] at hsound
    exact ⟨ks, h, hsound.assignment (Program.kind_of_infixRule hf) htarget⟩
  | conditional _ ih =>
    obtain ⟨ks, h, hsound⟩ := ih hs trivial
    exact ⟨ks, h, hsound.conditional (Program.kind_of_infixRule hf)⟩
  | function hnames _ ih =>
    obtain ⟨ks, h, hsound⟩ := ih hs trivial
    exact ⟨ks, h, hsound.function (Program.kind_of_infixRule hf) hnames⟩
  | call _ hstop ih =>
    obtain ⟨ks, h, hsound⟩ := ih hs.openGroup trivial
    exact ⟨_, hstop.passes h, hsound.call (Program.kind_of_infixRule hf) hstop.kind_eq⟩
  | index _ hstop ih =>
    obtain ⟨ks, h, hsound⟩ := ih hs.openGroup trivial
    rw [(hs.openGroup.passes h).skipLineBreaks] at hstop
    exact ⟨_, hstop.passes h, hsound.index (Program.kind_of_infixRule hf) hstop.kind_eq⟩
  | noItems hclosed =>
    rw [hs.skipLineBreaks]
    exact ⟨[], .refl _, .noArguments, trivial, rfl, rfl⟩
  | lastItem hopen _ hlast ih =>
    rw [hs.skipLineBreaks] at ih
    obtain ⟨ks, h, hsound⟩ := ih hs trivial
    rw [(hs.passes h).skipLineBreaks]
    exact ⟨ks, h, hsound.whole.1.lastArgument⟩
  | item hopen _ hcomma hkind _ ih ih' =>
    rw [hs.skipLineBreaks] at ih
    obtain ⟨ks, h, hsound⟩ := ih hs trivial
    have ht := hs.passes h
    rw [ht.skipLineBreaks] at hcomma
    obtain ⟨ls, h', hitems⟩ := ih' (ht.passes hcomma.passes) trivial
    exact ⟨_, h.trans (hcomma.passes.trans h'), hsound.whole.1.argument hkind hitems⟩
  | noTokens hdone =>
    rw [hs.skipLineBreaks] at hdone ⊢
    refine ⟨[], .refl _, fun _ => ?_⟩
    rw [List.nil_append, if_pos]
    simpa [State.current?] using hdone
  | outdent htoken hcolumn =>
    refine ⟨_, State.passes_skipLineBreaks _, fun hlevel => ?_⟩
    omega
  | statement htoken _ _ hline _ ih ih' =>
    rw [hs.skipLineBreaks] at ih htoken
    obtain ⟨ks, h, hsound⟩ := ih hs trivial
    have ht := hs.passes h
    obtain ⟨hdone, rfl⟩ := ht.endsLine hline
    obtain ⟨ls, h', htrees⟩ := ih' ht trivial
    have hks : ks ≠ [] := by
      rintro rfl
      rw [State.current?, h.ahead, hdone] at htoken
      cases htoken
    rw [h'.ahead] at hsound hdone
    exact ⟨_, h.trans h', Sound.statement hks hsound hdone htrees⟩
  | inlineBody hinline _ ih =>
    obtain ⟨ks, h, hsound⟩ := ih hs trivial
    exact ⟨ks, h, _, rfl, hsound.whole⟩
  | indentedBody hbreak _ _ _ _ _ =>
    obtain ⟨token, htoken, hk⟩ := State.isNext_iff.1 hbreak
    obtain ⟨rest, hrest⟩ := State.current?_eq_some_iff.1 htoken
    exact absurd hk (hs.ahead token (by rw [hrest]; exact List.mem_cons_self))

/-- The statements of one line are none without a token, and otherwise one expression of the grammar. -/
theorem derives_of_run {indentWidth : Nat} {tokens : List Token} {trees : List Tree}
    (hline : ∀ t ∈ tokens, t.kind ≠ .newline)
    (h : Run (Program.setup source settings) (.statements 0) (.start indentWidth tokens) trees t) :
    if tokens = [] then trees = []
    else ∃ n, trees = [n] ∧ Derives source .expression tokens n.bare := by
  obtain ⟨ks, hp, hsound⟩ := sound h ⟨hline, rfl⟩ trivial
  have hahead : t.ahead = [] := h.ahead_of_statements rfl
  have hks : tokens = ks := by
    have hs : tokens = ks ++ t.ahead := hp.ahead
    rwa [hahead, List.append_nil] at hs
  have htrees := hsound rfl
  rw [hahead, List.append_nil, ← hks] at htrees
  split at htrees
  next hnil => rwa [if_pos hnil]
  next hnil =>
    obtain ⟨n, hn, hd, _⟩ := htrees
    rw [if_neg hnil]
    exact ⟨n, hn, hd⟩

end Offside.OneLine
