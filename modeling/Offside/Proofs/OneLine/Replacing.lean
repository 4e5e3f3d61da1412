import Offside.Proofs.Nesting
import Offside.Proofs.OneLine.Soundness

set_option autoImplicit false

/-!
# Replacing nodes

Every node of a tree that is read on one line has derived from tokens of its own. Any atom that means the
same can take their place, and the whole still means what it did, however tightly the operators beside the
node bind.
-/
namespace Offside.OneLine

open Reading

variable {source : String} {settings : Settings}

/-- The tree derives from a part of the tokens, and with any atom in its place that means the same the tokens
keep the property. -/
def Replaceable (source : String) (P : List Token → Prop) (ks : List Token) (n : Tree) : Prop :=
  ∃ js is ls, ks = js ++ (is ++ ls) ∧ Delimits is n.span ∧ Derives source .expression is n.bare ∧
    ∀ ms, Derives source .atom ms n.bare → P (js ++ (ms ++ ls))

namespace Replaceable

variable {P Q : List Token → Prop} {ks : List Token} {n : Tree}

theorem whole (hspan : Delimits ks n.span) (hd : Derives source .expression ks n.bare)
    (hP : ∀ ms, Derives source .atom ms n.bare → P ms) : Replaceable source P ks n :=
  ⟨[], ks, [], by simp, hspan, hd, fun ms hms => by simpa using hP ms hms⟩

/-- What can be replaced in a part can be replaced in the whole. -/
theorem inside (as bs : List Token) (h : Replaceable source P ks n)
    (hP : ∀ ms, P ms → Q (as ++ (ms ++ bs))) : Replaceable source Q (as ++ (ks ++ bs)) n := by
  obtain ⟨js, is, ls, rfl, hspan, hd, hms⟩ := h
  refine ⟨as ++ js, is, ls ++ bs, by simp, hspan, hd, fun ms hm => ?_⟩
  simpa using hP _ (hms ms hm)

theorem imp (h : Replaceable source P ks n) (hP : ∀ ms, P ms → Q ms) : Replaceable source Q ks n := by
  obtain ⟨js, is, ls, hks, hspan, hd, hms⟩ := h
  exact ⟨js, is, ls, hks, hspan, hd, fun ms hm => hP _ (hms ms hm)⟩

end Replaceable

/-- Every node of a tree that was read can be replaced, unless an arrow follows. -/
def Flexible (source : String) (least : Int) (ks : List Token) (n : Tree) (rest : List Token) : Prop :=
  nextPower rest ≠ 30 → n.Everywhere (Replaceable source (Held source least · n rest) ks)

/-- Which nodes can be replaced of what a run on one line has read, behind what it was given: the tokens
`ks` up to `rest`. -/
def Replaces (source : String) (ks : List Token) (out : List Tree) (rest : List Token) : Task → Prop
  | .expression least | .climb least => 0 ≤ least → ∀ n ∈ out, Flexible source least ks n rest
  | .extension least left => 0 ≤ least → ∀ js, Held source least js left (ks ++ rest) →
    Delimits js left.span → Flexible source least js left (ks ++ rest) →
    ∀ n ∈ out, Flexible source least (js ++ ks) n rest
  | .start rule token => nextPower rest ≠ 30 → ∀ n ∈ out, ∀ c ∈ n.children,
    c.Everywhere (Replaceable source (Sound source · out rest (.start rule token)) ks)
  | .continuation rule left token => nextPower rest ≠ 30 → ∀ n ∈ out, ∀ c ∈ n.children,
    c = left ∧ Program.power token.kind ≠ 30 ∨
      c.Everywhere (Replaceable source (Sound source · out rest (.continuation rule left token)) ks)
  | .items close => ∀ n ∈ out, n.Everywhere (Replaceable source (Sound source · out rest (.items close)) ks)
  | .body => ∀ n ∈ out, n.Everywhere (Replaceable source (Sound source · out rest .body) ks)
  | .statements level => level = 0 → ∀ n ∈ out,
    n.Everywhere (Replaceable source (Derives source .expression · n.bare) ks)

namespace Replaces

variable {ks ls rest rest' : List Token} {token stop : Token} {span : Span} {least : Int}
  {left longer operand item n : Tree} {items trees : List Tree}

/-- What an operand was read from can be replaced in it. -/
theorem of_expression (h : Replaces source ks [item] rest (.expression least))
    (hsound : Sound source ks [item] rest (.expression least)) (hleast : 0 ≤ least)
    (hnext : nextPower rest ≠ 30) :
    item.Everywhere (Replaceable source (Sound source · [item] rest (.expression least)) ks) := by
  obtain ⟨_, hitem, _, hle⟩ := hsound hleast
  cases hitem
  exact (h hleast item (List.mem_singleton_self item) hnext).imp fun m hm =>
    hm.imp fun ms hheld _ => ⟨item, rfl, hheld, hle⟩

theorem whole (h : Replaces source ks [item] rest (.expression 0))
    (hsound : Sound source ks [item] rest (.expression 0)) :
    item.Everywhere (Replaceable source (Sound source · [item] rest (.expression 0)) ks) :=
  h.of_expression hsound (Int.le_refl 0) (by have := hsound.whole.2; omega)

theorem first {rule : PrefixRule} (hstart : Replaces source ks [left] (ls ++ rest) (.start rule token))
    (hsound : Sound source ks [left] (ls ++ rest) (.start rule token))
    (hspan : Delimits (token :: ks) left.span)
    (hextension : Replaces source ls [n] rest (.extension least left)) :
    Replaces source (token :: (ks ++ ls)) [n] rest (.climb least) := by
  intro hleast
  obtain ⟨_, hleft, hheld⟩ := id hsound
  cases hleft
  refine hextension hleast (token :: ks) (hheld least) hspan fun hnext => .node ?_ fun c hc => ?_
  · exact .whole hspan ((hheld least).derives hnext) fun ms hms => .primary hms.atom
  · refine (hstart hnext left (List.mem_singleton_self left) c hc).imp fun m hm => ?_
    have hinside := hm.inside (Q := (Held source least · left (ls ++ rest))) [token] [] fun ms hms => by
      obtain ⟨_, hleft, hheld⟩ := hms
      cases hleft
      simpa using hheld least
    simpa using hinside

theorem next {rule : InfixRule} (hpower : least < Program.power token.kind)
    (hcontinuation : Replaces source ks [longer] (ls ++ rest) (.continuation rule left token))
    (hsound : Sound source ks [longer] (ls ++ rest) (.continuation rule left token))
    (hspan : ∀ js, Delimits js left.span → Delimits (js ++ token :: ks) longer.span)
    (hextension : Replaces source ls [n] rest (.extension least longer)) :
    Replaces source (token :: (ks ++ ls)) [n] rest (.extension least left) := by
  intro hleast js hheld hjs hflexible
  rw [List.cons_append, List.append_assoc] at hheld hflexible
  obtain ⟨_, hlonger, hheld'⟩ := hsound least js hleast hpower hheld
  cases hlonger
  have hflexible' : Flexible source least (js ++ token :: ks) longer (ls ++ rest) := by
    refine fun hnext => .node (.whole (hspan js hjs) (hheld'.derives hnext) fun ms hms => .primary hms.atom)
      fun c hc => ?_
    rcases hcontinuation hnext longer (List.mem_singleton_self longer) c hc with ⟨rfl, hne⟩ | hc
    · refine (hflexible hne).imp fun m hm => ?_
      refine hm.inside (Q := (Held source least · longer (ls ++ rest))) [] (token :: ks) fun ms hms => ?_
      obtain ⟨_, hlonger, hheld⟩ := hsound least ms hleast hpower hms
      cases hlonger
      exact hheld
    · refine hc.imp fun m hm => ?_
      have hinside := hm.inside (Q := (Held source least · longer (ls ++ rest))) (js ++ [token]) []
        fun ms hms => by
          obtain ⟨_, hlonger, hheld⟩ := hms least js hleast hpower (hheld.congr rfl)
          cases hlonger
          simpa using hheld
      simpa using hinside
  have hlast := hextension hleast _ hheld' (hspan js hjs) hflexible'
  simpa using hlast

theorem unary {operator : Operator} (hoperator : Operator.unary? token.kind = some operator)
    (h : Replaces source ks [operand] rest (.expression Level.unary.power))
    (hsound : Sound source ks [operand] rest (.expression Level.unary.power)) :
    Replaces source ks [.unary span operator operand] rest (.start .unary token) := by
  intro hnext
  refine List.forall_mem_singleton.2 (List.forall_mem_singleton.2 ?_)
  exact (h.of_expression hsound (by decide) hnext).imp fun m hm => hm.imp fun ms hms => hms.unary hoperator

theorem grouping (hk : token.kind = .openParen)
    (h : Replaces source ks [item] rest' (.items .closeParen)) (hclose : stop.kind = .closeParen) :
    Replaces source (ks ++ [stop]) [item.withSpan span] rest (.start .parenthesis token) := by
  intro _
  refine List.forall_mem_singleton.2 ?_
  rw [Tree.children_withSpan]
  intro c hc
  refine ((h item (List.mem_singleton_self item)).children c hc).imp fun m hm => ?_
  exact hm.inside [] [stop] fun ms hms => hms.grouping hk hclose

theorem list (hk : token.kind = .openBracket)
    (h : Replaces source ks items rest' (.items .closeBracket)) (hclose : stop.kind = .closeBracket) :
    Replaces source (ks ++ [stop]) [.list span items] rest (.start .list token) := by
  intro _
  refine List.forall_mem_singleton.2 fun c hc => (h c hc).imp fun m hm => ?_
  exact hm.inside [] [stop] fun ms hms => hms.list hk hclose

theorem binary {operator : Operator} (hoperator : Operator.binary? token.kind = some operator)
    (h : Replaces source ks [operand] rest (.expression (Program.power token.kind)))
    (hsound : Sound source ks [operand] rest (.expression (Program.power token.kind))) :
    Replaces source ks [.binary span operator left operand] rest (.continuation .binary left token) := by
  obtain ⟨n, hmem⟩ := tier_of_binary hoperator
  obtain ⟨hpower, hn⟩ := power_of_tier hmem
  intro hnext
  refine List.forall_mem_singleton.2 (List.forall_mem_cons.2 ⟨.inl ⟨rfl, by omega⟩,
    List.forall_mem_singleton.2 (.inr ?_)⟩)
  exact (h.of_expression hsound (by omega) hnext).imp fun m hm => hm.imp fun ms hms => hms.binary hoperator

theorem assignment (hk : token.kind = .assignment) (htarget : left.isAssignable)
    (h : Replaces source ks [operand] rest (.expression (Program.power token.kind - 1)))
    (hsound : Sound source ks [operand] rest (.expression (Program.power token.kind - 1))) :
    Replaces source ks [.assign span left operand] rest (.continuation .assignment left token) := by
  have hpower : Program.power token.kind = 10 := by rw [hk]; rfl
  intro hnext
  refine List.forall_mem_singleton.2 (List.forall_mem_cons.2 ⟨.inl ⟨rfl, by omega⟩,
    List.forall_mem_singleton.2 (.inr ?_)⟩)
  exact (h.of_expression hsound (by omega) hnext).imp fun m hm => hm.imp fun ms hms =>
    hms.assignment hk htarget

theorem conditional (hk : token.kind = .question) (h : Replaces source ks trees rest .body) :
    Replaces source ks [.conditional span left trees] rest (.continuation .conditional left token) := by
  have hpower : Program.power token.kind = 20 := by rw [hk]; rfl
  intro _
  refine List.forall_mem_singleton.2 (List.forall_mem_cons.2 ⟨.inl ⟨rfl, by omega⟩, fun c hc => .inr ?_⟩)
  exact (h c hc).imp fun m hm => hm.imp fun ms hms => hms.conditional hk

theorem function {names : List String} (hk : token.kind = .arrow)
    (hnames : Reader.parameters? left = some names) (h : Replaces source ks trees rest .body) :
    Replaces source ks [.function span names trees] rest (.continuation .function left token) := by
  intro _
  refine List.forall_mem_singleton.2 fun c hc => .inr ?_
  exact (h c hc).imp fun m hm => hm.imp fun ms hms => hms.function hk hnames

theorem call (hk : token.kind = .openParen) (h : Replaces source ks items rest' (.items .closeParen))
    (hclose : stop.kind = .closeParen) :
    Replaces source (ks ++ [stop]) [.call span left items] rest (.continuation .call left token) := by
  have hpower : Program.power token.kind = 90 := by rw [hk]; rfl
  intro _
  refine List.forall_mem_singleton.2 (List.forall_mem_cons.2 ⟨.inl ⟨rfl, by omega⟩, fun c hc => .inr ?_⟩)
  exact (h c hc).imp fun m hm => hm.inside [] [stop] fun ms hms => hms.call hk hclose

theorem index (hk : token.kind = .openBracket) (h : Replaces source ks [item] rest' (.expression 0))
    (hsound : Sound source ks [item] rest' (.expression 0)) (hclose : stop.kind = .closeBracket) :
    Replaces source (ks ++ [stop]) [.index span left item] rest (.continuation .index left token) := by
  have hpower : Program.power token.kind = 90 := by rw [hk]; rfl
  intro _
  refine List.forall_mem_singleton.2 (List.forall_mem_cons.2 ⟨.inl ⟨rfl, by omega⟩,
    List.forall_mem_singleton.2 (.inr ?_)⟩)
  exact (h.whole hsound).imp fun m hm => hm.inside [] [stop] fun ms hms => hms.index hk hclose

theorem cons_item {close : Kind} {comma : Token} (h : Replaces source ks [item] rest' (.expression 0))
    (hsound : Sound source ks [item] rest' (.expression 0)) (hkind : comma.kind = .comma)
    (hitems : Replaces source ls items rest (.items close))
    (hsound' : Sound source ls items rest (.items close)) :
    Replaces source (ks ++ comma :: ls) (item :: items) rest (.items close) := by
  refine List.forall_mem_cons.2
    ⟨(h.whole hsound).imp fun m hm => ?_, fun n hn => (hitems n hn).imp fun m hm => ?_⟩
  · exact hm.inside [] _ fun ms hms => hms.whole.1.argument hkind hsound'
  · have hinside := hm.inside (Q := (Sound source · (item :: items) rest (.items close))) (ks ++ [comma]) []
      fun ms hms => by
        rw [List.append_assoc, List.append_nil]
        exact hsound.whole.1.argument hkind hms
    simpa using hinside

end Replaces

variable {task : Task} {s t : State} {out : List Tree} {ks : List Token}

theorem sound_of_passes (h : Run (Program.setup source settings) task s out t) (hs : OnLine s)
    (hf : Program.Fits task) (hp : s.Passes ks t) :
    Sound source ks out t.ahead task ∧ Run.Spans ks out task := by
  obtain ⟨js, hp', hsound⟩ := sound h hs hf
  obtain ⟨ls, hp'', hspans⟩ := h.spans hf
  obtain rfl := hp.unique hp'
  obtain rfl := hp.unique hp''
  exact ⟨hsound, hspans⟩

/-- A run on one line gives trees whose nodes can be replaced. -/
theorem replaces (h : Run (Program.setup source settings) task s out t) (hs : OnLine s)
    (hf : Program.Fits task) : ∃ ks, s.Passes ks t ∧ Replaces source ks out t.ahead task := by
  induction h with
  | nested _ _ ih =>
    obtain ⟨ks, h, hreplaces⟩ := ih (hs.nested _) trivial
    exact ⟨ks, ⟨h.ahead, h.passed, h.indentation, h.groups, by simp [h.depth]⟩, hreplaces⟩
  | first htoken hrule hstart _ ih ih' =>
    rw [hs.skipGroupedLineBreaks] at htoken
    have ht := hs.passes htoken.passes
    have hfits := Program.fits_start hrule
    obtain ⟨ks, h, hreplaces⟩ := ih ht hfits
    obtain ⟨ls, h', hextension⟩ := ih' (ht.passes h) trivial
    obtain ⟨hsound, hspans⟩ := sound_of_passes hstart ht hfits h
    rw [h'.ahead] at hsound hreplaces
    exact ⟨_, (htoken.passes.trans h).trans h',
      hreplaces.first hsound (hspans _ (List.mem_singleton_self _)) hextension⟩
  | stop =>
    refine ⟨[], .refl _, fun _ js _ _ hflexible => List.forall_mem_singleton.2 ?_⟩
    rwa [List.append_nil]
  | @next _ _ _ _ _ left _ _ token rule htight htoken hrule hcontinuation _ ih ih' =>
    rw [hs.skipGroupedLineBreaks] at htoken
    have ht := hs.passes htoken.passes
    have hfits : Program.Fits (.continuation rule left token) := Program.fits_continuation hrule
    obtain ⟨ks, h, hreplaces⟩ := ih ht hfits
    obtain ⟨ls, h', hextension⟩ := ih' (ht.passes h) trivial
    obtain ⟨hsound, hspans⟩ := sound_of_passes hcontinuation ht hfits h
    rw [h'.ahead] at hsound hreplaces
    refine ⟨_, (htoken.passes.trans h).trans h', hreplaces.next ?_ hsound
      (fun js hjs => hspans js hjs _ (List.mem_singleton_self _)) hextension⟩
    rw [hs.power, htoken.passes.ahead] at htight
    exact Int.not_le.1 fun hle => htight (.inr hle)
  | identifier | number | string | boolean =>
    exact ⟨[], .refl _, fun _ => List.forall_mem_singleton.2 (List.forall_mem_nil _)⟩
  | unary hoperator hoperand ih =>
    obtain ⟨ks, h, hreplaces⟩ := ih hs trivial
    exact ⟨ks, h, hreplaces.unary hoperator (sound_of_passes hoperand hs trivial h).1⟩
  | parameters _ hstop _ _ ih =>
    obtain ⟨ks, h, _⟩ := ih hs.openGroup trivial
    exact ⟨_, hstop.passes h, fun _ => List.forall_mem_singleton.2 (List.forall_mem_nil _)⟩
  | grouping _ hstop _ ih =>
    obtain ⟨ks, h, hreplaces⟩ := ih hs.openGroup trivial
    exact ⟨_, hstop.passes h, hreplaces.grouping (Program.kind_of_prefixRule hf) hstop.kind_eq⟩
  | list _ hstop ih =>
    obtain ⟨ks, h, hreplaces⟩ := ih hs.openGroup trivial
    exact ⟨_, hstop.passes h, hreplaces.list (Program.kind_of_prefixRule hf) hstop.kind_eq⟩
  | binary hoperator hoperand ih =>
    obtain ⟨ks, h, hreplaces⟩ := ih hs trivial
    have hsound := (sound_of_passes hoperand hs trivial h).1
    rw [Program.setup_power] at hreplaces hsound
    exact ⟨ks, h, hreplaces.binary hoperator hsound⟩
  | assignment htarget hvalue ih =>
    obtain ⟨ks, h, hreplaces⟩ := ih hs trivial
    have hsound := (sound_of_passes hvalue hs trivial h).1
    rw [Program.setup_power] at hreplaces hsound
    exact ⟨ks, h, hreplaces.assignment (Program.kind_of_infixRule hf) htarget hsound⟩
  | conditional _ ih =>
    obtain ⟨ks, h, hreplaces⟩ := ih hs trivial
    exact ⟨ks, h, hreplaces.conditional (Program.kind_of_infixRule hf)⟩
  | function hnames _ ih =>
    obtain ⟨ks, h, hreplaces⟩ := ih hs trivial
    exact ⟨ks, h, hreplaces.function (Program.kind_of_infixRule hf) hnames⟩
  | call _ hstop ih =>
    obtain ⟨ks, h, hreplaces⟩ := ih hs.openGroup trivial
    exact ⟨_, hstop.passes h, hreplaces.call (Program.kind_of_infixRule hf) hstop.kind_eq⟩
  | index hitem hstop ih =>
    obtain ⟨ks, h, hreplaces⟩ := ih hs.openGroup trivial
    have hsound := (sound_of_passes hitem hs.openGroup trivial h).1
    rw [(hs.openGroup.passes h).skipLineBreaks] at hstop
    exact ⟨_, hstop.passes h, hreplaces.index (Program.kind_of_infixRule hf) hsound hstop.kind_eq⟩
  | noItems =>
    rw [hs.skipLineBreaks]
    exact ⟨[], .refl _, List.forall_mem_nil _⟩
  | lastItem _ hitem _ ih =>
    rw [hs.skipLineBreaks] at ih hitem
    obtain ⟨ks, h, hreplaces⟩ := ih hs trivial
    have hsound := (sound_of_passes hitem hs trivial h).1
    rw [(hs.passes h).skipLineBreaks]
    refine ⟨ks, h, List.forall_mem_singleton.2 ((hreplaces.whole hsound).imp fun m hm => ?_)⟩
    exact hm.imp fun ms hms => hms.whole.1.lastArgument
  | item _ hitem hcomma hkind hitems ih ih' =>
    rw [hs.skipLineBreaks] at ih hitem
    obtain ⟨ks, h, hreplaces⟩ := ih hs trivial
    have hsound := (sound_of_passes hitem hs trivial h).1
    have ht := hs.passes h
    rw [ht.skipLineBreaks] at hcomma
    have hu := ht.passes hcomma.passes
    obtain ⟨ls, h', hrest⟩ := ih' hu trivial
    have hsound' := (sound_of_passes hitems hu trivial h').1
    exact ⟨_, h.trans (hcomma.passes.trans h'), hreplaces.cons_item hsound hkind hrest hsound'⟩
  | noTokens | outdent => exact ⟨_, State.passes_skipLineBreaks _, fun _ => List.forall_mem_nil _⟩
  | statement _ _ htree hline htrees ih ih' =>
    rw [hs.skipLineBreaks] at ih htree
    obtain ⟨ks, h, hreplaces⟩ := ih hs trivial
    have hsound := (sound_of_passes htree hs trivial h).1
    have ht := hs.passes h
    obtain ⟨hdone, rfl⟩ := ht.endsLine hline
    obtain ⟨ls, h', _⟩ := ih' ht trivial
    refine ⟨_, h.trans h', fun hlevel => ?_⟩
    have hnil := (sound_of_passes htrees ht trivial h').1 hlevel
    rw [h'.ahead] at hdone
    rw [if_pos hdone] at hnil
    obtain ⟨rfl, _⟩ := List.append_eq_nil_iff.1 hdone
    rw [hnil, List.append_nil]
    exact List.forall_mem_singleton.2 ((hreplaces.whole hsound).imp fun m hm => hm.imp fun ms hms =>
      hms.whole.1)
  | inlineBody _ htree ih =>
    obtain ⟨ks, h, hreplaces⟩ := ih hs trivial
    have hsound := (sound_of_passes htree hs trivial h).1
    refine ⟨ks, h, List.forall_mem_singleton.2 ((hreplaces.whole hsound).imp fun m hm => ?_)⟩
    exact hm.imp fun ms hms => ⟨_, rfl, hms.whole⟩
  | indentedBody hbreak =>
    obtain ⟨token, htoken, hk⟩ := State.isNext_iff.1 hbreak
    exact absurd hk (hs.ahead token (List.mem_of_mem_head? htoken))

/-- Every node of a program on one line can be replaced in it. -/
theorem replaceable_of_run {indentWidth : Nat} {tokens : List Token} {trees : List Tree}
    (hline : ∀ t ∈ tokens, t.kind ≠ .newline)
    (h : Run (Program.setup source settings) (.statements 0) (.start indentWidth tokens) trees t) :
    ∀ n ∈ trees, n.Everywhere (Replaceable source (Derives source .expression · n.bare) tokens) := by
  obtain ⟨ks, hp, hreplaces⟩ := replaces h ⟨hline, rfl⟩ trivial
  have hahead : tokens = ks ++ t.ahead := hp.ahead
  rw [h.ahead_of_statements rfl, List.append_nil] at hahead
  exact hahead ▸ hreplaces rfl

end Offside.OneLine
