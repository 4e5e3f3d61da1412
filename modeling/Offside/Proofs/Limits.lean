import Mathlib.Order.UpperLower.Basic
import Offside.Proofs.Run.Reported

set_option autoImplicit false

/-!
# The nesting limit

A larger limit changes nothing but what ran into the smaller one, and a limit above the number of tokens is
never reached: each open expression has passed a token of its own.
-/
namespace Offside

open Reading

/-- The cause is that expressions are nested too deeply. -/
def Cause.IsLimit : Cause → Prop
  | .nestedTooDeeply _ => True
  | _ => False

/-- The same setup with another nesting limit. -/
def Setup.withLimit {P I : Type} (setup : Setup P I) (limit : Nat) : Setup P I :=
  { setup with settings := { setup.settings with maxDepth := limit } }

variable {setup : Setup PrefixRule InfixRule} {limit : Nat} {task : Task} {s t : State}
  {out : List Tree} {d : Diagnostic}

/-- Under a larger limit the same is read. -/
theorem Run.withLimit (h : Run setup task s out t) (hlimit : setup.settings.maxDepth ≤ limit) :
    Run (setup.withLimit limit) task s out t := by
  induction h with
  | nested hdepth _ ih => exact .nested (Nat.lt_of_lt_of_le hdepth hlimit) ih
  | first htoken hrule _ _ ih ih' => exact .first htoken hrule ih ih'
  | stop hloose => exact .stop hloose
  | next htight htoken hrule _ _ ih ih' => exact .next htight htoken hrule ih ih'
  | identifier => exact .identifier
  | number hvalue => exact .number hvalue
  | string hinside => exact .string hinside
  | boolean => exact .boolean
  | unary hoperator _ ih => exact .unary hoperator ih
  | parameters _ hstop harrow hnames ih => exact .parameters ih hstop harrow hnames
  | grouping _ hstop harrow ih => exact .grouping ih hstop harrow
  | list _ hstop ih => exact .list ih hstop
  | binary hoperator _ ih => exact .binary hoperator ih
  | assignment htarget _ ih => exact .assignment htarget ih
  | conditional _ ih => exact .conditional ih
  | function hnames _ ih => exact .function hnames ih
  | call _ hstop ih => exact .call ih hstop
  | index _ hstop ih => exact .index ih hstop
  | noItems hclosed => exact .noItems hclosed
  | lastItem hopen _ hlast ih => exact .lastItem hopen ih hlast
  | item hopen _ hcomma hkind _ ih ih' => exact .item hopen ih hcomma hkind ih'
  | noTokens hdone => exact .noTokens hdone
  | outdent htoken hcolumn => exact .outdent htoken hcolumn
  | statement htoken hcolumn _ hline _ ih ih' => exact .statement htoken hcolumn ih hline ih'
  | inlineBody hinline _ ih => exact .inlineBody hinline ih
  | indentedBody hbreak htoken hcolumn _ hclose ih =>
    exact .indentedBody hbreak htoken hcolumn ih hclose

namespace Failure

/-- Under a larger limit the same is reported, unless it was that expressions are nested too deeply. -/
theorem withLimit (h : Failure setup task s d) (hlimit : setup.settings.maxDepth ≤ limit)
    (hd : ¬d.cause.IsLimit) : Failure (setup.withLimit limit) task s d := by
  induction h with
  | limit _ => exact absurd trivial hd
  | nested hdepth _ ih => exact .nested (Nat.lt_of_lt_of_le hdepth hlimit) (ih hd)
  | noToken hdone => exact .noToken hdone
  | noPrefix htoken hrule => exact .noPrefix htoken hrule
  | start htoken hrule _ ih => exact .start htoken hrule (ih hd)
  | extension htoken hrule hstart _ ih =>
    exact .extension htoken hrule (hstart.withLimit hlimit) (ih hd)
  | noOperator htight hdone => exact .noOperator htight hdone
  | noInfix htight htoken hrule => exact .noInfix htight htoken hrule
  | continuation htight htoken hrule _ ih => exact .continuation htight htoken hrule (ih hd)
  | next htight htoken hrule hcontinuation _ ih =>
    exact .next htight htoken hrule (hcontinuation.withLimit hlimit) (ih hd)
  | refused hrefusal => exact .refused hrefusal
  | operand hreads _ ih => exact .operand hreads (ih hd)
  | inside hclose _ ih => exact .inside hclose (ih hd)
  | unclosed hclose hitems hstop => exact .unclosed hclose (hitems.withLimit hlimit) hstop
  | parameter hitems hstop harrow hitem =>
    exact .parameter (hitems.withLimit hlimit) hstop harrow hitem
  | noArrow hitems hstop hsingle hfollower hkind =>
    exact .noArrow (hitems.withLimit hlimit) hstop hsingle hfollower hkind
  | noFollower hitems hstop hsingle hdone =>
    exact .noFollower (hitems.withLimit hlimit) hstop hsingle hdone
  | index _ ih => exact .index (ih hd)
  | unclosedIndex hitem hstop => exact .unclosedIndex (hitem.withLimit hlimit) hstop
  | item hopen _ ih => exact .item hopen (ih hd)
  | laterItem hopen hitem hcomma hkind _ ih =>
    exact .laterItem hopen (hitem.withLimit hlimit) hcomma hkind (ih hd)
  | overindented htoken hcolumn => exact .overindented htoken hcolumn
  | statement htoken hcolumn _ ih => exact .statement htoken hcolumn (ih hd)
  | line htoken hcolumn htree hopen hline =>
    exact .line htoken hcolumn (htree.withLimit hlimit) hopen hline
  | laterStatement htoken hcolumn htree hline _ ih =>
    exact .laterStatement htoken hcolumn (htree.withLimit hlimit) hline (ih hd)
  | inlineBody hinline _ ih => exact .inlineBody hinline (ih hd)
  | noBody hbreak hdone => exact .noBody hbreak hdone
  | shallowBody hbreak htoken hcolumn => exact .shallowBody hbreak htoken hcolumn
  | indentedBody hbreak htoken hcolumn _ ih => exact .indentedBody hbreak htoken hcolumn (ih hd)

/-- There are fewer open expressions and tokens ahead than the limit allows expressions; a climb counts
as an open one before it has passed its token. -/
def Room (limit : Nat) (s : State) : Task → Prop
  | .climb _ => s.depth + s.ahead.length ≤ limit
  | _ => s.depth + s.ahead.length < limit

/-- Where tokens are passed the room stays. -/
theorem room_of_passes {ks : List Token} (hpasses : s.Passes ks t)
    (hroom : s.depth + s.ahead.length < limit) : t.depth + t.ahead.length < limit := by
  have hlength := hpasses.length_ahead
  have hdepth := hpasses.depth
  omega

/-- A climb that takes its token has the room of every other task. -/
theorem room_of_takes {token : Token} (htoken : s.skipGroupedLineBreaks.Takes token t)
    (hroom : s.depth + s.ahead.length ≤ limit) : t.depth + t.ahead.length < limit := by
  have hpasses := (State.passes_skipGroupedLineBreaks s).trans htoken.passes
  have hlength := hpasses.length_ahead
  have hdepth := hpasses.depth
  simp only [List.length_append, List.length_singleton] at hlength
  omega

theorem not_isLimit_of_misses {source : String} {kind : Kind} (h : s.Misses source kind d) :
    ¬d.cause.IsLimit := by
  cases h with
  | ended _ => exact id
  | other _ _ => exact id

theorem not_isLimit_of_refusal {source : String} (h : task.refusal? source = some d) :
    ¬d.cause.IsLimit := by
  revert h
  fun_cases Task.refusal? source task <;> rintro ⟨⟩ <;> exact id

theorem room_of_operand? {power : Kind → Int} {operand : Task}
    (h : task.operand? power = some operand) (hroom : Room limit s task) : Room limit s operand := by
  revert h
  fun_cases Task.operand? power task <;> rintro ⟨⟩ <;> exact hroom

theorem room_of_close? {close : Kind} (h : task.close? = some close) (hroom : Room limit s task) :
    Room limit s.openGroup (.items close) := by
  change _ + _ < _
  rw [s.ahead_openGroup, s.depth_openGroup]
  revert h
  fun_cases Task.close? task <;> rintro ⟨⟩ <;> exact hroom

/-- With room for an expression at each token ahead no expression is nested too deeply. -/
theorem not_isLimit (h : Failure setup task s d) (hroom : Room setup.settings.maxDepth s task) :
    ¬d.cause.IsLimit := by
  induction h with
  | limit hdepth =>
    have hroom : _ + _ < _ := hroom
    omega
  | @nested _ s _ _ _ ih =>
    have hroom : s.depth + s.ahead.length < _ := hroom
    exact ih (show s.depth + 1 + s.ahead.length ≤ _ by omega)
  | noToken _ | noPrefix _ _ | noOperator _ _ | noInfix _ _ _ | parameter _ _ _ _ | noArrow _ _ _ _ _
  | noFollower _ _ _ _ | overindented _ _ | noBody _ _ | shallowBody _ _ _ => exact id
  | start htoken _ _ ih => exact ih (room_of_takes htoken hroom)
  | extension htoken _ hstart _ ih =>
    obtain ⟨ks, hpasses⟩ := hstart.passes
    exact ih (room_of_passes hpasses (room_of_takes htoken hroom))
  | continuation _ htoken _ _ ih => exact ih (room_of_takes htoken (Nat.le_of_lt hroom))
  | next _ htoken _ hcontinuation _ ih =>
    obtain ⟨ks, hpasses⟩ := hcontinuation.passes
    exact ih (room_of_passes hpasses (room_of_takes htoken (Nat.le_of_lt hroom)))
  | refused hrefusal => exact not_isLimit_of_refusal hrefusal
  | operand hreads _ ih => exact ih (room_of_operand? hreads hroom)
  | inside hclose _ ih => exact ih (room_of_close? hclose hroom)
  | unclosed _ _ hstop | unclosedIndex _ hstop =>
    obtain ⟨u, _, hmiss⟩ := hstop
    exact not_isLimit_of_misses hmiss
  | @index _ _ s _ _ ih =>
    refine ih (show s.openGroup.depth + s.openGroup.ahead.length < _ from ?_)
    rw [s.ahead_openGroup, s.depth_openGroup]
    exact hroom
  | item _ _ ih | statement _ _ _ ih => exact ih (room_of_passes (State.passes_skipLineBreaks _) hroom)
  | laterItem _ hitem hcomma _ _ ih =>
    obtain ⟨ks, hpasses⟩ := hitem.passes
    exact ih (room_of_passes ((((State.passes_skipLineBreaks _).trans hpasses).trans
      (State.passes_skipLineBreaks _)).trans hcomma.passes) hroom)
  | line _ _ _ _ hline => exact not_isLimit_of_misses hline
  | laterStatement _ _ htree hline _ ih =>
    obtain ⟨ks, hpasses⟩ := htree.passes
    obtain ⟨ls, _, hpasses'⟩ := hline.passes
    exact ih (room_of_passes (((State.passes_skipLineBreaks _).trans hpasses).trans hpasses') hroom)
  | inlineBody _ _ ih => exact ih hroom
  | indentedBody _ _ _ _ ih =>
    have hinside := room_of_passes (State.passes_skipLineBreaks _) hroom
    exact ih hinside

end Failure

namespace Program

variable {source : String} {settings : Settings} {tokens : List Token}

/-- The program is not read because expressions are nested too deeply. -/
def TooDeep (source : String) (settings : Settings) (tokens : List Token) : Prop :=
  ∃ d, parse source settings tokens = .error (.reported d) ∧ d.cause.IsLimit

/-- What a program gives under a limit that it does not run into it gives under every larger one. -/
theorem parse_of_maxDepth_le {limit : Nat} (hlimit : settings.maxDepth ≤ limit)
    (h : ¬TooDeep source settings tokens) :
    parse source { settings with maxDepth := limit } tokens = parse source settings tokens := by
  rcases parse_cases source settings tokens with ⟨trees, hparse⟩ | ⟨d, hparse⟩
  · obtain ⟨t, hrun⟩ := parse_eq_ok_iff.1 hparse
    rw [hparse]
    exact parse_eq_ok_iff.2 ⟨t, hrun.withLimit hlimit⟩
  · have hd : ¬d.cause.IsLimit := fun hd => h ⟨d, hparse, hd⟩
    rw [hparse]
    exact parse_eq_reported_iff.2 ((parse_eq_reported_iff.1 hparse).withLimit hlimit hd)

theorem not_tooDeep_of_length_lt (h : tokens.length < settings.maxDepth) :
    ¬TooDeep source settings tokens := by
  rintro ⟨d, hparse, hd⟩
  refine (parse_eq_reported_iff.1 hparse).not_isLimit ?_ hd
  change 0 + tokens.length < settings.maxDepth
  omega

/-- The limits that a program runs into. -/
def rejectingLimits (source : String) (settings : Settings) (tokens : List Token) : Set Nat :=
  {limit | TooDeep source { settings with maxDepth := limit } tokens}

/-- A limit that a program does not run into can be raised without any effect, and a limit above the
number of its tokens is no limit; so the limits that reject it are the small ones. -/
theorem parse_limit_transparent (source : String) (settings : Settings) (tokens : List Token) :
    (∀ limit limit', limit ≤ limit' → limit ∉ rejectingLimits source settings tokens →
      parse source { settings with maxDepth := limit' } tokens =
        parse source { settings with maxDepth := limit } tokens) ∧
    (∀ limit, tokens.length < limit → limit ∉ rejectingLimits source settings tokens) ∧
    IsLowerSet (rejectingLimits source settings tokens) ∧
    tokens.length ∈ upperBounds (rejectingLimits source settings tokens) := by
  have hraise : ∀ limit limit', limit ≤ limit' → limit ∉ rejectingLimits source settings tokens →
      parse source { settings with maxDepth := limit' } tokens =
        parse source { settings with maxDepth := limit } tokens :=
    fun limit limit' hle h =>
      @parse_of_maxDepth_le source { settings with maxDepth := limit } tokens limit' hle h
  have hlength : ∀ limit, tokens.length < limit → limit ∉ rejectingLimits source settings tokens :=
    fun limit hlt => @not_tooDeep_of_length_lt source { settings with maxDepth := limit } tokens hlt
  refine ⟨hraise, hlength, fun limit limit' hle hmem => ?_, fun limit hmem => ?_⟩
  · by_contra h
    obtain ⟨d, hparse, hd⟩ := hmem
    exact h ⟨d, (hraise limit' limit hle h).symm.trans hparse, hd⟩
  · by_contra h
    exact hlength limit (Nat.lt_of_not_le h) hmem

/-- A sign in an argument is the third expression that is open, so three is the least limit. -/
theorem parse_limit_transparent_of_call : ∃ tokens, Tokens.ofSource "f(-x)" = .ok tokens ∧
    2 ∈ rejectingLimits "f(-x)" {} tokens ∧ 3 ∉ rejectingLimits "f(-x)" {} tokens ∧
    parse "f(-x)" { maxDepth := 1000 } tokens = parse "f(-x)" { maxDepth := 3 } tokens ∧
    tokens.length = 5 ∧ 6 ∉ rejectingLimits "f(-x)" {} tokens := by
  obtain ⟨tokens, _, htokens, _, hf⟩ :
      ∃ tokens trees, Tokens.ofSource "f(-x)" = .ok tokens ∧ parse "f(-x)" {} tokens = .ok trees ∧
        (tokens.length, (reported? (parse "f(-x)" { maxDepth := 2 } tokens)).map (·.cause),
          (parse "f(-x)" { maxDepth := 3 } tokens).isOk) = (5, some (.nestedTooDeeply 2), true) :=
    exists_of_parse (by decide +kernel)
  simp only [Prod.mk.injEq, Option.map_eq_some_iff] at hf
  obtain ⟨hlength, ⟨d, hd, hcause⟩, hok⟩ := hf
  have htwo : 2 ∈ rejectingLimits "f(-x)" {} tokens :=
    ⟨d, reported?_eq_some_iff.1 hd, by rw [hcause]; trivial⟩
  have hthree : 3 ∉ rejectingLimits "f(-x)" {} tokens := by
    rintro ⟨d, hd, _⟩
    simp [hd, Except.isOk, Except.toBool] at hok
  have h := parse_limit_transparent "f(-x)" {} tokens
  exact ⟨tokens, htokens, htwo, hthree, h.1 3 1000 (by decide) hthree, hlength,
    h.2.1 6 (by omega)⟩

end Program

end Offside
