import Offside.Proofs.Content
import Offside.Proofs.Run.LineStarts
import Offside.Proofs.Run.Reported
import Offside.Proofs.Spans

set_option autoImplicit false

/-!
# What diagnostics say

Whatever a program is rejected for, the diagnostic names the token that stands in the way, or the end of
the input. What could only be reported if the scanner and the grammar did not agree never is.
-/
namespace Offside

open Reading

namespace Reader

/-- The messages about a token that stands where none of its kind may. -/
def misplacements : List String :=
  ["left side of `=` must be a name or an index", "expected a parameter list before `->`",
    "expected `->` after a parameter list"]

end Reader

/-- The step of a program that could not be made, with what is known of the token in its way. -/
inductive Objection (source : String) (settings : Settings) (tokens : List Token) : Diagnostic → Prop
  | tooDeep {p : Position}
      (hp : p = Tokens.endPosition tokens ∨ ∃ token ∈ tokens, p = token.span.start) :
      Objection source settings tokens ⟨.nestedTooDeeply settings.maxDepth, p⟩
  | ended : Objection source settings tokens ⟨.endOfInput, Tokens.endPosition tokens⟩
  | noPrefix {token : Token} (htoken : token ∈ tokens)
      (hrule : Program.grammar.prefixRule? token.kind = none) :
      Objection source settings tokens ⟨.noPrefixRule token.kind, token.span.start⟩
  | unexpected {token : Token} {kind : Kind} (htoken : token ∈ tokens) (hkind : token.kind ≠ kind) :
      Objection source settings tokens
        ⟨.unexpected kind token.kind (token.text source), token.span.start⟩
  | number {token : Token} (htoken : token ∈ tokens) (hkind : token.kind = .number)
      (hvalue : Binary64.ofText? (token.text source) = none) :
      Objection source settings tokens ⟨.malformedNumber (token.text source), token.span.start⟩
  | string {token : Token} (htoken : token ∈ tokens) (hkind : token.kind = .string)
      (hinside : Reader.unquoted? (token.text source).toList = none) :
      Objection source settings tokens
        ⟨.misplaced (token.text source) "expected a quoted string", token.span.start⟩
  | misplaced {token : Token} {message : String} (htoken : token ∈ tokens)
      (hkind : token.kind ≠ .newline) (hmessage : message ∈ Reader.misplacements) :
      Objection source settings tokens ⟨.misplaced (token.text source) message, token.span.start⟩
  | parameter {item : Tree} {token : Token} (htoken : token ∈ tokens)
      (hitem : item.span.start = token.span.start)
      (hcontents : ∀ content ∈ item.yield, content ∈ contents source tokens) :
      Objection source settings tokens
        ⟨.misplaced item.render "parameters must be identifiers", item.span.start⟩
  | indentation {token : Token} {blocks : Nat} (htoken : token ∈ tokens)
      (hline : Tokens.FirstOfLine tokens token) (hcolumn : token.column ≠ blocks * settings.indentWidth) :
      Objection source settings tokens
        ⟨.indentation (blocks * settings.indentWidth) token.column, token.span.start⟩

namespace Failure

variable {source : String} {settings : Settings} {tokens : List Token} {task : Task} {s t : State}
  {d : Diagnostic} {blocks : Nat}

/-- What is known of a task inside a program: no operator is asked to bind looser than nothing, a rule is
read behind its token, and a block stands at its level. -/
def Placed (tokens : List Token) (width blocks : Nat) (s : State) : Task → Prop
  | .expression least | .climb least | .extension least _ => 0 ≤ least
  | .start rule token => Program.Fits (.start rule token) ∧ token ∈ tokens
  | .continuation rule left token => Program.Fits (.continuation rule left token) ∧ token ∈ tokens
  | .items _ | .body => True
  | .statements level => level = blocks * width ∧
      ∀ token ∈ s.skipLineBreaks.current?, s.skipLineBreaks.atLineStart

theorem objection_of_end (hs : s.Stands tokens settings.indentWidth blocks) :
    Objection source settings tokens ⟨.endOfInput, s.endPosition⟩ := by
  rw [s.endPosition_eq, hs.tokens]
  exact .ended

theorem objection_of_misses {kind : Kind} (h : s.Misses source kind d)
    (hs : s.Stands tokens settings.indentWidth blocks) : Objection source settings tokens d := by
  cases h with
  | ended => exact objection_of_end hs
  | other htoken hkind => exact .unexpected (hs.mem htoken) hkind

theorem objection_of_unclosed {close : Kind} {ks : List Token} (h : t.Unclosed source close d)
    (hpasses : s.openGroup.Passes ks t) (hs : s.Stands tokens settings.indentWidth blocks) :
    Objection source settings tokens d := by
  obtain ⟨u, hclose, hmiss⟩ := h
  exact objection_of_misses hmiss (hs.passes (State.passes_of_closeGroup? hpasses hclose))

theorem objection_of_refusal (h : task.refusal? source = some d)
    (hplaced : Placed tokens settings.indentWidth blocks s task) : Objection source settings tokens d := by
  cases task with
  | start rule token =>
    obtain ⟨hfits, htoken⟩ := hplaced
    have hkind := Program.kind_of_prefixRule hfits
    cases rule with
    | number =>
      obtain ⟨hvalue, rfl⟩ := by simpa [Task.refusal?] using h
      exact .number htoken hkind hvalue
    | string =>
      obtain ⟨hinside, rfl⟩ := by simpa [Task.refusal?] using h
      exact .string htoken hkind hinside
    | unary =>
      -- Both kinds that the rule is put on are operators.
      rcases hkind with hkind | hkind <;> simp [Task.refusal?, hkind, Operator.unary?] at h
    | identifier | boolean | parenthesis | list => cases h
  | continuation rule left token =>
    obtain ⟨hfits, htoken⟩ := hplaced
    have hkind := Program.kind_of_infixRule hfits
    cases rule with
    | binary =>
      obtain ⟨operator, hoperator⟩ := hkind
      simp [Task.refusal?, hoperator] at h
    | assignment =>
      obtain ⟨_, rfl⟩ := by simpa [Task.refusal?] using h
      exact .misplaced htoken (hkind.trans_ne (by decide)) (by decide)
    | function =>
      obtain ⟨_, rfl⟩ := by simpa [Task.refusal?] using h
      exact .misplaced htoken (hkind.trans_ne (by decide)) (by decide)
    | conditional | call | index => cases h
  | expression | climb | extension | items | statements | body => cases h

theorem placed_of_operand? {operand : Task}
    (h : task.operand? (Program.setup source settings).grammar.power = some operand)
    (hplaced : Placed tokens settings.indentWidth blocks s task) :
    Placed tokens settings.indentWidth blocks s operand := by
  cases task with
  | start rule token =>
    cases rule with
    | unary =>
      obtain ⟨_, rfl⟩ := by simpa [Task.operand?] using h
      exact (by decide : (0 : Int) ≤ Level.unary.power)
    | identifier | number | string | boolean | parenthesis | list => cases h
  | continuation rule left token =>
    have hkind := Program.kind_of_infixRule hplaced.1
    cases rule with
    | binary =>
      obtain ⟨_, rfl⟩ := by simpa [Task.operand?] using h
      exact Program.power_nonneg _
    | assignment =>
      obtain ⟨_, rfl⟩ := by simpa [Task.operand?] using h
      change 0 ≤ Program.power token.kind - 1
      rw [hkind]
      decide
    | conditional =>
      cases h
      trivial
    | function =>
      obtain ⟨_, rfl⟩ := by simpa [Task.operand?] using h
      trivial
    | call | index => cases h
  | expression | climb | extension | items | statements | body => cases h

/-- A token that binds tighter than a power that is not negative has a rule that continues with it. -/
theorem infixRule?_ne_none {least : Int} {token : Token} (hleast : 0 ≤ least)
    (htight : ¬(s.done ∨ (Program.setup source settings).power s ≤ least))
    (htoken : s.skipGroupedLineBreaks.current? = some token) :
    (Program.setup source settings).grammar.infixRule? token.kind ≠ none := by
  intro hrule
  rw [Program.setup_infixRule?, Option.map_eq_none_iff] at hrule
  have hnothing : (Program.setup source settings).grammar.power token.kind = 0 := by
    rw [Program.setup_power, Program.power_eq_zero hrule]
  refine htight (.inr ?_)
  unfold Setup.power State.power
  unfold State.skipGroupedLineBreaks at htoken
  split
  next hin =>
    rw [if_pos hin] at htoken
    rw [State.find?_eq_current?, htoken]
    exact hnothing ▸ hleast
  next hin =>
    rw [if_neg hin] at htoken
    split
    · exact hleast
    · rw [htoken]
      exact hnothing ▸ hleast

/-- Behind a statement the rest of its block is placed as the block was. -/
theorem placed_of_endsLine {level : Nat} {u : State} (hline : t.EndsLine u)
    (hplaced : Placed tokens settings.indentWidth blocks s (.statements level)) :
    Placed tokens settings.indentWidth blocks u (.statements level) :=
  ⟨hplaced.1, fun _ htoken => hline.atLineStart htoken⟩

/-- A block on lines of its own is placed one step deeper. -/
theorem placed_of_openBlock (hs : s.Stands tokens settings.indentWidth blocks)
    (hbreak : s.isNext .newline) :
    Placed tokens settings.indentWidth (blocks + 1) s.skipLineBreaks.openBlock
      (.statements s.skipLineBreaks.openBlock.indentation.current) :=
  ⟨hs.skipLineBreaks.openBlock.current, fun _ _ => State.atLineStart_openBlock hbreak⟩

theorem objection_of_indentation {token : Token} (hs : s.Stands tokens settings.indentWidth blocks)
    (horder : Tokens.InOrder tokens) (htoken : s.current? = some token) (hline : s.atLineStart)
    (hcolumn : token.column ≠ blocks * settings.indentWidth) : Objection source settings tokens
      ⟨.indentation (blocks * settings.indentWidth) token.column, token.span.start⟩ := by
  have hfirst := (State.firstOfLine htoken hline (hs.tokens.symm ▸ horder)).2
  exact .indentation (hs.mem htoken) (hs.tokens ▸ hfirst) hcolumn

/-- The trees of a sequence are made of the contents of tokens. -/
theorem mem_contents_of_items {close : Kind} {items : List Tree} {item : Tree}
    (hitems : Run (Program.setup source settings) (.items close) s items t)
    (hs : s.Stands tokens settings.indentWidth blocks) (hitem : item ∈ items) :
    ∀ content ∈ item.yield, content ∈ contents source tokens := by
  obtain ⟨_, ⟨ks, hpasses, rfl⟩, hyield⟩ := hitems.carries trivial
  intro content hcontent
  have hall : content ∈ Tree.yieldAll items := by
    rw [Tree.yieldAll_eq_flatMap]
    exact List.mem_flatMap.2 ⟨item, hitem, hcontent⟩
  rw [hyield] at hall
  obtain ⟨token, htoken, hcontent⟩ := List.mem_filterMap.1 hall
  exact List.mem_filterMap.2 ⟨token, hs.mem_of_passes hpasses htoken, hcontent⟩

/-- Whatever is reported inside a program is an objection to one of its tokens, or to its end. -/
theorem objection (h : Failure (Program.setup source settings) task s d)
    (horder : Tokens.InOrder tokens) (hs : s.Stands tokens settings.indentWidth blocks)
    (hplaced : Placed tokens settings.indentWidth blocks s task) :
    Objection source settings tokens d := by
  -- Only the failure of an indented block is one block deeper than that of its body.
  induction h generalizing blocks with
  | @limit _ s _ =>
    have hposition := s.currentPosition_eq
    rw [hs.tokens] at hposition
    exact .tooDeep hposition
  | nested _ _ ih => exact ih (hs.nested _) hplaced
  | noToken | noOperator => exact objection_of_end hs.skipGroupedLineBreaks
  | noBody => exact objection_of_end hs.skipLineBreaks
  | noPrefix htoken hrule => exact .noPrefix (hs.skipGroupedLineBreaks.mem htoken) hrule
  | start htoken hrule _ ih =>
    have hs' := hs.skipGroupedLineBreaks
    exact ih (hs'.takes htoken) ⟨Program.fits_start hrule, hs'.mem htoken.1⟩
  | extension htoken _ hstart _ ih =>
    obtain ⟨ks, hpasses⟩ := hstart.passes
    exact ih ((hs.skipGroupedLineBreaks.takes htoken).passes hpasses) hplaced
  | noInfix htight htoken hrule => exact absurd hrule (infixRule?_ne_none hplaced htight htoken)
  | continuation _ htoken hrule _ ih =>
    have hs' := hs.skipGroupedLineBreaks
    exact ih (hs'.takes htoken) ⟨Program.fits_continuation hrule, hs'.mem htoken.1⟩
  | next _ htoken _ hcontinuation _ ih =>
    obtain ⟨ks, hpasses⟩ := hcontinuation.passes
    exact ih ((hs.skipGroupedLineBreaks.takes htoken).passes hpasses) hplaced
  | refused hrefusal => exact objection_of_refusal hrefusal hplaced
  | operand hreads _ ih => exact ih hs (placed_of_operand? hreads hplaced)
  | inside _ _ ih => exact ih hs.openGroup trivial
  | unclosed _ hitems hstop =>
    obtain ⟨ks, hpasses⟩ := hitems.passes
    exact objection_of_unclosed hstop hpasses hs
  | parameter hitems _ _ hitem =>
    obtain ⟨ks, hpasses, hstrung⟩ := hitems.spans trivial
    have hmem := List.mem_of_find?_eq_some hitem
    obtain ⟨js, hpart, hdelimits⟩ := Strung.exists_delimits hstrung hmem
    obtain ⟨token, htoken, hstart⟩ := hdelimits.exists_first
    exact .parameter (hs.openGroup.mem_of_passes hpasses (hpart.subset htoken)) hstart
      (mem_contents_of_items hitems hs.openGroup hmem)
  | noArrow hitems hstop _ hfollower hkind =>
    obtain ⟨ks, hpasses⟩ := hitems.passes
    exact .unexpected ((hs.passes (hstop.passes hpasses)).mem hfollower) hkind
  | noFollower hitems hstop _ _ =>
    obtain ⟨ks, hpasses⟩ := hitems.passes
    exact .misplaced (hs.mem_of_passes (hstop.passes hpasses) (by simp))
      (hstop.kind_ne_newline (by decide)) (by decide)
  | index _ ih => exact ih hs.openGroup (Int.le_refl 0)
  | unclosedIndex hitem hstop =>
    obtain ⟨ks, hpasses⟩ := hitem.passes
    exact objection_of_unclosed hstop (hpasses.trans (State.passes_skipLineBreaks _)) hs
  | item _ _ ih | statement _ _ _ ih => exact ih hs.skipLineBreaks (Int.le_refl 0)
  | laterItem _ hitem hcomma _ _ ih =>
    obtain ⟨ks, hpasses⟩ := hitem.passes
    exact ih ((hs.skipLineBreaks.passes hpasses).skipLineBreaks.takes hcomma) trivial
  | overindented htoken hcolumn =>
    obtain ⟨rfl, hline⟩ := hplaced
    exact objection_of_indentation hs.skipLineBreaks horder htoken (hline _ htoken) (Nat.ne_of_gt hcolumn)
  | line _ _ htree _ hline =>
    obtain ⟨ks, hpasses⟩ := htree.passes
    exact objection_of_misses hline (hs.skipLineBreaks.passes hpasses)
  | laterStatement _ _ htree hline _ ih =>
    obtain ⟨ks, hpasses⟩ := htree.passes
    obtain ⟨ls, _, hpasses'⟩ := hline.passes
    exact ih ((hs.skipLineBreaks.passes hpasses).passes hpasses') (placed_of_endsLine hline hplaced)
  | inlineBody _ _ ih => exact ih hs (Int.le_refl 0)
  | shallowBody hbreak htoken hcolumn =>
    have hblock := hs.skipLineBreaks.openBlock
    rw [hblock.current] at hcolumn ⊢
    exact objection_of_indentation hblock horder htoken
      (State.atLineStart_skipLineBreaks (.inr hbreak)) (Nat.ne_of_lt hcolumn)
  | indentedBody hbreak _ _ _ ih => exact ih hs.skipLineBreaks.openBlock (placed_of_openBlock hs hbreak)

end Failure

namespace Diagnostic

/-- What the diagnostic says is true of the token that starts at its position or, where none can be meant,
of the end of the input. -/
def Describes (source : String) (settings : Settings) (tokens : List Token) (d : Diagnostic) : Prop :=
  match d.cause with
  | .noPrefixRule kind =>
    ∃ t, Tokens.At tokens d.position t ∧ t.kind = kind ∧ Program.grammar.prefixRule? kind = none
  | .noInfixRule kind =>
    ∃ t, Tokens.At tokens d.position t ∧ t.kind = kind ∧ Program.grammar.infixRule? kind = none
  | .unexpected expected found lexeme =>
    ∃ t, Tokens.At tokens d.position t ∧ t.kind = found ∧ t.text source = lexeme ∧ found ≠ expected
  | .indentation expected found =>
    ∃ t, Tokens.At tokens d.position t ∧ Tokens.FirstOfLine tokens t ∧ t.column = found ∧
      found ≠ expected ∧ settings.indentWidth ∣ expected
  | .misplaced lexeme message =>
    ∃ t, Tokens.At tokens d.position t ∧
      (message ≠ "parameters must be identifiers" → t.text source = lexeme)
  | .unrecognised lexeme | .malformedNumber lexeme =>
    ∃ t, Tokens.At tokens d.position t ∧ t.text source = lexeme
  | .endOfInput => d.position = Tokens.endPosition tokens
  | .nestedTooDeeply limit => limit = settings.maxDepth ∧
      (d.position = Tokens.endPosition tokens ∨ ∃ t, Tokens.At tokens d.position t)

end Diagnostic

/-- The cause can only come up if the scanner and the grammar do not agree on what a token is. -/
def Cause.IsInternal : Cause → Prop
  | .unrecognised _ | .noInfixRule _ | .malformedNumber _ => True
  | .misplaced _ message => message ∈
      ["expected a quoted string", "expected a unary operator", "expected a binary operator"]
  | _ => False

namespace Objection

variable {source : String} {settings : Settings} {tokens : List Token} {d : Diagnostic}

theorem describes (h : Objection source settings tokens d) (horder : Tokens.InOrder tokens) :
    d.Describes source settings tokens := by
  cases h with
  | tooDeep hp =>
    refine ⟨rfl, hp.imp_right ?_⟩
    rintro ⟨token, htoken, rfl⟩
    exact ⟨token, horder.at_start htoken⟩
  | ended => rfl
  | noPrefix htoken hrule => exact ⟨_, horder.at_start htoken, rfl, hrule⟩
  | unexpected htoken hkind => exact ⟨_, horder.at_start htoken, rfl, rfl, hkind⟩
  | number htoken _ _ => exact ⟨_, horder.at_start htoken, rfl⟩
  | string htoken _ _ | misplaced htoken _ _ => exact ⟨_, horder.at_start htoken, fun _ => rfl⟩
  | @parameter item token htoken hitem _ =>
    have hat : Tokens.At tokens item.span.start token := hitem ▸ horder.at_start htoken
    exact ⟨token, hat, fun hmessage => absurd rfl hmessage⟩
  | indentation htoken hline hcolumn =>
    exact ⟨_, horder.at_start htoken, hline, rfl, hcolumn, Nat.dvd_mul_left _ _⟩

/-- Where every literal has a value, no objection has an internal cause. -/
theorem not_isInternal (h : Objection source settings tokens d)
    (hreadable : ∀ t ∈ tokens, t.Readable source) : ¬d.cause.IsInternal := by
  cases h with
  | tooDeep | ended | noPrefix | unexpected | indentation => exact id
  | number htoken hkind hvalue =>
    have hsome := (hreadable _ htoken).number hkind
    rw [hvalue] at hsome
    cases hsome
  | string htoken hkind hinside =>
    have hsome := (hreadable _ htoken).string hkind
    rw [hinside] at hsome
    cases hsome
  | misplaced _ _ hmessage =>
    intro hinternal
    have hdisjoint : ∀ m ∈ Reader.misplacements, ¬(Cause.misplaced "" m).IsInternal := by
      unfold Cause.IsInternal
      decide
    exact hdisjoint _ hmessage hinternal
  | parameter => simp [Cause.IsInternal]

end Objection

namespace Program

variable {source : String} {settings : Settings} {tokens : List Token} {d : Diagnostic}

/-- What is reported about the tokens of a source is an objection to one of them, or to their end. -/
theorem objection_of_parse (htokens : Tokens.ofSource source = .ok tokens)
    (h : parse source settings tokens = .error (.reported d)) : Objection source settings tokens d := by
  refine (parse_eq_reported_iff.1 h).objection (Tokens.inOrder_of_ofSource htokens)
    (State.Stands.start settings.indentWidth tokens) ⟨(Nat.zero_mul _).symm, fun _ _ => ?_⟩
  exact State.atLineStart_skipLineBreaks_of_atLineStart rfl

/-- Diagnostics describe the token they point at. -/
theorem parse_describes (htokens : Tokens.ofSource source = .ok tokens)
    (h : parse source settings tokens = .error (.reported d)) : d.Describes source settings tokens :=
  (objection_of_parse htokens h).describes (Tokens.inOrder_of_ofSource htokens)

/-- The first line of a body may not start further right than its level. -/
theorem parse_describes_of_overindented : ∃ tokens,
    Tokens.ofSource "x ?\n   y" = .ok tokens ∧
    parse "x ?\n   y" {} tokens = .error (.reported ⟨.indentation 2 3, ⟨7, 2, 3⟩⟩) ∧
    (⟨.indentation 2 3, ⟨7, 2, 3⟩⟩ : Diagnostic).Describes "x ?\n   y" {} tokens := by
  obtain ⟨tokens, htokens, hreported⟩ : ∃ tokens, Tokens.ofSource "x ?\n   y" = .ok tokens ∧
      reported? (parse "x ?\n   y" {} tokens) = some ⟨.indentation 2 3, ⟨7, 2, 3⟩⟩ :=
    Tokens.exists_of_ofSource (by decide +kernel)
  have hparse := reported?_eq_some_iff.1 hreported
  exact ⟨tokens, htokens, hparse, parse_describes htokens hparse⟩

/-- The scanner and the grammar agree: of a source that is cut into tokens no literal lacks a value, no
operator lacks a rule, and no rule is brought in by a token that is not its own. -/
theorem parse_not_internal (htokens : Tokens.ofSource source = .ok tokens)
    (h : parse source settings tokens = .error (.reported d)) : ¬d.cause.IsInternal :=
  (objection_of_parse htokens h).not_isInternal fun _ => (Tokens.scan_eq_ok_iff.1 htokens).readable

/-- A string cannot be assigned to, which is said of the token `=`. -/
theorem parse_not_internal_of_assignment : ∃ tokens d,
    Tokens.ofSource "\"a\" = -1" = .ok tokens ∧
    parse "\"a\" = -1" {} tokens = .error (.reported d) ∧
    d.cause = .misplaced "=" "left side of `=` must be a name or an index" ∧ ¬d.cause.IsInternal := by
  obtain ⟨tokens, htokens, hreported⟩ : ∃ tokens, Tokens.ofSource "\"a\" = -1" = .ok tokens ∧
      (reported? (parse "\"a\" = -1" {} tokens)).map (·.cause) =
        some (.misplaced "=" "left side of `=` must be a name or an index") :=
    Tokens.exists_of_ofSource (by decide +kernel)
  obtain ⟨d, hd, hcause⟩ := Option.map_eq_some_iff.1 hreported
  have hparse := reported?_eq_some_iff.1 hd
  exact ⟨tokens, d, htokens, hparse, hcause, parse_not_internal htokens hparse⟩

end Program

end Offside
