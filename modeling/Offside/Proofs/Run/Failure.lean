import Offside.Proofs.Reading.Reports
import Offside.Proofs.Run

set_option autoImplicit false

/-!
# Failures

A failure is a reading that reported a fault, told without the bounds that end its loops: what was read
before it are runs, and the diagnostic is that of the one step that could not be made. What every failing
reading does is proved by induction on its failure.
-/
namespace Offside

open Reading

namespace Task

/-- What a rule reports about its token or the tree to its left before it reads anything. -/
def refusal? (source : String) : Task → Option Diagnostic
  | .start .number token =>
    if Binary64.ofText? (token.text source) = none then
      some ⟨.malformedNumber (token.text source), token.span.start⟩
    else none
  | .start .string token =>
    if Reader.unquoted? (token.text source).toList = none then
      some ⟨.misplaced (token.text source) "expected a quoted string", token.span.start⟩
    else none
  | .start .unary token =>
    if Operator.unary? token.kind = none then
      some ⟨.misplaced (token.text source) "expected a unary operator", token.span.start⟩
    else none
  | .continuation .binary _ token =>
    if Operator.binary? token.kind = none then
      some ⟨.misplaced (token.text source) "expected a binary operator", token.span.start⟩
    else none
  | .continuation .assignment left token =>
    if left.isAssignable then none
    else some ⟨.misplaced (token.text source) "left side of `=` must be a name or an index",
      token.span.start⟩
  | .continuation .function left token =>
    if Reader.parameters? left = none then
      some ⟨.misplaced (token.text source) "expected a parameter list before `->`", token.span.start⟩
    else none
  | _ => none

/-- The one thing that a rule without brackets reads, if it reads anything. -/
def operand? (power : Kind → Int) : Task → Option Task
  | .start .unary token =>
    if Operator.unary? token.kind = none then none else some (.expression Level.unary.power)
  | .continuation .binary _ token =>
    if Operator.binary? token.kind = none then none else some (.expression (power token.kind))
  | .continuation .assignment left token =>
    if left.isAssignable then some (.expression (power token.kind - 1)) else none
  | .continuation .conditional _ _ => some .body
  | .continuation .function left _ => if Reader.parameters? left = none then none else some .body
  | _ => none

/-- The bracket that closes the sequence a rule reads. -/
def close? : Task → Option Kind
  | .start .parenthesis _ => some .closeParen
  | .start .list _ => some .closeBracket
  | .continuation .call _ _ => some .closeParen
  | _ => none

end Task

/-- The task reports the diagnostic from the state. -/
inductive Failure (setup : Setup PrefixRule InfixRule) : Task → State → Diagnostic → Prop
  | limit {least : Int} {s : State} (hdepth : setup.settings.maxDepth ≤ s.depth) :
      Failure setup (.expression least) s
        ⟨.nestedTooDeeply setup.settings.maxDepth, s.currentPosition⟩
  | nested {least : Int} {s : State} {d : Diagnostic} (hdepth : s.depth < setup.settings.maxDepth)
      (hclimb : Failure setup (.climb least) { s with depth := s.depth + 1 } d) :
      Failure setup (.expression least) s d
  | noToken {least : Int} {s : State} (hdone : s.skipGroupedLineBreaks.current? = none) :
      Failure setup (.climb least) s ⟨.endOfInput, s.skipGroupedLineBreaks.endPosition⟩
  | noPrefix {least : Int} {s : State} {token : Token}
      (htoken : s.skipGroupedLineBreaks.current? = some token)
      (hrule : setup.grammar.prefixRule? token.kind = none) :
      Failure setup (.climb least) s ⟨.noPrefixRule token.kind, token.span.start⟩
  | start {least : Int} {s t : State} {token : Token} {rule : PrefixRule} {d : Diagnostic}
      (htoken : s.skipGroupedLineBreaks.Takes token t)
      (hrule : setup.grammar.prefixRule? token.kind = some rule)
      (hstart : Failure setup (.start rule token) t d) :
      Failure setup (.climb least) s d
  | extension {least : Int} {s t u : State} {token : Token} {rule : PrefixRule} {left : Tree}
      {d : Diagnostic} (htoken : s.skipGroupedLineBreaks.Takes token t)
      (hrule : setup.grammar.prefixRule? token.kind = some rule)
      (hstart : Run setup (.start rule token) t [left] u)
      (hextension : Failure setup (.extension least left) u d) :
      Failure setup (.climb least) s d
  | noOperator {least : Int} {s : State} {left : Tree}
      (htight : ¬(s.done ∨ setup.power s ≤ least))
      (hdone : s.skipGroupedLineBreaks.current? = none) :
      Failure setup (.extension least left) s ⟨.endOfInput, s.skipGroupedLineBreaks.endPosition⟩
  | noInfix {least : Int} {s : State} {left : Tree} {token : Token}
      (htight : ¬(s.done ∨ setup.power s ≤ least))
      (htoken : s.skipGroupedLineBreaks.current? = some token)
      (hrule : setup.grammar.infixRule? token.kind = none) :
      Failure setup (.extension least left) s ⟨.noInfixRule token.kind, token.span.start⟩
  | continuation {least : Int} {s t : State} {left : Tree} {token : Token} {rule : InfixRule}
      {d : Diagnostic} (htight : ¬(s.done ∨ setup.power s ≤ least))
      (htoken : s.skipGroupedLineBreaks.Takes token t)
      (hrule : setup.grammar.infixRule? token.kind = some rule)
      (hcontinuation : Failure setup (.continuation rule left token) t d) :
      Failure setup (.extension least left) s d
  | next {least : Int} {s t u : State} {left longer : Tree} {token : Token} {rule : InfixRule}
      {d : Diagnostic} (htight : ¬(s.done ∨ setup.power s ≤ least))
      (htoken : s.skipGroupedLineBreaks.Takes token t)
      (hrule : setup.grammar.infixRule? token.kind = some rule)
      (hcontinuation : Run setup (.continuation rule left token) t [longer] u)
      (hextension : Failure setup (.extension least longer) u d) :
      Failure setup (.extension least left) s d
  | refused {task : Task} {s : State} {d : Diagnostic}
      (hrefusal : task.refusal? setup.source = some d) : Failure setup task s d
  | operand {task operand : Task} {s : State} {d : Diagnostic}
      (hreads : task.operand? setup.grammar.power = some operand)
      (hoperand : Failure setup operand s d) : Failure setup task s d
  | inside {task : Task} {close : Kind} {s : State} {d : Diagnostic}
      (hclose : task.close? = some close) (hitems : Failure setup (.items close) s.openGroup d) :
      Failure setup task s d
  | unclosed {task : Task} {close : Kind} {s t : State} {items : List Tree} {d : Diagnostic}
      (hclose : task.close? = some close) (hitems : Run setup (.items close) s.openGroup items t)
      (hstop : t.Unclosed setup.source close d) : Failure setup task s d
  | parameter {token stop : Token} {s t u : State} {items : List Tree} {item : Tree}
      (hitems : Run setup (.items .closeParen) s.openGroup items t)
      (hstop : t.Closes .closeParen stop u) (harrow : u.isNext .arrow)
      (hitem : items.find? (·.name? = none) = some item) :
      Failure setup (.start .parenthesis token) s
        ⟨.misplaced item.render "parameters must be identifiers", item.span.start⟩
  | noArrow {token stop follower : Token} {s t u : State} {items : List Tree}
      (hitems : Run setup (.items .closeParen) s.openGroup items t)
      (hstop : t.Closes .closeParen stop u) (hsingle : ∀ item, items ≠ [item])
      (hfollower : u.current? = some follower) (hkind : follower.kind ≠ .arrow) :
      Failure setup (.start .parenthesis token) s
        ⟨.unexpected .arrow follower.kind (follower.text setup.source), follower.span.start⟩
  | noFollower {token stop : Token} {s t u : State} {items : List Tree}
      (hitems : Run setup (.items .closeParen) s.openGroup items t)
      (hstop : t.Closes .closeParen stop u) (hsingle : ∀ item, items ≠ [item])
      (hdone : u.current? = none) :
      Failure setup (.start .parenthesis token) s
        ⟨.misplaced (stop.text setup.source) "expected `->` after a parameter list", stop.span.start⟩
  | index {token : Token} {left : Tree} {s : State} {d : Diagnostic}
      (hitem : Failure setup (.expression 0) s.openGroup d) :
      Failure setup (.continuation .index left token) s d
  | unclosedIndex {token : Token} {left item : Tree} {s t : State} {d : Diagnostic}
      (hitem : Run setup (.expression 0) s.openGroup [item] t)
      (hstop : t.skipLineBreaks.Unclosed setup.source .closeBracket d) :
      Failure setup (.continuation .index left token) s d
  | item {close : Kind} {s : State} {d : Diagnostic} (hopen : ¬s.skipLineBreaks.isNext close)
      (hitem : Failure setup (.expression 0) s.skipLineBreaks d) : Failure setup (.items close) s d
  | laterItem {close : Kind} {s t u : State} {item : Tree} {comma : Token} {d : Diagnostic}
      (hopen : ¬s.skipLineBreaks.isNext close)
      (hitem : Run setup (.expression 0) s.skipLineBreaks [item] t)
      (hcomma : t.skipLineBreaks.Takes comma u) (hkind : comma.kind = .comma)
      (hitems : Failure setup (.items close) u d) : Failure setup (.items close) s d
  | overindented {level : Nat} {s : State} {token : Token}
      (htoken : s.skipLineBreaks.current? = some token) (hcolumn : level < token.column) :
      Failure setup (.statements level) s ⟨.indentation level token.column, token.span.start⟩
  | statement {level : Nat} {s : State} {token : Token} {d : Diagnostic}
      (htoken : s.skipLineBreaks.current? = some token) (hcolumn : token.column = level)
      (htree : Failure setup (.expression 0) s.skipLineBreaks d) :
      Failure setup (.statements level) s d
  | line {level : Nat} {s t : State} {token : Token} {tree : Tree} {d : Diagnostic}
      (htoken : s.skipLineBreaks.current? = some token) (hcolumn : token.column = level)
      (htree : Run setup (.expression 0) s.skipLineBreaks [tree] t)
      (hopen : ¬(t.done ∨ t.afterLineBreak)) (hline : t.Misses setup.source .newline d) :
      Failure setup (.statements level) s d
  | laterStatement {level : Nat} {s t u : State} {token : Token} {tree : Tree} {d : Diagnostic}
      (htoken : s.skipLineBreaks.current? = some token) (hcolumn : token.column = level)
      (htree : Run setup (.expression 0) s.skipLineBreaks [tree] t) (hline : t.EndsLine u)
      (htrees : Failure setup (.statements level) u d) : Failure setup (.statements level) s d
  | inlineBody {s : State} {d : Diagnostic} (hinline : ¬s.isNext .newline)
      (htree : Failure setup (.expression 0) s d) : Failure setup .body s d
  | noBody {s : State} (hbreak : s.isNext .newline) (hdone : s.skipLineBreaks.current? = none) :
      Failure setup .body s ⟨.endOfInput, s.skipLineBreaks.endPosition⟩
  | shallowBody {s : State} {token : Token} (hbreak : s.isNext .newline)
      (htoken : s.skipLineBreaks.current? = some token)
      (hcolumn : token.column < s.skipLineBreaks.openBlock.indentation.current) :
      Failure setup .body s
        ⟨.indentation s.skipLineBreaks.openBlock.indentation.current token.column, token.span.start⟩
  | indentedBody {s : State} {token : Token} {d : Diagnostic} (hbreak : s.isNext .newline)
      (htoken : s.skipLineBreaks.current? = some token)
      (hcolumn : s.skipLineBreaks.openBlock.indentation.current ≤ token.column)
      (htrees : Failure setup (.statements s.skipLineBreaks.openBlock.indentation.current)
        s.skipLineBreaks.openBlock d) : Failure setup .body s d

namespace Failure

variable {setup : Setup PrefixRule InfixRule} {s : State} {d : Diagnostic} {token : Token}

/-- What a bracketed sequence reports: a fault inside, or that the bracket is not closed. -/
def InBrackets (setup : Setup PrefixRule InfixRule) (close : Kind) (s : State) (d : Diagnostic) : Prop :=
  Failure setup (.items close) s.openGroup d ∨
    ∃ items t, Run setup (.items close) s.openGroup items t ∧ t.Unclosed setup.source close d

/-- What a rule reports that does nothing but refuse its token, read one thing or read a sequence. -/
def Plain (setup : Setup PrefixRule InfixRule) (task : Task) (s : State) (d : Diagnostic) : Prop :=
  task.refusal? setup.source = some d ∨
    (∃ operand, task.operand? setup.grammar.power = some operand ∧ Failure setup operand s d) ∨
    ∃ close, task.close? = some close ∧ InBrackets setup close s d

theorem of_plain {task : Task} (h : Plain setup task s d) : Failure setup task s d := by
  rcases h with hrefusal | ⟨operand, hreads, h⟩ | ⟨close, hclose, h | ⟨items, t, hitems, hstop⟩⟩
  · exact .refused hrefusal
  · exact .operand hreads h
  · exact .inside hclose h
  · exact .unclosed hclose hitems hstop

theorem start_iff {rule : PrefixRule} (hrule : rule ≠ .parenthesis) :
    Failure setup (.start rule token) s d ↔ Plain setup (.start rule token) s d := by
  refine ⟨fun h => ?_, of_plain⟩
  cases h with
  | refused hrefusal => exact .inl hrefusal
  | operand hreads h => exact .inr (.inl ⟨_, hreads, h⟩)
  | inside hclose h => exact .inr (.inr ⟨_, hclose, .inl h⟩)
  | unclosed hclose hitems hstop => exact .inr (.inr ⟨_, hclose, .inr ⟨_, _, hitems, hstop⟩⟩)
  | parameter | noArrow | noFollower => exact absurd rfl hrule

theorem continuation_iff {rule : InfixRule} {left : Tree} (hrule : rule ≠ .index) :
    Failure setup (.continuation rule left token) s d ↔
      Plain setup (.continuation rule left token) s d := by
  refine ⟨fun h => ?_, of_plain⟩
  cases h with
  | refused hrefusal => exact .inl hrefusal
  | operand hreads h => exact .inr (.inl ⟨_, hreads, h⟩)
  | inside hclose h => exact .inr (.inr ⟨_, hclose, .inl h⟩)
  | unclosed hclose hitems hstop => exact .inr (.inr ⟨_, hclose, .inr ⟨_, _, hitems, hstop⟩⟩)
  | index | unclosedIndex => exact absurd rfl hrule

end Failure

end Offside
