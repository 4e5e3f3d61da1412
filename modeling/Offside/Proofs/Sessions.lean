import Offside.Proofs.Sessions.Keeping

set_option autoImplicit false

/-!
# Sessions restore what their readings open

Wherever commands have led, with brackets and blocks left open, by any grammar and behind reported faults, the
next expression, statement, block or body restores the open blocks, the open brackets and the depth, and
closes nothing that was not open.
-/
namespace Offside.Program

open Reading

/-- The sessions that commands lead to, whatever was set up and whatever faults were reported. -/
inductive Reached : Session PrefixRule InfixRule → Prop
  | start (setup : Setup PrefixRule InfixRule) (tokens : List Token) : Reached (.start setup tokens)
  | step {session next : Session PrefixRule InfixRule} (command : Command) (h : Reached session)
      (hgoes : command.play.GoesTo session next) : Reached next

/-- Every session that commands lead to counts the brackets of each level. -/
theorem counted_of_reached {session : Session PrefixRule InfixRule} (h : Reached session) :
    Counted session.state := by
  have hkept : ∃ tokens width, session.state.Kept tokens width := by
    induction h with
    | start setup tokens => exact ⟨_, _, .start tokens setup.settings.indentWidth⟩
    | step command _ hgoes ih =>
      obtain ⟨_, _, hs⟩ := ih
      exact ⟨_, _, (command.keeps hs hgoes).1⟩
  obtain ⟨_, _, hs⟩ := hkept
  exact hs.counted

/-- Wherever commands have led a session, an expression, a statement, a block or a body that is read there
restores the open blocks, the open brackets and the depth, and misuses nothing. -/
theorem restored_of_reached {session : Session PrefixRule InfixRule} (h : Reached session) :
    (∀ least, Restored session.state
      (Tree.language.expression session.setup least session.state)) ∧
    Restored session.state (session.setup.program.statement session.state) ∧
    (∀ level, Restored session.state (session.setup.program.block level session.state)) ∧
    Restored session.state (session.setup.program.body session.state) := by
  have hlaw := restores session.setup
  have hs := (counted_of_reached h).groups_ne_nil
  exact ⟨fun least => hlaw.expression least _ hs, hlaw.statement hlaw.expression _ hs,
    fun level => hlaw.block hlaw.expression level _ hs, hlaw.body hlaw.expression _ hs⟩

/-- In a bracket of a block the tokens end within a list that is an argument. -/
theorem restored_of_reached_in_block : ∃ session d t, Reached session ∧
    session.state.groups = [1, 0] ∧ session.state.indentation.levels = [2] ∧
    Tree.language.expression session.setup 0 session.state = .error (.reported d) t ∧
    t.ahead = [] ∧ t.groups = [1, 0] ∧ t.indentation.levels = [2] ∧ t.depth = 0 := by
  let ahead : List Token := [⟨.identifier, default⟩, ⟨.openParen, default⟩, ⟨.openBracket, default⟩,
    ⟨.identifier, default⟩, ⟨.newline, default⟩]
  have hstart := Reached.start ⟨.empty, "", {}⟩ (⟨.newline, default⟩ :: ahead)
  have hgrammar := hstart.step .useGrammar (.inl ⟨_, rfl⟩)
  have hblock := hgrammar.step (.engine .openBlock) (.inl ⟨_, rfl⟩)
  have hgroup := hblock.step (.engine .openGroup) (.inl ⟨_, rfl⟩)
  have hreached : Reached ⟨setup "" {}, ⟨[⟨.newline, default⟩], ahead, ⟨2, [2]⟩, [1, 0], 0⟩⟩ :=
    hgroup.step (.engine .consume) (.inl ⟨_, rfl⟩)
  have hends : (match Tree.language.expression (setup "" {}) 0
      ⟨[⟨.newline, default⟩], ahead, ⟨2, [2]⟩, [1, 0], 0⟩ with
      | .error (.reported _) t => t.done
      | _ => false) = true := by decide +kernel
  have hframe := (restored_of_reached hreached).1 0
  generalize hfails : Tree.language.expression _ _ _ = r at hends hframe
  rcases r with ⟨n, t⟩ | ⟨⟨d⟩ | ⟨m⟩, t⟩
  · cases hends
  · exact ⟨_, d, t, hreached, rfl, rfl, hfails, List.isEmpty_iff.1 hends, hframe.groups,
      congrArg Indentation.levels hframe.indentation, hframe.depth⟩
  · cases hends

end Offside.Program
