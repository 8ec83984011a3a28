import PolishNotation.CommandLine.Contribution

namespace PolishNotation.CommandLine

theorem Argument.ofTexts_terminator (expressions : List Text) :
    Argument.ofTexts (terminator :: expressions) =
      .ok ((terminator :: expressions).map .positional) := by
  rw [Argument.ofTexts, if_pos rfl]

/-- The short name of a switch is read as the switch without a value. -/
theorem Argument.ofTexts_shortName (switch : Switch) (rest : List Text) :
    Argument.ofTexts (switch.shortName :: rest) =
      (Argument.ofTexts rest).map (.switch switch .short none :: ·) := by
  cases switch <;> rfl

/-- Short names are read one after the other. -/
theorem Argument.ofTexts_shortNames (switches : List Switch) {rest : List Text}
    {arguments : List Argument} (read : Argument.ofTexts rest = .ok arguments) :
    Argument.ofTexts (switches.map Switch.shortName ++ rest) =
      .ok (switches.map (.switch · .short none) ++ arguments) := by
  induction switches with
  | nil => exact read
  | cons switch switches ih =>
      rw [List.map_cons, List.cons_append, ofTexts_shortName, ih]
      rfl

namespace Invocation

/-- Every positional argument is one more expression unless their run is over. -/
theorem run_positional (state : State) (going : state.stage ≠ .behind)
    (complete : state.leftover = []) (texts : List Text) :
    state.run (texts.map .positional) =
      .ok (.convert state.options ((state.expressions ++ texts).erase Argument.terminator)) := by
  induction texts generalizing state with
  | nil => simp [State.run, State.finish, complete]
  | cons text rest ih =>
      rw [List.map_cons, State.run, State.readPositional, if_neg going]
      have added := ih { state with stage := .among, expressions := state.expressions ++ [text] }
        nofun complete
      rwa [List.append_assoc, List.singleton_append] at added

/-- In front of the expressions a switch only turns its option on. -/
theorem run_switches (state : State) (before : state.stage = .before) {switches : List Switch}
    (noHelp : .help ∉ switches) (arguments : List Argument) :
    state.run (switches.map (.switch · .short none) ++ arguments) =
      State.run { state with options := switches.foldl Options.turnOn state.options } arguments := by
  induction switches generalizing state with
  | nil => rfl
  | cons switch rest ih =>
      rw [List.mem_cons, not_or] at noHelp
      have asks : ¬ [switch].contains Switch.help = true := by simpa using noHelp.1
      have read : state.readSwitches [switch] =
          { state with options := state.options.turnOn switch } := by
        rw [State.readSwitches, State.leave, if_pos before, ← before]
        rfl
      rw [List.map_cons, List.cons_append, State.run, cluster]
      dsimp only
      rw [if_neg asks, read]
      exact ih { state with options := state.options.turnOn switch } before noHelp.2

/-- Behind the terminator every text is an expression. -/
theorem ofTexts_arguments (options : Options) (expressions : List Text) :
    Invocation.ofTexts (options.arguments expressions) = .ok (.convert options expressions) := by
  have noHelp : .help ∉ options.switches := by
    unfold Options.switches
    split <;> split <;> split <;> decide
  have turnedOn : options.switches.foldl Options.turnOn .none = options := by
    obtain ⟨reverse, trace, verbose⟩ := options
    cases reverse <;> cases trace <;> cases verbose <;> rfl
  have read := Argument.ofTexts_shortNames options.switches (Argument.ofTexts_terminator expressions)
  rw [ofTexts, Options.arguments, read]
  calc State.start.run (options.switches.map (.switch · .short none) ++
        (Argument.terminator :: expressions).map .positional)
      = State.run { State.start with options := options.switches.foldl Options.turnOn .none }
          ((Argument.terminator :: expressions).map .positional) := run_switches .start rfl noHelp _
    _ = State.run { State.start with options := options }
          ((Argument.terminator :: expressions).map .positional) := by rw [turnedOn]
    _ = .ok (.convert options ((Argument.terminator :: expressions).erase Argument.terminator)) :=
          run_positional { State.start with options := options } nofun rfl _
    _ = .ok (.convert options expressions) := by rw [List.erase_cons_head]

end Invocation

end PolishNotation.CommandLine
