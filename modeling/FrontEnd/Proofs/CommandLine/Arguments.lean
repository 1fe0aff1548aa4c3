import FrontEnd.CommandLine.Options
import Mathlib.Data.List.Induction
import Mathlib.Data.String.Basic

/-! # What a command line asks for

The arguments after a command are read from left to right. What one of them means depends on those
before it: up to two dashes, what starts with a dash is a flag, unless it is the dash alone. The
first argument that asks for help, that is a flag nobody knows or that is an input after another one
decides; if there is none, all flags and the one input count, wherever they stand. -/

namespace FrontEnd

namespace Command

theorem ofName?_name (command : Command) : ofName? command.name = some command := by
  cases command <;> decide

theorem isHelp_name (command : Command) : Options.isHelp command.name = false := by
  cases command <;> decide

end Command

namespace Options

theorem parse_command (command : Command) (args : List String) :
    parse (command.name :: args) = readArgs command {} args := by
  simp only [parse, command.isHelp_name, command.ofName?_name, Bool.false_eq_true, if_false]

/-! ## Flags -/

inductive Flag where
  | quiet
  | expectFailure
deriving DecidableEq

namespace Flag

def text : Flag → String
  | quiet => "--quiet"
  | expectFailure => "--expect-failure"

def isSet (options : Options) : Flag → Bool
  | quiet => options.quiet
  | expectFailure => options.expectFailure

end Flag

/-- An argument of two bytes or more that starts with a dash. -/
def IsDashed (arg : String) : Prop := 2 ≤ arg.utf8ByteSize ∧ arg.toList.head? = some '-'

theorem looksLikeFlag_iff (arg : String) : looksLikeFlag arg ↔ IsDashed arg := by
  rw [looksLikeFlag, IsDashed, ← String.utf8Len_toList]
  cases arg.toList with
  | nil => simp
  | cons first rest =>
      by_cases hfirst : first = '-'
      · subst hfirst
        have hdash : '-'.utf8Size = 1 := rfl
        cases rest with
        | nil => simp [hdash]
        | cons next rest =>
            have hnext := next.utf8Size_pos
            simp only [String.utf8Len_cons, hdash, List.head?_cons, and_true, true_iff]
            omega
      · simp [hfirst]

/-! ## Arguments after others -/

/-- An argument is read as a flag if it is dashed and no two dashes stand before it. -/
def IsFlag (before : List String) (arg : String) : Prop := "--" ∉ before ∧ IsDashed arg

/-- An argument occurs among others where it is read in some way after those before it. -/
def Occurs (reads : List String → String → Prop) (args : List String) (arg : String) : Prop :=
  ∃ before, before ++ [arg] <+: args ∧ reads before arg

def HasFlag (args : List String) (flag : Flag) : Prop := Occurs IsFlag args flag.text

def HasInput (args : List String) (input : String) : Prop :=
  Occurs (fun before arg => ¬ IsFlag before arg) args input

/-- What an argument decides after others that have not decided. -/
inductive Decides (before : List String) (arg : String) : Except ArgumentError Request → Prop
  | help : IsFlag before arg → isHelp arg → Decides before arg (.ok .help)
  | unknownFlag : IsFlag before arg → arg ≠ "--" → ¬ isHelp arg → (∀ flag : Flag, arg ≠ flag.text) →
      Decides before arg (.error (.unknownFlag arg))
  | secondInput {first : String} : ¬ IsFlag before arg → HasInput before first →
      Decides before arg (.error .multipleInputs)

def Undecided (args : List String) : Prop :=
  ∀ before arg outcome, before ++ [arg] <+: args → ¬ Decides before arg outcome

/-- What arguments come to of which none decides: the flags among them and their input. -/
inductive Concludes (command : Command) (args : List String) : Except ArgumentError Request → Prop
  | noInput : (∀ input, ¬ HasInput args input) → Concludes command args (.error .noInput)
  | run {options : Options} : options.command = command → HasInput args options.input →
      (∀ flag : Flag, flag.isSet options ↔ HasFlag args flag) →
      Concludes command args (.ok (.run options))

/-- The first argument that decides gives the outcome, and if none does, their end. -/
inductive Outcome (command : Command) (args : List String)
    (outcome : Except ArgumentError Request) :
    Prop
  | decided {before : List String} {arg : String} : before ++ [arg] <+: args → Undecided before →
      Decides before arg outcome → Outcome command args outcome
  | concluded : Undecided args → Concludes command args outcome → Outcome command args outcome

/-! ### One more argument -/

theorem concat_prefix_concat_iff {xs ys : List String} {x y : String} :
    xs ++ [x] <+: ys ++ [y] ↔ xs ++ [x] <+: ys ∨ (xs = ys ∧ x = y) := by
  rw [List.prefix_concat_iff, List.append_singleton_inj, or_comm]

variable {before args : List String} {arg : String}

theorem not_occurs_nil {reads : List String → String → Prop} : ¬ Occurs reads [] arg := by
  rintro ⟨before, hmem, -⟩
  exact List.concat_ne_nil _ _ (List.prefix_nil.mp hmem)

theorem occurs_concat_iff {reads : List String → String → Prop} {other : String} :
    Occurs reads (before ++ [arg]) other ↔
      Occurs reads before other ∨ (other = arg ∧ reads before arg) := by
  simp only [Occurs, concat_prefix_concat_iff, or_and_right, exists_or]
  refine or_congr_right ⟨?_, ?_⟩
  · rintro ⟨_, ⟨rfl, rfl⟩, hread⟩
    exact ⟨rfl, hread⟩
  · rintro ⟨rfl, hread⟩
    exact ⟨_, ⟨rfl, rfl⟩, hread⟩

theorem hasFlag_concat_iff {flag : Flag} :
    HasFlag (before ++ [arg]) flag ↔ HasFlag before flag ∨ (flag.text = arg ∧ IsFlag before arg) :=
  occurs_concat_iff

theorem hasInput_concat_iff {input : String} :
    HasInput (before ++ [arg]) input ↔
      HasInput before input ∨ (input = arg ∧ ¬ IsFlag before arg) :=
  occurs_concat_iff

theorem undecided_nil : Undecided [] := by
  intro before arg outcome hmem
  exact absurd (List.prefix_nil.mp hmem) (List.concat_ne_nil _ _)

theorem undecided_concat (h : Undecided before) (harg : ∀ outcome, ¬ Decides before arg outcome) :
    Undecided (before ++ [arg]) := by
  intro earlier other outcome hmem
  obtain hmem | ⟨rfl, rfl⟩ := concat_prefix_concat_iff.mp hmem
  · exact h earlier other outcome hmem
  · exact harg outcome

/-- Some argument is the first one to decide, or none decides. -/
theorem undecided_or_decided (args : List String) :
    Undecided args ∨ ∃ before arg outcome, before ++ [arg] <+: args ∧ Undecided before ∧
      Decides before arg outcome := by
  induction args using List.reverseRecOn with
  | nil => exact .inl undecided_nil
  | append_singleton args arg ih =>
      obtain hundecided | ⟨before, first, outcome, hmem, hbefore, hdecides⟩ := ih
      · by_cases hdecides : ∃ outcome, Decides args arg outcome
        · obtain ⟨outcome, hdecides⟩ := hdecides
          exact .inr ⟨args, arg, outcome, List.prefix_rfl, hundecided, hdecides⟩
        · exact .inl (undecided_concat hundecided (not_exists.mp hdecides))
      · exact .inr ⟨before, first, outcome, hmem.trans (List.prefix_append _ _), hbefore, hdecides⟩

/-! ## Reading one argument -/

/-- What has been read once flags have been read too. -/
def Progress.give (p : Progress) (flags : List Flag) : Progress :=
  { p with
    quiet := p.quiet || decide (.quiet ∈ flags)
    expectFailure := p.expectFailure || decide (.expectFailure ∈ flags) }

variable {command : Command} {p : Progress} {outcome : Except ArgumentError Request}

theorem readsFlag_iff : (!p.flagsDone && looksLikeFlag arg) = true ↔
    p.flagsDone = false ∧ IsDashed arg := by
  rw [Bool.and_eq_true, Bool.not_eq_true', looksLikeFlag_iff]

theorem Flag.isDashed_text (flag : Flag) : IsDashed flag.text := by
  rw [← looksLikeFlag_iff]
  cases flag <;> decide

theorem isDashed_dashes : IsDashed "--" := by
  rw [← looksLikeFlag_iff]
  decide

theorem readArgs_flag (hopen : p.flagsDone = false) (flag : Flag) (rest : List String) :
    readArgs command p (flag.text :: rest) = readArgs command (p.give [flag]) rest := by
  rw [readArgs, if_pos (readsFlag_iff.mpr ⟨hopen, flag.isDashed_text⟩)]
  cases flag <;> simp [Flag.text, Progress.give]

theorem readArgs_dashes (hopen : p.flagsDone = false) (rest : List String) :
    readArgs command p ("--" :: rest) = readArgs command { p with flagsDone := true } rest := by
  rw [readArgs, if_pos (readsFlag_iff.mpr ⟨hopen, isDashed_dashes⟩), if_pos rfl]

theorem readArgs_input (hread : ¬ (p.flagsDone = false ∧ IsDashed arg)) (hnone : p.input = none)
    (rest : List String) :
    readArgs command p (arg :: rest) = readArgs command { p with input := some arg } rest := by
  rw [readArgs, if_neg (readsFlag_iff.not.mpr hread), hnone]

/-! ## What has been read -/

/-- What has been read says which flags and which input there were. -/
structure Says (p : Progress) (before : List String) : Prop where
  flagsDone : p.flagsDone ↔ "--" ∈ before
  quiet : p.quiet ↔ HasFlag before .quiet
  expectFailure : p.expectFailure ↔ HasFlag before .expectFailure
  input : ∀ input, p.input = some input ↔ HasInput before input

namespace Says

theorem nil : Says {} [] where
  flagsDone := by simp
  quiet := by simp [HasFlag, not_occurs_nil]
  expectFailure := by simp [HasFlag, not_occurs_nil]
  input := by simp [HasInput, not_occurs_nil]

theorem isFlag_iff (h : Says p before) (arg : String) :
    p.flagsDone = false ∧ IsDashed arg ↔ IsFlag before arg := by
  rw [IsFlag, ← h.flagsDone, Bool.not_eq_true]

/-- An argument that decides ends the reading. -/
theorem readArgs_of_decides (h : Says p before) (hdecides : Decides before arg outcome)
    (rest : List String) : readArgs command p (arg :: rest) = outcome := by
  cases hdecides with
  | help hflag hhelp =>
      rw [readArgs, if_pos (readsFlag_iff.mpr ((h.isFlag_iff arg).mpr hflag))]
      obtain rfl | rfl : arg = "-h" ∨ arg = "--help" := by simpa [isHelp] using hhelp
      · rfl
      · rfl
  | unknownFlag hflag hdashes hhelp hunknown =>
      have hquiet : arg ≠ "--quiet" := hunknown .quiet
      have hexpectFailure : arg ≠ "--expect-failure" := hunknown .expectFailure
      rw [readArgs, if_pos (readsFlag_iff.mpr ((h.isFlag_iff arg).mpr hflag)), if_neg hdashes,
        if_neg hquiet, if_neg hexpectFailure, if_neg hhelp]
  | secondInput hinput hfirst =>
      rw [readArgs, if_neg (readsFlag_iff.not.mpr ((h.isFlag_iff arg).not.mpr hinput)),
        (h.input _).mpr hfirst]

theorem dashes (h : Says p before) (hflag : IsFlag before "--") :
    Says { p with flagsDone := true } (before ++ ["--"]) where
  flagsDone := by simp
  quiet := by simp [hasFlag_concat_iff, h.quiet, Flag.text]
  expectFailure := by simp [hasFlag_concat_iff, h.expectFailure, Flag.text]
  input := by simp [hasInput_concat_iff, h.input, hflag]

theorem give (h : Says p before) {flag : Flag} (hflag : IsFlag before flag.text) :
    Says (p.give [flag]) (before ++ [flag.text]) := by
  cases flag with
  | quiet =>
      exact ⟨by simp [Progress.give, h.flagsDone, Flag.text],
        by simp [Progress.give, hasFlag_concat_iff, hflag],
        by simp [Progress.give, hasFlag_concat_iff, h.expectFailure, Flag.text],
        by simp [Progress.give, hasInput_concat_iff, h.input, hflag]⟩
  | expectFailure =>
      exact ⟨by simp [Progress.give, h.flagsDone, Flag.text],
        by simp [Progress.give, hasFlag_concat_iff, h.quiet, Flag.text],
        by simp [Progress.give, hasFlag_concat_iff, hflag],
        by simp [Progress.give, hasInput_concat_iff, h.input, hflag]⟩

theorem put (h : Says p before) (hinput : ¬ IsFlag before arg) (hnone : p.input = none) :
    Says { p with input := some arg } (before ++ [arg]) where
  flagsDone := by
    rw [h.flagsDone, List.mem_append, List.mem_singleton]
    refine ⟨.inl, ?_⟩
    -- two dashes are an input only after others
    rintro (hbefore | rfl)
    · exact hbefore
    · by_contra hnot
      exact hinput ⟨hnot, isDashed_dashes⟩
  quiet := by simp [hasFlag_concat_iff, h.quiet, hinput]
  expectFailure := by simp [hasFlag_concat_iff, h.expectFailure, hinput]
  input := by
    intro input
    have hfirst : ¬ HasInput before input := by simp [← h.input, hnone]
    simp [hasInput_concat_iff, hfirst, hinput, eq_comm]

/-- An argument that does not decide is added to what has been read. -/
theorem exists_next (h : Says p before) (command : Command)
    (harg : ∀ outcome, ¬ Decides before arg outcome) :
    ∃ next, Says next (before ++ [arg]) ∧
      ∀ rest, readArgs command p (arg :: rest) = readArgs command next rest := by
  by_cases hflag : IsFlag before arg
  · have hopen := ((h.isFlag_iff arg).mpr hflag).1
    by_cases hdashes : arg = "--"
    · subst hdashes
      exact ⟨_, h.dashes hflag, readArgs_dashes hopen⟩
    · obtain ⟨flag, rfl⟩ : ∃ flag : Flag, arg = flag.text := by
        by_contra hunknown
        by_cases hhelp : isHelp arg
        · exact harg _ (.help hflag hhelp)
        · exact harg _ (.unknownFlag hflag hdashes hhelp (not_exists.mp hunknown))
      exact ⟨_, h.give hflag, readArgs_flag hopen flag⟩
  · have hnone : p.input = none := by
      rw [Option.eq_none_iff_forall_ne_some]
      intro first hfirst
      exact harg _ (.secondInput hflag ((h.input first).mp hfirst))
    exact ⟨_, h.put hflag hnone, readArgs_input ((h.isFlag_iff arg).not.mpr hflag) hnone⟩

/-- Arguments of which none decides are added one after another. -/
theorem run (h : Says p before) (command : Command) (args : List String)
    (hundecided : Undecided (before ++ args)) :
    ∃ last, Says last (before ++ args) ∧
      ∀ rest, readArgs command p (args ++ rest) = readArgs command last rest := by
  induction args generalizing p before with
  | nil =>
      rw [List.append_nil]
      exact ⟨p, h, fun _ => rfl⟩
  | cons arg args ih =>
      rw [List.append_cons] at hundecided ⊢
      obtain ⟨next, hnext, hstep⟩ := h.exists_next command fun outcome =>
        hundecided before arg outcome (List.prefix_append _ _)
      obtain ⟨last, hlast, hrest⟩ := ih hnext hundecided
      exact ⟨last, hlast, fun rest => (hstep _).trans (hrest rest)⟩

theorem readArgs_nil_iff (h : Says p args) :
    readArgs command p [] = outcome ↔ Concludes command args outcome := by
  constructor
  · rintro rfl
    rw [readArgs]
    cases hinput : p.input with
    | none =>
        refine .noInput fun input hhas => ?_
        rw [← h.input, hinput] at hhas
        cases hhas
    | some input =>
        refine .run rfl ((h.input input).mp hinput) fun flag => ?_
        cases flag with
        | quiet => exact h.quiet
        | expectFailure => exact h.expectFailure
  · intro hconcludes
    cases hconcludes with
    | noInput hnone =>
        have hinput : p.input = none := by
          rw [Option.eq_none_iff_forall_ne_some]
          exact fun input hinput => hnone input ((h.input input).mp hinput)
        rw [readArgs, hinput]
    | @run options hcommand hhas hflags =>
        have hquiet : p.quiet = options.quiet :=
          Bool.eq_iff_iff.mpr (h.quiet.trans (hflags .quiet).symm)
        have hexpectFailure : p.expectFailure = options.expectFailure :=
          Bool.eq_iff_iff.mpr (h.expectFailure.trans (hflags .expectFailure).symm)
        rw [readArgs, (h.input _).mpr hhas, hquiet, hexpectFailure, ← hcommand]

end Says

/-! ## Reading all arguments -/

theorem readArgs_of_decided (hmem : before ++ [arg] <+: args) (hbefore : Undecided before)
    (hdecides : Decides before arg outcome) : readArgs command {} args = outcome := by
  obtain ⟨rest, rfl⟩ := hmem
  obtain ⟨last, hlast, hrun⟩ := Says.nil.run command before hbefore
  rw [List.append_assoc, hrun]
  exact hlast.readArgs_of_decides hdecides rest

theorem readArgs_iff_concludes (hundecided : Undecided args) :
    readArgs command {} args = outcome ↔ Concludes command args outcome := by
  obtain ⟨last, hlast, hrun⟩ := Says.nil.run command args hundecided
  have hend := hrun []
  rw [List.append_nil] at hend
  rw [hend]
  exact hlast.readArgs_nil_iff

theorem parse_eq_iff_outcome (command : Command) (args : List String)
    (outcome : Except ArgumentError Request) :
    parse (command.name :: args) = outcome ↔ Outcome command args outcome := by
  rw [parse_command]
  constructor
  · rintro rfl
    obtain hundecided | ⟨before, arg, outcome, hmem, hbefore, hdecides⟩ := undecided_or_decided args
    · exact .concluded hundecided ((readArgs_iff_concludes hundecided).mp rfl)
    · rw [readArgs_of_decided hmem hbefore hdecides]
      exact .decided hmem hbefore hdecides
  · rintro (⟨hmem, hbefore, hdecides⟩ | ⟨hundecided, hconcludes⟩)
    · exact readArgs_of_decided hmem hbefore hdecides
    · exact (readArgs_iff_concludes hundecided).mpr hconcludes

/-! ## Flags around an input -/

theorem Progress.give_cons (p : Progress) (flag : Flag) (flags : List Flag) :
    p.give (flag :: flags) = (p.give [flag]).give flags := by
  simp [Progress.give, Bool.or_assoc]

theorem readArgs_flags (hopen : p.flagsDone = false) (flags : List Flag) (rest : List String) :
    readArgs command p (flags.map Flag.text ++ rest) = readArgs command (p.give flags) rest := by
  induction flags generalizing p with
  | nil => simp [Progress.give]
  | cons flag flags ih =>
      rw [List.map_cons, List.cons_append, readArgs_flag hopen, p.give_cons flag flags]
      exact ih hopen

theorem readArgs_flags_dashes (options : Options) {flags : List Flag}
    (hflags : ∀ flag, flag ∈ flags ↔ flag.isSet options) :
    readArgs options.command {} (flags.map Flag.text ++ ["--", options.input]) =
      .ok (.run options) := by
  rw [readArgs_flags rfl, readArgs_dashes rfl, readArgs_input (by simp) rfl, readArgs]
  simp [Progress.give, hflags, Flag.isSet]

theorem readArgs_flags_input (options : Options) {before after : List Flag}
    (hflags : ∀ flag, flag ∈ before ++ after ↔ flag.isSet options)
    (hinput : ¬ IsDashed options.input) :
    readArgs options.command {} (before.map Flag.text ++ options.input :: after.map Flag.text) =
      .ok (.run options) := by
  have hset : ∀ flag, (decide (flag ∈ before) || decide (flag ∈ after)) = flag.isSet options := by
    intro flag
    rw [Bool.eq_iff_iff, ← hflags]
    simp
  have hquiet : _ = options.quiet := hset .quiet
  have hexpectFailure : _ = options.expectFailure := hset .expectFailure
  rw [readArgs_flags rfl, readArgs_input (fun h => hinput h.2) rfl,
    ← List.append_nil (after.map Flag.text), readArgs_flags rfl, readArgs]
  simp [Progress.give, hquiet, hexpectFailure]

/-- Every placement of the flags and of the input is read back. With two dashes before it any input
is: flags stand before them, in any order and number. An input that is shorter than two bytes or
does not start with a dash may stand anywhere among the flags instead. Whatever the arguments of a
command are, the first one that asks for help, is an unknown flag or is a second input decides the
outcome; if there is none, the outcome is that of the flags and the input, or that there is no
input. -/
theorem parse_placements :
    (∀ (options : Options) (flags : List Flag), (∀ flag, flag ∈ flags ↔ flag.isSet options) →
      parse (options.command.name :: (flags.map Flag.text ++ ["--", options.input])) =
        .ok (.run options)) ∧
    (∀ (options : Options) (before after : List Flag),
      (∀ flag, flag ∈ before ++ after ↔ flag.isSet options) →
      (options.input.utf8ByteSize < 2 ∨ options.input.toList.head? ≠ some '-') →
      parse (options.command.name ::
          (before.map Flag.text ++ options.input :: after.map Flag.text)) =
        .ok (.run options)) ∧
    ∀ (command : Command) (args : List String) (outcome : Except ArgumentError Request),
      parse (command.name :: args) = outcome ↔ Outcome command args outcome := by
  refine ⟨fun options flags hflags => ?_, fun options before after hflags hinput => ?_,
    parse_eq_iff_outcome⟩
  · rw [parse_command]
    exact readArgs_flags_dashes options hflags
  · rw [parse_command]
    apply readArgs_flags_input options hflags
    rintro ⟨hsize, hdash⟩
    obtain hshort | hother := hinput
    · exact absurd hsize (Nat.not_le_of_lt hshort)
    · exact hother hdash

/-- A flag behind two dashes is an input, a dash alone is one anywhere, and of an unknown flag and a
second input the first decides. -/
theorem parse_placements_dashes :
    parse ["bind", "--quiet", "--quiet", "--", "--quiet"] =
      .ok (.run ⟨.bind, "--quiet", true, false⟩) ∧
    parse ["check", "--expect-failure", "-", "--quiet"] = .ok (.run ⟨.check, "-", true, true⟩) ∧
    Outcome .parse ["a", "--verbose", "b"] (.error (.unknownFlag "--verbose")) := by
  obtain ⟨hdashes, hplaced, houtcome⟩ := parse_placements
  refine ⟨hdashes ⟨.bind, "--quiet", true, false⟩ [.quiet, .quiet] ?_,
    hplaced ⟨.check, "-", true, true⟩ [.expectFailure] [.quiet] ?_ ?_,
    (houtcome .parse ["a", "--verbose", "b"] _).mp rfl⟩
  · rintro (_ | _) <;> decide
  · rintro (_ | _) <;> decide
  · exact .inl (by decide)

end Options

end FrontEnd
