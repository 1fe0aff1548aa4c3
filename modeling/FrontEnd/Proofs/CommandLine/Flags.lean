import FrontEnd.Proofs.CommandLine.Failures

/-! # Flags

A quiet run differs from a plain one only in that it prints nothing. A run that is to fail turns the
exit code around if only the command's own phase is left to fail. -/

namespace FrontEnd.Run

variable {hash : Hasher} {command : Command} {world : World} {e : PhaseError} {listing : String}
  {args quietArgs failingArgs : List String} {quiet : Bool}

/-! ## Phases that fail -/

theorem parse_plain (command : Command) :
    Options.parse [command.name, "-"] = .ok (.run ⟨command, "-", false, false⟩) := by
  cases command <;> decide

/-- A command without flags fails on standard input. -/
def Fails (hash : Hasher) (world : World) (command : Command) : Prop :=
  ∃ outcome, run hash [command.name, "-"] world = .ok outcome ∧ outcome.status.code = 1

theorem fails_iff (hopen : world.Open) :
    Fails hash world command ↔ ∃ e, Gives hash world command (.error e) := by
  constructor
  · rintro ⟨outcome, houtcome, hcode⟩
    obtain ⟨result, hgives⟩ := hopen.exists_gives hash command
    cases result with
    | error e => exact ⟨e, hgives⟩
    | ok listing =>
        cases houtcome.symm.trans (hgives.run_of_ok hopen (parse_plain command))
        cases hcode
  · rintro ⟨e, hgives⟩
    exact ⟨_, hgives.run_of_error hopen (parse_plain command), rfl⟩

/-- A phase before the command's own fails exactly if the error is not that of the command's own. -/
theorem Gives.exists_earlier_fails_iff (h : Gives hash world command (.error e))
    (hopen : world.Open) :
    (∃ earlier ∈ command.earlier, Fails hash world earlier) ↔ e.phase ≠ command := by
  constructor
  · rintro ⟨earlier, hearlier, hfails⟩ hphase
    obtain ⟨e', hgives⟩ := (fails_iff hopen).mp hfails
    cases h.unique (hgives.of_earlier hearlier)
    have hapart : earlier ∈ command.earlier → command ≠ earlier ∧ command ∉ earlier.earlier := by
      cases command <;> cases earlier <;> decide
    obtain ⟨hne, hnot⟩ := hapart hearlier
    exact hnot (hphase ▸ (hgives.of_phase (hphase ▸ hne)).1)
  · intro hphase
    obtain ⟨hearlier, hgives⟩ := h.of_phase hphase
    exact ⟨e.phase, hearlier, (fails_iff hopen).mpr ⟨e, hgives⟩⟩

theorem Gives.not_earlier_fails (h : Gives hash world command (.ok listing)) (hopen : world.Open) :
    ¬ ∃ earlier ∈ command.earlier, Fails hash world earlier := by
  rintro ⟨earlier, hearlier, hfails⟩
  obtain ⟨e, hgives⟩ := (fails_iff hopen).mp hfails
  cases h.unique (hgives.of_earlier hearlier)

/-! ## Runs that are to fail -/

/-- The line about a command that was to fail and did not. -/
def expectedToFailLine (colors : Bool) (command : Command) : String :=
  Terminal.styled colors Terminal.bold "<stdin>" ++ ": " ++
    Terminal.styled colors (Terminal.severityColor .error) "error" ++ ": " ++ command.name ++
    " was expected to fail\n"

theorem line_expectedToFail (colors : Bool) (command : Command) :
    Terminal.line colors ((Diagnostic.error .driver
      (command.name ++ " was expected to fail")).withSource "<stdin>") =
      expectedToFailLine colors command := by
  cases colors <;> cases command <;> decide

theorem Gives.run_to_fail_of_ok (h : Gives hash world command (.ok listing)) (hopen : world.Open)
    (hargs : Options.parse args = .ok (.run ⟨command, "-", quiet, true⟩)) :
    run hash args world = .ok ⟨.failure, "",
      (world.stderr.write [] (expectedToFailLine world.errorsToTerminal command)).arrived⟩ := by
  rw [h.run_eq hopen hargs, ← line_expectedToFail, ← World.report_singleton]
  exact congrArg Except.ok (outcome_of_error rfl)

theorem Gives.run_to_fail_of_own (h : Gives hash world command (.error e)) (hopen : world.Open)
    (hargs : Options.parse args = .ok (.run ⟨command, "-", quiet, true⟩))
    (hphase : e.phase = command) : run hash args world = .ok ⟨.success, "", ""⟩ := by
  rw [h.run_eq hopen hargs]
  simp [effects, hphase, Effects.outcome, World.report, Sink.writeAll]

theorem Gives.run_to_fail_of_earlier (h : Gives hash world command (.error e)) (hopen : world.Open)
    (hargs : Options.parse args = .ok (.run ⟨command, "-", quiet, true⟩))
    (hphase : e.phase ≠ command) :
    run hash args world =
      .ok ⟨.failure, "", world.report [e.diagnostic.withSource "<stdin>"]⟩ := by
  rw [h.run_eq hopen hargs]
  simp only [effects, hphase, decide_false, Bool.and_false, Bool.false_eq_true, if_false]
  exact congrArg Except.ok (outcome_of_error h.isError)

/-- Flags change what they say and nothing else. A quiet run has the exit code and the errors of the
plain run and prints nothing. A run that is to fail prints nothing either: it fails with the same
errors if an earlier phase fails, succeeds without any if the command's own phase fails, and fails
with a line that says so if none fails. Of this line arrives what standard error accepts. -/
theorem run_with_flags (hash : Hasher) (hopen : world.Open)
    (hplain : Options.parse args = .ok (.run ⟨command, "-", false, false⟩))
    (hquiet : Options.parse quietArgs = .ok (.run ⟨command, "-", true, false⟩))
    (hfailing : Options.parse failingArgs = .ok (.run ⟨command, "-", quiet, true⟩)) :
    ∃ plain quietly failing, run hash args world = .ok plain ∧
      run hash quietArgs world = .ok quietly ∧ run hash failingArgs world = .ok failing ∧
      quietly = { plain with stdout := "" } ∧
      ((∃ earlier ∈ command.earlier, Fails hash world earlier) →
        failing.status.code = 1 ∧ failing.stdout = "" ∧ failing.stderr = plain.stderr) ∧
      ((∀ earlier ∈ command.earlier, ¬ Fails hash world earlier) → plain.status.code = 1 →
        failing.status.code = 0 ∧ failing.stdout = "" ∧ failing.stderr = "") ∧
      (plain.status.code = 0 → failing.status.code = 1 ∧ failing.stdout = "" ∧
        failing.stderr = (world.stderr.write []
          (expectedToFailLine world.errorsToTerminal command)).arrived) ∧
      ((∀ earlier ∈ command.earlier, ¬ Fails hash world earlier) →
        failing.status.code + plain.status.code = 1) := by
  obtain ⟨result, hgives⟩ := hopen.exists_gives hash command
  cases result with
  | ok listing =>
      have hnone := hgives.not_earlier_fails hopen
      exact ⟨_, _, _, hgives.run_of_ok hopen hplain, hgives.run_of_ok hopen hquiet,
        hgives.run_to_fail_of_ok hopen hfailing, rfl, fun hearlier => absurd hearlier hnone, nofun,
        fun _ => ⟨rfl, rfl, rfl⟩, fun _ => rfl⟩
  | error e =>
      have hearlier := hgives.exists_earlier_fails_iff hopen
      by_cases hphase : e.phase = command
      · have hnone := mt hearlier.mp (not_not.mpr hphase)
        exact ⟨_, _, _, hgives.run_of_error hopen hplain, hgives.run_of_error hopen hquiet,
          hgives.run_to_fail_of_own hopen hfailing hphase, rfl,
          fun hearlier => absurd hearlier hnone, fun _ _ => ⟨rfl, rfl, rfl⟩, nofun, fun _ => rfl⟩
      · obtain ⟨earlier, hmem, hfails⟩ := hearlier.mpr hphase
        exact ⟨_, _, _, hgives.run_of_error hopen hplain, hgives.run_of_error hopen hquiet,
          hgives.run_to_fail_of_earlier hopen hfailing hphase, rfl, fun _ => ⟨rfl, rfl, rfl⟩,
          fun hnone => absurd hfails (hnone earlier hmem), nofun,
          fun hnone => absurd hfails (hnone earlier hmem)⟩

/-- Binding a name that is not known is what fails here, so a run that is to fail succeeds. -/
theorem run_with_flags_unbound : (World.ofText "def f() -> Int32 \x7b return x \x7d").Open ∧
    Options.parse ["bind", "-"] = .ok (.run ⟨.bind, "-", false, false⟩) ∧
    Options.parse ["bind", "-", "--quiet"] = .ok (.run ⟨.bind, "-", true, false⟩) ∧
    Options.parse ["bind", "--expect-failure", "-"] = .ok (.run ⟨.bind, "-", false, true⟩) ∧
    ∃ plain failing,
      run .constant ["bind", "-"] (World.ofText "def f() -> Int32 \x7b return x \x7d") = .ok plain ∧
      run .constant ["bind", "--expect-failure", "-"]
        (World.ofText "def f() -> Int32 \x7b return x \x7d") = .ok failing ∧
      plain.stderr = "<stdin>:1:27: error: undefined identifier `x`\n" ∧ plain.status.code = 1 ∧
      failing.status.code = 0 ∧ failing.stderr = "" := by
  have hopen := World.ofText_open "def f() -> Int32 \x7b return x \x7d"
  have hplain : Options.parse ["bind", "-"] = .ok (.run ⟨.bind, "-", false, false⟩) := by decide
  have hquiet : Options.parse ["bind", "-", "--quiet"] = .ok (.run ⟨.bind, "-", true, false⟩) := by
    decide
  have hfailing : Options.parse ["bind", "--expect-failure", "-"] =
      .ok (.run ⟨.bind, "-", false, true⟩) := by decide
  have hcodes : ∀ earlier ∈ Command.bind.earlier, (run .constant [earlier.name, "-"]
      (World.ofText "def f() -> Int32 \x7b return x \x7d")).map (·.status.code) = .ok 0 := by
    decide +kernel
  have hnone : ∀ earlier ∈ Command.bind.earlier,
      ¬ Fails .constant (World.ofText "def f() -> Int32 \x7b return x \x7d") earlier := by
    rintro earlier hearlier ⟨outcome, houtcome, hcode⟩
    have hzero := hcodes earlier hearlier
    rw [houtcome] at hzero
    cases hcode.symm.trans (Except.ok.inj hzero)
  have hevaluated : run .constant ["bind", "-"]
      (World.ofText "def f() -> Int32 \x7b return x \x7d") =
      .ok ⟨.failure, "", "<stdin>:1:27: error: undefined identifier `x`\n"⟩ := by decide +kernel
  obtain ⟨plain, quietly, failing, hrun, -, hrunFailing, -, -, hown, -, -⟩ :=
    run_with_flags .constant hopen hplain hquiet hfailing
  cases hrun.symm.trans hevaluated
  obtain ⟨hcode, -, hstderr⟩ := hown hnone rfl
  exact ⟨hopen, hplain, hquiet, hfailing, _, failing, hrun, hrunFailing, rfl, rfl, hcode, hstderr⟩

end FrontEnd.Run
