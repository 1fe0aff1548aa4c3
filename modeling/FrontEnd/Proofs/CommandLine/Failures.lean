import FrontEnd.Proofs.CommandLine.Run
import FrontEnd.Proofs.Diagnostic.Log

/-! # Failures of earlier phases

A command that runs the phases of another one fails wherever that one does, and reports the same. -/

namespace FrontEnd

variable {hash : Hasher}

/-- The commands whose phases a command runs before its own. A check does not bind. -/
def Command.earlier : Command → List Command
  | tokenize => []
  | parse => [tokenize]
  | bind | check => [tokenize, parse]

theorem BindingError.isError_of_diagnostic {hash : String → UInt32} {names : Interner hash}
    (e : BindingError) {diagnostic : Diagnostic} (h : e.diagnostic names = .ok diagnostic) :
    diagnostic.isError := by
  obtain ⟨message, -, rfl⟩ := Except.map_eq_ok_iff.mp h
  rfl

theorem TypingError.isError_of_diagnostic {u : CompilationUnit hash} (e : TypingError)
    {diagnostic : Diagnostic} (h : e.diagnostic u = .ok diagnostic) : diagnostic.isError := by
  obtain ⟨message, -, rfl⟩ := Except.map_eq_ok_iff.mp h
  rfl

namespace Run

variable {command earlier : Command} {u v w : CompilationUnit hash} {source : SourceId}
  {tokens : List Token} {options : Options} {world : World} {caused : Effects} {e : PhaseError}
  {args laterArgs : List String} {quiet laterQuiet expectFailure : Bool} {listing : String}
  {result other : Except PhaseError String}

/-! ## Errors of phases -/

theorem phases_of_lexicalError {fault : LexicalError}
    (h : u.readSource {} source = .ok (.error fault, w)) :
    phases command u source = .ok (.error ⟨.tokenize, fault.diagnostic⟩, w) := by
  simp only [phases, h, Bind.bind, Except.bind]
  rfl

theorem phases_of_syntaxError {fault : SyntaxError} (hcommand : .parse ∈ command :: command.earlier)
    (htokens : u.readSource {} source = .ok (.ok tokens, v))
    (h : v.parse tokens = (.error fault, w)) :
    phases command u source = .ok (.error ⟨.parse, fault.diagnostic⟩, w) := by
  have hparses : command ≠ .tokenize := by
    rintro rfl
    exact absurd hcommand (by decide)
  simp only [phases, htokens, h, if_neg hparses, Bind.bind, Except.bind]
  rfl

/-- What a listing gives is no error. -/
theorem listing_ne_error {listing : Except Breach String} :
    (listing >>= fun text => pure (.ok text, v) :
      Except Breach (Except PhaseError String × CompilationUnit hash)) ≠ .ok (.error e, w) := by
  cases listing <;> exact nofun

/-- An error that a phase describes is one of that phase. -/
theorem described_error {described : Except Breach Diagnostic}
    (h : (described >>= fun diagnostic => pure (.error ⟨command, diagnostic⟩, v) :
      Except Breach (Except PhaseError String × CompilationUnit hash)) = .ok (.error e, w)) :
    e.phase = command ∧ described = .ok e.diagnostic := by
  obtain ⟨diagnostic, hdiagnostic, h⟩ := Except.bind_eq_ok_iff.mp h
  cases h
  exact ⟨rfl, hdiagnostic⟩

/-- An error about an item that is parsed is one of the command's own phase. -/
theorem itemPhase_error {item : ItemId} (h : itemPhase command u item = .ok (.error e, w)) :
    e.phase = command ∧ .parse ∈ command.earlier ∧ e.diagnostic.isError := by
  cases command with
  | tokenize => exact absurd h listing_ne_error
  | parse => exact absurd h listing_ne_error
  | bind =>
      obtain ⟨⟨bound, v⟩, -, h⟩ := Except.bind_eq_ok_iff.mp h
      cases bound with
      | ok done => exact absurd h listing_ne_error
      | error fault =>
          obtain ⟨hphase, hdiagnostic⟩ := described_error h
          exact ⟨hphase, by decide, fault.isError_of_diagnostic hdiagnostic⟩
  | check =>
      obtain ⟨⟨checked, v⟩, -, h⟩ := Except.bind_eq_ok_iff.mp h
      cases checked with
      | ok done => exact absurd h listing_ne_error
      | error fault =>
          obtain ⟨hphase, hdiagnostic⟩ := described_error h
          exact ⟨hphase, by decide, fault.isError_of_diagnostic hdiagnostic⟩

/-- An error is that of reading the source, that of parsing its tokens, or one of the command's own
phase. -/
theorem phases_error_cases (h : phases command u source = .ok (.error e, w)) :
    (∃ fault, u.readSource {} source = .ok (.error fault, w) ∧
      e = ⟨.tokenize, fault.diagnostic⟩) ∨
    (∃ tokens v fault, u.readSource {} source = .ok (.ok tokens, v) ∧
      v.parse tokens = (.error fault, w) ∧ .parse ∈ command :: command.earlier ∧
      e = ⟨.parse, fault.diagnostic⟩) ∨
    (e.phase = command ∧ .parse ∈ command.earlier ∧ e.diagnostic.isError) := by
  obtain ⟨⟨answer, v⟩, hread, h⟩ := Except.bind_eq_ok_iff.mp h
  cases answer with
  | error fault =>
      cases h
      exact .inl ⟨fault, hread, rfl⟩
  | ok tokens =>
      right
      by_cases hcommand : command = .tokenize
      · simp only [if_pos hcommand] at h
        exact absurd h listing_ne_error
      · have hparses : .parse ∈ command :: command.earlier := by
          revert hcommand
          cases command <;> decide
        simp only [if_neg hcommand] at h
        generalize hparsed : v.parse tokens = parsed at h
        obtain ⟨item?, x⟩ := parsed
        cases item? with
        | error fault =>
            cases h
            exact .inl ⟨tokens, v, fault, hread, hparsed, hparses, rfl⟩
        | ok item => exact .inr (itemPhase_error h)

theorem isError_of_phases (h : phases command u source = .ok (.error e, w)) :
    e.diagnostic.isError := by
  obtain ⟨fault, -, rfl⟩ | ⟨tokens, v, fault, -, -, -, rfl⟩ | ⟨-, -, herror⟩ :=
    phases_error_cases h
  · rfl
  · rfl
  · exact herror

/-- An error of phases that another command runs before its own is the error of that command. -/
theorem phases_of_earlier (hearlier : earlier ∈ command.earlier)
    (h : phases earlier u source = .ok (.error e, w)) :
    phases command u source = .ok (.error e, w) := by
  have hparse : .parse ∈ earlier :: earlier.earlier → .parse ∈ command :: command.earlier := by
    revert hearlier
    cases command <;> cases earlier <;> decide
  have hlast : .parse ∉ earlier.earlier := by
    revert hearlier
    cases command <;> cases earlier <;> decide
  obtain ⟨fault, hread, rfl⟩ | ⟨tokens, v, fault, htokens, hparsed, hparses, rfl⟩ | ⟨-, hown, -⟩ :=
    phases_error_cases h
  · exact phases_of_lexicalError hread
  · exact phases_of_syntaxError (hparse hparses) htokens hparsed
  · exact absurd hown hlast

/-- An error of a phase before the command's own is the error of the command for that phase. -/
theorem phases_phase (h : phases command u source = .ok (.error e, w))
    (hphase : e.phase ≠ command) :
    e.phase ∈ command.earlier ∧ phases e.phase u source = .ok (.error e, w) := by
  obtain ⟨fault, hread, rfl⟩ | ⟨tokens, v, fault, htokens, hparsed, hparses, rfl⟩ | ⟨hown, -⟩ :=
    phases_error_cases h
  · have hreads : .tokenize ∈ command :: command.earlier := by cases command <;> decide
    exact ⟨(List.mem_cons.mp hreads).resolve_left hphase, phases_of_lexicalError hread⟩
  · exact ⟨(List.mem_cons.mp hparses).resolve_left hphase,
      phases_of_syntaxError (List.mem_cons_self ..) htokens hparsed⟩
  · exact absurd hown hphase

/-! ## Outcomes -/

/-- What arrives of the lines about diagnostics. -/
def World.report (world : World) (ds : List Diagnostic) : String :=
  world.stderr.writeAll [] (ds.map (Terminal.line world.errorsToTerminal))

/-- One line is written at once. -/
theorem World.report_singleton (world : World) (d : Diagnostic) :
    world.report [d] =
      (world.stderr.write [] (Terminal.line world.errorsToTerminal d)).arrived := by
  simp only [report, List.map_cons, List.map_nil, Sink.writeAll]
  split <;> simp [*]

/-- What a run leaves of its effects if the output can be written. -/
def Effects.outcome (world : World) (caused : Effects) : Outcome :=
  ⟨if caused.diagnostics.any Diagnostic.isError then .failure else .success, caused.output,
    world.report caused.diagnostics⟩

/-- What is reported of effects, with an error that stands for an output that cannot be written. -/
def Effects.reported (caused : Effects) (world : World) : List Diagnostic :=
  caused.diagnostics ++ (world.stdout.write [] caused.output).error?.toList.map fun e =>
    Diagnostic.error .system ("cannot write output: " ++ e)

/-- What is reported of the effects of a command decides its status and is all of its errors. -/
theorem runCommand_eq (hcaused : effectsOfInput hash options world = .ok caused) :
    runCommand hash options world = .ok
      ⟨if (caused.reported world).any Diagnostic.isError then .failure else .success,
        (world.stdout.write [] caused.output).arrived, world.report (caused.reported world)⟩ := by
  simp only [runCommand, hcaused, Bind.bind, Except.bind, DiagnosticLog.drain_foldl_add,
    DiagnosticLog.hasErrors_drain_foldl_add]
  rfl

theorem runCommand_of_writable (hwritable : ∀ text, world.stdout.put [] text = ⟨text, none⟩)
    (hcaused : effectsOfInput hash options world = .ok caused) :
    runCommand hash options world = .ok (caused.outcome world) := by
  have hwritten : world.stdout.write [] caused.output = ⟨caused.output, none⟩ := by
    unfold Sink.write
    split
    · next hempty => rw [String.isEmpty_iff.mp hempty]
    · exact hwritable caused.output
  have hreported : caused.reported world = caused.diagnostics := by
    simp [Effects.reported, hwritten]
  rw [runCommand_eq hcaused, hreported, hwritten, Effects.outcome]

/-- The outcome of a run that reports one error. -/
theorem outcome_of_error {diagnostic : Diagnostic} (h : diagnostic.isError) :
    Effects.outcome world { diagnostics := [diagnostic] } =
      ⟨.failure, "", world.report [diagnostic]⟩ := by
  simp [Effects.outcome, h]

/-! ## Standard input -/

/-- Standard input can be read, and the output can be written. Errors may get lost. -/
structure World.Open (world : World) : Prop where
  readable : ∃ bytes, world.read "-" = .ok bytes
  writable : ∀ text, world.stdout.put [] text = ⟨text, none⟩

/-- The phases of a command give a result for standard input. -/
def Gives (hash : Hasher) (world : World) (command : Command) (result : Except PhaseError String) :
    Prop :=
  ∃ bytes u, world.read "-" = .ok bytes ∧
    phases command ((CompilationUnit.new hash).addSource "-" bytes).2
      ((CompilationUnit.new hash).addSource "-" bytes).1 = .ok (result, u)

theorem World.Open.exists_gives (hash : Hasher) (h : world.Open) (command : Command) :
    ∃ result, Gives hash world command result := by
  obtain ⟨bytes, hread⟩ := h.readable
  obtain ⟨result, u, hresult, -⟩ := phases_answered hash command "-" bytes
  exact ⟨result, bytes, u, hread, hresult⟩

namespace Gives

theorem unique (h : Gives hash world command result) (h' : Gives hash world command other) :
    result = other := by
  obtain ⟨bytes, u, hread, hresult⟩ := h
  obtain ⟨bytes', u', hread', hother⟩ := h'
  cases hread.symm.trans hread'
  cases hresult.symm.trans hother
  rfl

theorem isError (h : Gives hash world command (.error e)) : e.diagnostic.isError := by
  obtain ⟨bytes, u, -, hresult⟩ := h
  exact isError_of_phases hresult

theorem of_earlier (h : Gives hash world earlier (.error e))
    (hearlier : earlier ∈ command.earlier) :
    Gives hash world command (.error e) := by
  obtain ⟨bytes, u, hread, hresult⟩ := h
  exact ⟨bytes, u, hread, phases_of_earlier hearlier hresult⟩

theorem of_phase (h : Gives hash world command (.error e)) (hphase : e.phase ≠ command) :
    e.phase ∈ command.earlier ∧ Gives hash world e.phase (.error e) := by
  obtain ⟨bytes, u, hread, hresult⟩ := h
  obtain ⟨hearlier, hphase⟩ := phases_phase hresult hphase
  exact ⟨hearlier, bytes, u, hread, hphase⟩

/-- The outcome of a run on standard input is that of what the phases give. -/
theorem run_eq (h : Gives hash world command result) (hopen : world.Open)
    (hargs : Options.parse args = .ok (.run ⟨command, "-", quiet, expectFailure⟩)) :
    run hash args world =
      .ok ((effects ⟨command, "-", quiet, expectFailure⟩ "<stdin>" result).outcome world) := by
  obtain ⟨bytes, u, hread, hresult⟩ := h
  obtain ⟨result', u', hresult', heffects⟩ :=
    exists_effectsOfBytes_eq hash ⟨command, "-", quiet, expectFailure⟩ bytes
  cases hresult.symm.trans hresult'
  have hcaused : effectsOfInput hash ⟨command, "-", quiet, expectFailure⟩ world =
      .ok (effects ⟨command, "-", quiet, expectFailure⟩ "<stdin>" result) := by
    simp only [effectsOfInput, hread, heffects]
    rfl
  simp only [run, hargs]
  exact runCommand_of_writable hopen.writable hcaused

/-- A run that is not to fail reports the error of a phase. -/
theorem run_of_error (h : Gives hash world command (.error e)) (hopen : world.Open)
    (hargs : Options.parse args = .ok (.run ⟨command, "-", quiet, false⟩)) :
    run hash args world =
      .ok ⟨.failure, "", world.report [e.diagnostic.withSource "<stdin>"]⟩ := by
  rw [h.run_eq hopen hargs]
  exact congrArg Except.ok (outcome_of_error h.isError)

/-- A run that is not to fail succeeds with the listing, which it prints unless it is quiet. -/
theorem run_of_ok (h : Gives hash world command (.ok listing)) (hopen : world.Open)
    (hargs : Options.parse args = .ok (.run ⟨command, "-", quiet, false⟩)) :
    run hash args world = .ok ⟨.success, if quiet then "" else listing, ""⟩ := by
  rw [h.run_eq hopen hargs]
  cases quiet <;> rfl

end Gives

/-! ## Runs of two commands -/

/-- Wherever a command fails on standard input, each command that runs its phase fails too, prints
nothing and reports the same; so where this one succeeds, that one does. -/
theorem failure_of_earlier_failure (hash : Hasher) (hopen : world.Open)
    (hargs : Options.parse args = .ok (.run ⟨earlier, "-", quiet, false⟩))
    (hlater : Options.parse laterArgs = .ok (.run ⟨command, "-", laterQuiet, false⟩))
    (hearlier : earlier ∈ command.earlier) :
    ∃ outcome later, run hash args world = .ok outcome ∧ run hash laterArgs world = .ok later ∧
      (outcome.status.code = 1 →
        later.status.code = 1 ∧ later.stdout = "" ∧ later.stderr = outcome.stderr) ∧
      (later.status.code = 0 → outcome.status.code = 0) := by
  obtain ⟨result, hgives⟩ := hopen.exists_gives hash earlier
  cases result with
  | error e =>
      have hlaterGives := hgives.of_earlier hearlier
      exact ⟨_, _, hgives.run_of_error hopen hargs, hlaterGives.run_of_error hopen hlater,
        fun _ => ⟨rfl, rfl, rfl⟩, nofun⟩
  | ok listing =>
      obtain ⟨laterResult, hlaterGives⟩ := hopen.exists_gives hash command
      exact ⟨_, _, hgives.run_of_ok hopen hargs, hlaterGives.run_eq hopen hlater, nofun,
        fun _ => rfl⟩

/-- The world whose standard input is a text and whose errors go to a file. -/
def World.ofText (text : String) : World := .steady (fun _ => .ok text.toUTF8.toList) none false

theorem World.ofText_open (text : String) : (ofText text).Open := ⟨⟨_, rfl⟩, fun _ => rfl⟩

/-- What `parse` says about an item without a body is what `check` says about it. -/
theorem failure_of_earlier_failure_no_body : (World.ofText "def f() -> Int32").Open ∧
    Options.parse ["parse", "-"] = .ok (.run ⟨.parse, "-", false, false⟩) ∧
    Options.parse ["check", "--quiet", "-"] = .ok (.run ⟨.check, "-", true, false⟩) ∧
    .parse ∈ Command.check.earlier ∧
    ∃ later, run .constant ["check", "--quiet", "-"] (World.ofText "def f() -> Int32") = .ok later ∧
      later.status.code = 1 ∧ later.stdout = "" ∧
      later.stderr = "<stdin>:1:17: error: expected item, found end of file\n" := by
  have hopen := World.ofText_open "def f() -> Int32"
  have hparse : Options.parse ["parse", "-"] = .ok (.run ⟨.parse, "-", false, false⟩) := by decide
  have hcheck : Options.parse ["check", "--quiet", "-"] =
      .ok (.run ⟨.check, "-", true, false⟩) := by decide
  have hearlier : .parse ∈ Command.check.earlier := by decide
  obtain ⟨outcome, later, houtcome, hlater, hfails, -⟩ :=
    failure_of_earlier_failure .constant hopen hparse hcheck hearlier
  have hevaluated : run .constant ["parse", "-"] (World.ofText "def f() -> Int32") =
      .ok ⟨.failure, "", "<stdin>:1:17: error: expected item, found end of file\n"⟩ := by
    decide +kernel
  cases houtcome.symm.trans hevaluated
  obtain ⟨hcode, hstdout, hstderr⟩ := hfails rfl
  exact ⟨hopen, hparse, hcheck, hearlier, later, hlater, hcode, hstdout, hstderr⟩

end Run

end FrontEnd
