import FrontEnd.Proofs.CommandLine.Failures

/-! # Exit codes and streams agree

At most one diagnostic is emitted by a run, and it is an error. The exit code says whether there is
one and, with what is read of the arguments, where it comes from. -/

namespace FrontEnd

/-! ## Lines -/

namespace Terminal

theorem line_ne_empty (colors : Bool) (d : Diagnostic) : line colors d ≠ "" := by
  simp [line]

theorem lines_singleton (colors : Bool) (d : Diagnostic) : lines colors [d] = line colors d := by
  simp [lines, String.join]

end Terminal

namespace Run

variable {hash : Hasher} {options : Options} {world : World} {caused : Effects}
  {read : String → Except String (List UInt8)} {writeError? : Option String}
  {errorsToTerminal : Bool}

/-! ## What is reported -/

/-- Effects that are nothing but an error, or nothing but an output. -/
def Effects.Single (caused : Effects) : Prop :=
  caused.diagnostics = [] ∨ ∃ d, caused = { diagnostics := [d] } ∧ d.isError

theorem effects_single {result : Except PhaseError String} (source : String)
    (herror : ∀ e, result = .error e → e.diagnostic.isError) :
    (effects options source result).Single := by
  cases result with
  | ok listing =>
      simp only [effects]
      split
      · exact .inr ⟨_, rfl, rfl⟩
      · exact .inl (by split <;> rfl)
  | error e =>
      simp only [effects]
      split
      · exact .inl rfl
      · exact .inr ⟨_, rfl, herror e rfl⟩

theorem effectsOfInput_single (hcaused : effectsOfInput hash options world = .ok caused) :
    caused.Single := by
  unfold effectsOfInput at hcaused
  split at hcaused
  · cases hcaused
    exact .inr ⟨_, rfl, rfl⟩
  · rename_i bytes _
    obtain ⟨result, u, hresult, heffects⟩ := exists_effectsOfBytes_eq hash options bytes
    cases heffects.symm.trans hcaused
    exact effects_single _ fun e he => isError_of_phases (he ▸ hresult)

/-! ## Streams that accept or fail -/

theorem Sink.write_accepting (before : List String) (text : String) :
    accepting.write before text = ⟨text, none⟩ := by
  unfold write
  split
  · next hempty => rw [String.isEmpty_iff.mp hempty]
  · rfl

theorem Sink.writeAll_accepting (before texts : List String) :
    accepting.writeAll before texts = String.join texts := by
  induction texts generalizing before with
  | nil => rfl
  | cons text rest ih => rw [writeAll, write_accepting, ih, String.join_cons]

theorem World.stderr_steady :
    (steady read writeError? errorsToTerminal).stderr = .accepting := rfl

theorem World.report_steady (ds : List Diagnostic) :
    (steady read writeError? errorsToTerminal).report ds = Terminal.lines errorsToTerminal ds :=
  Sink.writeAll_accepting [] _

/-- An output that fails lets nothing through. -/
theorem World.write_steady_of_error (text : String) {e : String}
    (h : ((steady read writeError? errorsToTerminal).stdout.write [] text).error? = some e) :
    ((steady read writeError? errorsToTerminal).stdout.write [] text).arrived = "" := by
  cases writeError? with
  | none =>
      change (Sink.accepting.write [] text).error? = some e at h
      rw [Sink.write_accepting] at h
      cases h
  | some reason =>
      change ((Sink.failing reason).write [] text).arrived = ""
      unfold Sink.write
      split <;> rfl

/-- What is reported is nothing, or one error without any output. -/
theorem Effects.Single.reported (h : caused.Single)
    (hworld : world = .steady read writeError? errorsToTerminal) :
    caused.reported world = [] ∨ (∃ d, caused.reported world = [d] ∧ d.isError) ∧
      (world.stdout.write [] caused.output).arrived = "" := by
  obtain hnone | ⟨d, rfl, hd⟩ := h
  · rw [Effects.reported, hnone]
    cases herror : (world.stdout.write [] caused.output).error? with
    | none => exact .inl rfl
    | some e =>
        subst hworld
        exact .inr ⟨⟨_, rfl, rfl⟩, World.write_steady_of_error _ herror⟩
  · exact .inr ⟨⟨d, rfl, hd⟩, rfl⟩

/-! ## Runs -/

/-- The diagnostics that a run emits. -/
def emitted (hash : Hasher) (args : List String) (world : World) :
    Except Breach (List Diagnostic) :=
  match Options.parse args with
  | .ok .help => .ok []
  | .ok (.run options) => (effectsOfInput hash options world).map (·.reported world)
  | .error e => .ok [Diagnostic.error .driver e.message]

/-- The exit code, the streams and the emitted diagnostics of a run, where the arguments were read
as something or not. -/
structure Agrees (parsed : Except ArgumentError Request) (world : World) (outcome : Outcome)
    (ds : List Diagnostic) : Prop where
  single : ds.length ≤ 1 ∧ ∀ d ∈ ds, d.isError
  success_iff : outcome.status.code = 0 ↔ outcome.stderr = ""
  failure_iff : outcome.status.code = 1 ↔
    (∃ request, parsed = .ok request) ∧ ds.countP Diagnostic.isError = 1
  misuse_iff : outcome.status.code = 2 ↔ ∃ e, parsed = .error e
  stderr_of_request : ∀ request, parsed = .ok request →
    outcome.stderr = Terminal.lines world.errorsToTerminal ds
  stderr_of_error : ∀ e, parsed = .error e →
    ds = [Diagnostic.error .driver e.message] ∧
      outcome.stderr = Terminal.lines false ds ++ Options.usage
  success_of_stdout : outcome.stdout ≠ "" → outcome.status.code = 0

/-- Nothing is emitted by a run that succeeds. -/
theorem agrees_of_nothing {request : Request} {stdout : String} :
    Agrees (.ok request) world ⟨.success, stdout, ""⟩ [] where
  single := by simp
  success_iff := by simp [Status.code]
  failure_iff := by simp [Status.code]
  misuse_iff := by simp [Status.code]
  stderr_of_request _ _ := rfl
  stderr_of_error := nofun
  success_of_stdout _ := rfl

theorem agrees_of_error {request : Request} {d : Diagnostic} (hd : d.isError) :
    Agrees (.ok request) world ⟨.failure, "", Terminal.lines world.errorsToTerminal [d]⟩ [d] where
  single := by simp [hd]
  success_iff := by simp [Status.code, Terminal.lines_singleton, Terminal.line_ne_empty]
  failure_iff := by simp [Status.code, hd]
  misuse_iff := by simp [Status.code]
  stderr_of_request _ _ := rfl
  stderr_of_error := nofun
  success_of_stdout hstdout := absurd rfl hstdout

theorem agrees_of_misuse {e : ArgumentError} :
    Agrees (.error e) world
      ⟨.misuse, "", Terminal.line false (Diagnostic.error .driver e.message) ++ Options.usage⟩
      [Diagnostic.error .driver e.message] where
  single := ⟨Nat.le_refl 1, List.forall_mem_singleton.mpr rfl⟩
  success_iff := by simp [Status.code, Terminal.line_ne_empty]
  failure_iff := by simp [Status.code]
  misuse_iff := by simp [Status.code]
  stderr_of_request := nofun
  stderr_of_error := by
    rintro _ ⟨⟩
    exact ⟨rfl, by rw [Terminal.lines_singleton]⟩
  success_of_stdout hstdout := absurd rfl hstdout

/-- Every run ends with an exit code that agrees with its streams, whether writing the output
always fails or never does. -/
theorem run_streams_agree (hash : Hasher) (args : List String)
    (read : String → Except String (List UInt8)) (writeError? : Option String)
    (errorsToTerminal : Bool) :
    ∃ outcome ds, run hash args (.steady read writeError? errorsToTerminal) = .ok outcome ∧
      emitted hash args (.steady read writeError? errorsToTerminal) = .ok ds ∧
      Agrees (Options.parse args) (.steady read writeError? errorsToTerminal) outcome ds := by
  generalize hworld : World.steady read writeError? errorsToTerminal = world
  have hreport : ∀ ds, world.report ds = Terminal.lines world.errorsToTerminal ds := by
    subst hworld
    exact World.report_steady
  unfold run emitted
  cases Options.parse args with
  | error e =>
      refine ⟨_, _, rfl, rfl, ?_⟩
      subst hworld
      simp only [World.stderr_steady, Sink.write_accepting]
      exact agrees_of_misuse
  | ok request =>
      cases request with
      | help => exact ⟨_, _, rfl, rfl, agrees_of_nothing⟩
      | run options =>
          obtain ⟨caused, hcaused⟩ := effectsOfInput_answered hash options world
          refine ⟨_, caused.reported world, runCommand_eq hcaused,
            congrArg (Except.map _) hcaused, ?_⟩
          rw [hreport]
          obtain hnone | ⟨⟨d, hone, hd⟩, hstdout⟩ :=
            (effectsOfInput_single hcaused).reported hworld.symm
          · rw [hnone]
            exact agrees_of_nothing
          · rw [hone, hstdout, List.any_cons, hd]
            exact agrees_of_error hd

/-- An output that cannot be written is the error of a command that is otherwise done. -/
example : run .constant ["parse", "-"]
    (.steady (fun _ => .ok "def f() -> Int32 \x7b return 1 \x7d".toUTF8.toList)
      (some "broken pipe") false) =
      .ok ⟨.failure, "", "zeno: error: cannot write output: broken pipe\n"⟩ := by
  decide +kernel

end Run

end FrontEnd
