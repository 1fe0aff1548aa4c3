import FrontEnd.Diagnostic.Log

/-! # What a log gives out

However additions and drains follow one another, the lists that are drained make up what was added,
and the log knows whether there was an error among it. The pending diagnostics and the count of
errors change apart, so both are compared with all that was added. -/

namespace FrontEnd.DiagnosticLog

/-! ## Operations -/

inductive Operation where
  | add (d : Diagnostic)
  | drain
deriving DecidableEq

/-- Does one operation after another. The lists that they drain come with the log that is left. -/
def run (log : DiagnosticLog) : List Operation → List (List Diagnostic) × DiagnosticLog
  | [] => ([], log)
  | .add d :: ops => (log.add d).run ops
  | .drain :: ops =>
    let (drained, left) := log.drain
    let (later, last) := left.run ops
    (drained :: later, last)

/-- The diagnostics that operations add, in order. -/
def added : List Operation → List Diagnostic
  | [] => []
  | .add d :: ops => d :: added ops
  | .drain :: ops => added ops

theorem foldl_add_eq_run (ds : List Diagnostic) (log : DiagnosticLog) :
    log.run (ds.map .add) = ([], ds.foldl add log) := by
  induction ds generalizing log with
  | nil => rfl
  | cons d ds ih => exact ih (log.add d)

theorem added_map_add (ds : List Diagnostic) : added (ds.map .add) = ds := by
  induction ds with
  | nil => rfl
  | cons d ds ih => exact congrArg (d :: ·) ih

/-! ## Accounts -/

/-- What was drained from a log and what is pending make up what was added to it. The count is that
of the errors in all of it. -/
structure Accounts (log : DiagnosticLog) (drained all : List Diagnostic) : Prop where
  complete : drained ++ log.pending.reverse = all
  errors : log.errorCount = all.countP Diagnostic.isError

namespace Accounts

variable {log : DiagnosticLog} {drained all : List Diagnostic}

theorem empty : DiagnosticLog.empty.Accounts [] [] := ⟨rfl, rfl⟩

theorem add (h : log.Accounts drained all) (d : Diagnostic) :
    (log.add d).Accounts drained (all ++ [d]) where
  complete := by
    rw [DiagnosticLog.add, List.reverse_cons, ← List.append_assoc, h.complete]
  errors := by
    rw [DiagnosticLog.add, List.countP_append, List.countP_singleton, h.errors]
    split <;> rfl

theorem drain (h : log.Accounts drained all) :
    log.drain.2.Accounts (drained ++ log.drain.1) all where
  complete := by
    rw [← h.complete]
    exact List.append_nil _
  errors := h.errors

theorem run (h : log.Accounts drained all) (ops : List Operation) :
    (log.run ops).2.Accounts (drained ++ (log.run ops).1.flatten) (all ++ added ops) := by
  induction ops generalizing log drained all with
  | nil =>
      simp only [DiagnosticLog.run, added, List.flatten_nil, List.append_nil]
      exact h
  | cons op ops ih =>
      cases op with
      | add d =>
          have hrest := ih (h.add d)
          rwa [List.append_assoc, List.singleton_append] at hrest
      | drain =>
          have hrest := ih h.drain
          rwa [List.append_assoc, ← List.flatten_cons] at hrest

/-- Draining what is pending completes what was drained. -/
theorem append_drain_eq (h : log.Accounts drained all) : drained ++ log.drain.1 = all :=
  h.complete

theorem hasErrors_iff (h : log.Accounts drained all) :
    log.hasErrors ↔ ∃ d ∈ all, d.isError := by
  rw [hasErrors, decide_eq_true_iff, h.errors, List.countP_pos_iff]

end Accounts

/-- A log that starts empty loses no diagnostic, gives none out twice and keeps their order: what is
drained, with a last drain, is what was added. At every moment it has errors exactly if a diagnostic
that was added by then is one, whether it has been drained or not. -/
theorem run_empty_accounts (ops : List Operation) :
    (empty.run ops).1.flatten ++ (empty.run ops).2.drain.1 = added ops ∧
      ∀ n, (empty.run (ops.take n)).2.hasErrors ↔
        ∃ d ∈ added (ops.take n), d.severity = .error := by
  refine ⟨(Accounts.empty.run ops).append_drain_eq, fun n => ?_⟩
  rw [(Accounts.empty.run (ops.take n)).hasErrors_iff]
  simp [Diagnostic.isError]

/-! ## Additions alone -/

/-- What is drained from a log is what was added to it. -/
theorem drain_foldl_add (ds : List Diagnostic) : (ds.foldl add empty).drain.1 = ds := by
  have h := (Accounts.empty.run (ds.map .add)).append_drain_eq
  rwa [foldl_add_eq_run, added_map_add] at h

theorem hasErrors_drain_foldl_add (ds : List Diagnostic) :
    (ds.foldl add empty).drain.2.hasErrors = ds.any Diagnostic.isError := by
  have h := (Accounts.empty.run (ds.map .add)).drain.hasErrors_iff
  rw [foldl_add_eq_run, added_map_add] at h
  rw [Bool.eq_iff_iff, List.any_eq_true]
  exact h

end FrontEnd.DiagnosticLog
