import Mathlib
import Monitor386.Proofs.Expr.Trails
import Monitor386.Proofs.Machine.Recording
import Monitor386.Shell.Basic

/-!
# Commands and the log

What a session does to its machine does not depend on its log, with one exception: where debug records are
kept, an expression that cannot be marked is not computed, and the command that asks for it aborts. No
operation changes which records are kept.

* `Session.eval_ok`, `Session.eval_abort`: an expression is computed, or it cannot be marked.
* `Session.watch_iff`, `Session.delete_iff`: the operations on watchpoints are those of the machine; an expression
  that is looked at for a watchpoint is short.
* `perform_threshold`, `answer_threshold`: a command keeps the threshold of the log.
* `perform_abort`: a command aborts whose expression cannot be marked.
-/

namespace Monitor386

open Monitor386.Expr (Unmarkable)

/-- An expression that is looked at for a watchpoint fits into a slot. -/
theorem Pool.size_of_lookedAt {p q : Pool} {ctx : Expr.Context} {e : List Char}
    {r : Except WatchError Watchpoint} (h : p.create ctx e = .ok (r, q)) (hr : lookedAt r = true) :
    Text.byteSize e < watchCapacity := by
  by_contra hlong
  rw [create, if_pos (not_lt.mp hlong)] at h
  split at h <;> cases h <;> cases hr

/-- The records of setting a watchpoint can be made, because a long expression is not looked at. -/
theorem Pool.exists_addCreation {p q : Pool} {ctx : Expr.Context} {e : List Char}
    {r : Except WatchError Watchpoint} (h : p.create ctx e = .ok (r, q)) (log : Log) :
    ∃ log', addCreation log e r = .ok log' ∧ log'.threshold = log.threshold := by
  rw [addCreation]
  cases hr : lookedAt r with
  | false => exact ⟨_, rfl, Log.addTexts_threshold ..⟩
  | true =>
    have hshort : ¬ Unmarkable e :=
      Expr.not_unmarkable_of_lt ((size_of_lookedAt h hr).trans (by decide))
    rw [if_pos rfl, Expr.addTrail_ok (fun h => hshort h.2)]
    exact ⟨_, rfl, by simp⟩

namespace Session

variable {τ : Type} {s s' : Session τ} {m' : Machine τ} {e : List Char}

/-! ## Expressions -/

theorem eval_ok (h : ¬ (s.log.admits .debug = true ∧ Unmarkable e)) :
    s.eval e = .ok (s.machine.eval e, { s with log := s.log.addTexts .debug (Expr.records e) }) := by
  rw [eval, Expr.evaluate_ok h]
  rfl

theorem eval_abort (hlog : s.log.admits .debug = true) (h : Unmarkable e) :
    s.eval e = .error ⟨.columnTooWide, s.log.addTexts .debug (Expr.records e)⟩ := by
  rw [eval, Expr.evaluate_abort hlog h]
  rfl

/-- An expression with a value is computed, whatever is recorded. -/
theorem eval_of_value {v : UInt32} (h : s.machine.eval e = .ok v) :
    s.eval e = .ok (.ok v, { s with log := s.log.addTexts .debug (Expr.records e) }) := by
  rw [eval_ok fun hwide => Expr.not_unmarkable_of_eval h hwide.2, h]

theorem eval_eq_ok {r : Except Expr.Error UInt32} : s.eval e = .ok (r, s') ↔
    ¬ (s.log.admits .debug = true ∧ Unmarkable e) ∧ r = s.machine.eval e ∧
      s' = { s with log := s.log.addTexts .debug (Expr.records e) } := by
  by_cases h : s.log.admits .debug = true ∧ Unmarkable e
  · simp [eval_abort h.1 h.2, h.1, h.2]
  · rw [eval_ok h, Except.ok.injEq, Prod.ext_iff, and_iff_right h, eq_comm, eq_comm (b := s')]

/-! ## Watchpoints -/

/-- A watchpoint is set on the machine, and the records of it can be made. -/
theorem exists_watch {r : Except WatchError Watchpoint} (h : s.machine.watch e = .ok (r, m')) :
    ∃ log, s.watch e = .ok (r, ⟨m', log⟩) ∧ log.threshold = s.log.threshold := by
  obtain ⟨⟨r, p⟩, hcreate, h'⟩ := bind_eq_ok.mp h
  cases h'
  obtain ⟨log, hlog, hthreshold⟩ := Pool.exists_addCreation hcreate s.log
  refine ⟨log, ?_, hthreshold⟩
  rw [watch, h]
  simp only [hlog, ok_bind]
  rfl

theorem watch_iff {r : Except WatchError Watchpoint} :
    (∃ log, s.watch e = .ok (r, ⟨m', log⟩)) ↔ s.machine.watch e = .ok (r, m') := by
  constructor
  · rintro ⟨log, h⟩
    cases hwatch : s.machine.watch e with
    | error cause =>
      rw [watch, hwatch] at h
      cases h
    | ok x =>
      obtain ⟨log', h', -⟩ := exists_watch hwatch
      cases h.symm.trans h'
      rfl
  · intro h
    obtain ⟨log, h, -⟩ := exists_watch h
    exact ⟨log, h⟩

theorem delete_iff {no : Nat} {r : Except WatchError Unit} :
    (∃ log, s.delete no = .ok (r, ⟨m', log⟩)) ↔ s.machine.delete no = .ok (r, m') := by
  rw [delete]
  cases s.machine.delete no with
  | error cause => simp
  | ok x => simp [Prod.ext_iff]

/-! ## Thresholds -/

theorem eval_threshold {r : Except Expr.Error UInt32} (h : s.eval e = .ok (r, s')) :
    s'.log.threshold = s.log.threshold := by
  obtain ⟨-, -, rfl⟩ := eval_eq_ok.mp h
  exact Log.addTexts_threshold ..

theorem watch_threshold {r : Except WatchError Watchpoint} (h : s.watch e = .ok (r, s')) :
    s'.log.threshold = s.log.threshold := by
  obtain ⟨m', log⟩ := s'
  obtain ⟨log', h', hthreshold⟩ := exists_watch (watch_iff.mp ⟨log, h⟩)
  cases h.symm.trans h'
  exact hthreshold

theorem delete_threshold {no : Nat} {r : Except WatchError Unit} (h : s.delete no = .ok (r, s')) :
    s'.log.threshold = s.log.threshold := by
  rw [delete] at h
  split at h
  · cases h
  · cases h
    exact Log.addTexts_threshold ..

theorem setRegister_threshold (s : Session τ) (name : String) (x : UInt32) :
    (s.setRegister name x).2.log.threshold = s.log.threshold := by
  rw [setRegister]
  split
  · rfl
  · exact Log.addTexts_threshold ..

theorem restart_threshold {image : List UInt8} (h : s.restart image = .ok s') :
    s'.log.threshold = s.log.threshold := by
  rw [restart] at h
  split at h
  · cases h
  · cases h
    simp

theorem exec_threshold [InstructionTable τ] {patience : Nat} {budget : Budget} {outcome : Outcome}
    (h : s.exec patience budget = .ok (outcome, s')) : s'.log.threshold = s.log.threshold := by
  have hlog := s.exec_log patience budget
  rw [h, logAfter] at hlog
  rw [hlog]
  rfl

end Session

namespace Shell

variable {τ : Type} [InstructionTable τ] {patience : Nat} {s s' : Session τ} {command : Command}
  {answers : List String} {goesOn : Bool}

/-! ## Commands -/

/-- The expression that a command computes. The one for a watchpoint is not computed for itself. -/
def Command.expression? : Command → Option (List Char)
  | .print e | .examine _ e | .set _ e => some e
  | _ => none

/-- The command computes an expression that cannot be marked. -/
def Command.Unmarkable (command : Command) : Prop :=
  ∃ e ∈ command.expression?, Expr.Unmarkable e

/-- A command keeps the threshold of the log. -/
theorem perform_threshold (h : perform patience s command = .ok (answers, goesOn, s')) :
    s'.log.threshold = s.log.threshold := by
  -- records are added, and none of the operations changes what is kept of them
  cases command with
  | help | quit | infoRegisters | infoWatchpoints =>
    cases h
    rfl
  | resume | step =>
    obtain ⟨⟨outcome, s₂⟩, hexec, h⟩ := bind_eq_ok.mp h
    cases h
    exact Session.exec_threshold hexec
  | print | examine =>
    obtain ⟨⟨r, s₂⟩, heval, h⟩ := bind_eq_ok.mp h
    cases h
    exact Session.eval_threshold heval
  | watch e =>
    obtain ⟨⟨r, s₂⟩, hwatch, h⟩ := bind_eq_ok.mp h
    cases h
    exact Session.watch_threshold hwatch
  | delete no =>
    rw [perform] at h
    split at h
    · cases h
      rfl
    · obtain ⟨⟨r, s₂⟩, hdelete, h⟩ := bind_eq_ok.mp h
      cases h
      exact Session.delete_threshold hdelete
  | set register e =>
    obtain ⟨⟨r, s₂⟩, heval, h⟩ := bind_eq_ok.mp h
    rw [← Session.eval_threshold heval]
    cases r with
    | error err =>
      cases h
      rfl
    | ok value =>
      cases h
      exact s₂.setRegister_threshold _ _

/-- A line keeps the threshold of the log. -/
theorem answer_threshold {line : List Char} (h : answer patience s line = .ok (answers, goesOn, s')) :
    s'.log.threshold = s.log.threshold := by
  rw [answer] at h
  split at h
  · exact perform_threshold h
  · cases h
    rfl
  · cases h
    rfl

/-- A command aborts if its expression cannot be marked and debug records are kept. -/
theorem perform_abort (hlog : s.log.admits .debug = true) (h : command.Unmarkable) :
    ∃ log, perform patience s command = .error ⟨.columnTooWide, log⟩ := by
  obtain ⟨e, he, hwide⟩ := h
  have heval := Session.eval_abort hlog hwide
  cases command with
  | print | examine | set =>
    cases he
    exact ⟨_, bind_eq_error.mpr (.inl heval)⟩
  | _ => cases he

/-- The expression of a command that is answered can be marked, or no mark is asked for. -/
theorem markable_of_perform (h : perform patience s command = .ok (answers, goesOn, s')) :
    ¬ (s.log.admits .debug = true ∧ command.Unmarkable) := by
  rintro ⟨hlog, hmark⟩
  obtain ⟨log, habort⟩ : ∃ log, perform patience s command = .error ⟨.columnTooWide, log⟩ :=
    perform_abort hlog hmark
  cases h.symm.trans habort

end Shell

end Monitor386
