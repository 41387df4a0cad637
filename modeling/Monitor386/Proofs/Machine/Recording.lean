import Mathlib
import Monitor386.Session
import Monitor386.Proofs.Failure
import Monitor386.Proofs.Machine.Steps

/-!
# The log of a run

A run adds the records of its steps to the log, step after step, and the log keeps those that it admits.
`Step.entries` are the records of a step: those of the call of the table, and for an instruction that was
completed its line and what looking at the watchpoints tells.

* `Log.addAll_append`: records are added one list after the other.
* `Step.report_eq`: a step is reported by adding its entries.
* `exec_fst`: an observer sees the steps of the run, whatever its end.
* `exists_quiet_of_trace`: each step of a run is taken where the steps before it lead.
* `Session.exec_iff`: a run of a session is a run of its machine; `Session.exec_log`: the log after it.
-/

namespace Monitor386

/-! ## Adding records -/

namespace Log

@[simp] theorem addAll_nil (log : Log) : log.addAll [] = log := by
  simp [addAll]

theorem addAll_append (log : Log) (rs rs' : List Record) :
    log.addAll (rs ++ rs') = (log.addAll rs).addAll rs' := by
  unfold addAll
  congr 1
  apply Array.toList_inj.mp
  rw [Array.toList_appendList, Array.toList_appendList, Array.toList_appendList, List.filter_append,
    List.append_assoc]
  rfl

theorem add_eq_addAll (log : Log) (level : Level) (text : String) :
    log.add level text = log.addAll [⟨level, text⟩] := by
  by_cases h : log.admits level
  · simp [add, addAll, h]
  · simp [add, addAll, h]

theorem addTexts_eq_addAll (log : Log) (level : Level) (texts : List String) :
    log.addTexts level texts = log.addAll (texts.map (Record.mk level)) := by
  have hlevel : ∀ r ∈ texts.map (Record.mk level), log.admits r.level = log.admits level := by
    intro r hr
    obtain ⟨text, -, rfl⟩ := List.mem_map.mp hr
    rfl
  unfold addTexts addAll
  rw [List.filter_congr hlevel]
  by_cases h : log.admits level
  · simp [h]
  · simp [h]

end Log

/-! ## The records of a step -/

variable {τ σ : Type}

namespace Step

/-- What looking at the watchpoints tells after an instruction. -/
def watchEntries (s : Step τ) : List Record :=
  ((s.machine.pool.scanned s.hit).flatMap Expr.records).map (Record.mk .debug) ++
    s.hit.toList.map fun hit => ⟨.info, hit.line s.start⟩

/-- The records of a step, in order. -/
def entries (level : Level) (s : Step τ) : List Record :=
  s.records ++
    match s.result with
    | .error _ => []
    | .ok executed => ⟨level, s.machine.cpu.stepLine s.start executed.length⟩ :: s.watchEntries

/-- A step is reported by adding its records. -/
theorem report_eq (level : Level) (log : Log) (s : Step τ) :
    s.report level log = log.addAll (s.entries level) := by
  unfold report entries
  cases s.result with
  | error fault =>
    rw [List.append_nil]
  | ok executed =>
    let line : Record := ⟨level, s.machine.cpu.stepLine s.start executed.length⟩
    show _ = log.addAll (s.records ++ ([line] ++ s.watchEntries))
    rw [Log.addAll_append, Log.addAll_append, watchEntries, Log.addAll_append]
    simp only [Log.add_eq_addAll, Log.addTexts_eq_addAll]
    cases s.hit with
    | none => exact (Log.addAll_nil _).symm
    | some hit => rfl

theorem foldl_report (level : Level) (ss : List (Step τ)) (log : Log) :
    ss.foldl (report level) log = log.addAll (ss.flatMap (entries level)) := by
  induction ss generalizing log with
  | nil => exact (Log.addAll_nil log).symm
  | cons s ss ih => rw [List.foldl_cons, ih, report_eq, List.flatMap_cons, Log.addAll_append]

end Step

/-! ## The steps of a run -/

namespace Machine

variable [InstructionTable τ] {m m' : Machine τ} {ss before after : List (Step τ)} {s : Step τ}
  {patience : Nat} {budget : Budget}

theorem step_start (hs : m.step = .ok s) : s.start = m.cpu.registers.eip := by
  obtain ⟨c, -, hs⟩ := bind_eq_ok.mp hs
  cases hs
  cases c.result <;> rfl

/-- An observer sees the steps of the run, whatever its end. -/
theorem exec_fst (observe : σ → Step τ → σ) (patience : Nat) (m : Machine τ) (budget : Budget)
    (seen : σ) :
    (m.exec observe patience budget seen).1 = (m.trace patience budget).foldl observe seen := by
  unfold trace
  by_cases hm : m.state = .ended
  · rw [exec_of_ended hm, exec_of_ended hm]
    rfl
  rw [exec_eq_advance hm, exec_eq_advance hm]
  obtain ⟨ss, o, m', -, hadv⟩ | ⟨ss, m₁, a, -, -, -, hadv⟩ :=
    m.beginRun.advance_cases (budget.limit patience)
  · rw [hadv, hadv, foldl_concat, List.nil_append]
  · rw [hadv, hadv, foldl_concat, List.nil_append]

/-- Of steps that do not stop, each is taken where those before it lead. -/
theorem Quiet.exists_step (h : Quiet m (before ++ s :: after) m') :
    ∃ m₁, Quiet m before m₁ ∧ m₁.step = .ok s := by
  induction before generalizing m with
  | nil =>
    cases h with
    | cons hs _ _ => exact ⟨m, .nil m, hs⟩
  | cons s' before ih =>
    cases h with
    | cons hs' ho' hrest =>
      obtain ⟨m₁, hq, hs⟩ := ih hrest
      exact ⟨m₁, .cons hs' ho' hq, hs⟩

/-- The steps of a run do not stop it, but for the last. -/
theorem trace_cases (m : Machine τ) (patience : Nat) (budget : Budget) :
    m.state = .ended ∧ m.trace patience budget = [] ∨
    (∃ m', Quiet m.beginRun (m.trace patience budget) m') ∨
    ∃ ss m' s, m.trace patience budget = ss ++ [s] ∧ Quiet m.beginRun ss m' ∧ m'.step = .ok s := by
  by_cases hm : m.state = .ended
  · refine .inl ⟨hm, ?_⟩
    rw [trace, exec_of_ended hm]
  refine .inr ?_
  obtain ⟨ss, o, m', hf, -⟩ | ⟨ss, m₁, a, -, hq, -, hadv⟩ :=
    m.beginRun.advance_cases (budget.limit patience)
  · rw [hf.trace_eq hm]
    cases hf with
    | full _ hq => exact .inl ⟨_, hq⟩
    | stop _ hq hs _ => exact .inr ⟨_, _, _, rfl, hq, hs⟩
  · have htrace : m.trace patience budget = ss := by
      rw [trace, exec_eq_advance hm, hadv, foldl_concat, List.nil_append]
    rw [htrace]
    exact .inl ⟨m₁, hq⟩

/-- Each step of a run is taken where the steps before it lead, none of which stops the run. -/
theorem exists_quiet_of_trace (h : m.trace patience budget = before ++ s :: after) :
    ∃ m₁, Quiet m.beginRun before m₁ ∧ m₁.step = .ok s := by
  obtain ⟨-, hnone⟩ | ⟨m', hq⟩ | ⟨ss, m', s', hlast, hq, hs'⟩ := m.trace_cases patience budget
  · rw [hnone] at h
    exact absurd h.symm (List.append_ne_nil_of_right_ne_nil before (List.cons_ne_nil s after))
  · rw [h] at hq
    exact hq.exists_step
  · rw [hlast] at h
    -- the step is the last one, or it is among those that do not stop
    rcases after.eq_nil_or_concat with rfl | ⟨after, s'', rfl⟩
    · obtain ⟨rfl, hs⟩ := List.append_inj' h rfl
      cases hs
      exact ⟨m', hq, hs'⟩
    · rw [List.concat_eq_append, ← List.cons_append, ← List.append_assoc] at h
      obtain ⟨rfl, -⟩ := List.append_inj' h rfl
      exact hq.exists_step

end Machine

/-! ## The log -/

namespace Session

/-- The log that an operation leaves, also where it aborts. -/
def logAfter {α : Type} : Except Crash (α × Session τ) → Log
  | .error crash => crash.log
  | .ok (_, s) => s.log

/-- The record of a run that is refused because the program is over. -/
def refusal (s : Session τ) : List Record :=
  if s.machine.state = .ended then [⟨.warn, "Program execution has ended, cannot continue"⟩] else []

variable [InstructionTable τ]

/-- A run of a session is a run of its machine. -/
theorem exec_iff {s : Session τ} {patience : Nat} {budget : Budget} {outcome : Outcome}
    {m' : Machine τ} :
    (∃ log, s.exec patience budget = .ok (outcome, ⟨m', log⟩)) ↔
      (s.machine.exec (fun seen _ => seen) patience budget ()).2 = .ok (outcome, m') := by
  simp only [Session.exec]
  generalize (if s.machine.state = .ended then _ else s.log : Log) = seen
  rw [Machine.exec_unobserved _ (Step.report budget.stepLevel) patience s.machine budget () seen]
  generalize s.machine.exec (Step.report budget.stepLevel) patience budget seen = run
  obtain ⟨log, cause | x⟩ := run
  · simp
  · simp [Prod.ext_iff]

/-- A run adds the records of its steps to the log, in order, however it ends. -/
theorem exec_log (s : Session τ) (patience : Nat) (budget : Budget) :
    logAfter (s.exec patience budget) =
      s.log.addAll (s.refusal ++
        (s.machine.trace patience budget).flatMap (Step.entries budget.stepLevel)) := by
  obtain ⟨m, log⟩ := s
  have hbegin : (if m.state = .ended then
      log.add .warn "Program execution has ended, cannot continue" else log) =
        log.addAll (refusal ⟨m, log⟩) := by
    unfold refusal
    split
    · exact log.add_eq_addAll _ _
    · exact log.addAll_nil.symm
  have hlog := Machine.exec_fst (Step.report budget.stepLevel) patience m budget
    (log.addAll (refusal ⟨m, log⟩))
  rw [Step.foldl_report, ← Log.addAll_append] at hlog
  rw [← hlog]
  simp only [exec, hbegin]
  split
  next heq => rw [heq]; rfl
  next heq => rw [heq]; rfl

end Session

end Monitor386
