import Mathlib
import Monitor386.Proofs.Machine.Semantics

/-!
# Watchpoints over a run

A run looks at the watchpoints after each instruction that it completed. It stops at the first
instruction after which one of them has changed, and up to there it leaves the pool alone.

* `step_watches`: what one step finds, and what it does to the pool.
* `Quiet.steady`: all watchpoints stay steady, with the values that they had before, over steps that
  do not stop the run.
* `exec_watches`: what a whole run reports, and what it does to the pool.
-/

namespace Monitor386

/-- The instruction of the step did not fault. -/
def Step.Completed {τ : Type} (s : Step τ) : Prop :=
  ∃ completion, s.result = .ok completion

namespace Machine

variable {τ σ : Type} [InstructionTable τ] {m m' : Machine τ} {s : Step τ}

/-! ## One step -/

/-- The instruction of the step was completed: the machine has the processor as the table left it,
with the instruction pointer moved on. -/
def Completes (m : Machine τ) (s : Step τ) : Prop :=
  ∃ c completion, m.call = .ok c ∧ c.result = .ok completion ∧
    s.machine.cpu = c.cpu.goto (c.cpu.registers.eip + completion.length)

/-- A step that reports no watchpoint leaves the pool as it is, and finds it steady if it completed
its instruction. -/
theorem step_steady (hm : m.state = .running) (hs : m.step = .ok s)
    (ho : ∀ hit, s.outcome ≠ some (.watchpoint hit)) :
    s.machine.pool = m.pool ∧ (s.Completed → m.pool.Steady s.machine.cpu.context) := by
  obtain ⟨c, -, hres, hdec, hnext⟩ := step_inv hm hs
  rw [hnext]
  constructor
  · simp only [after]
  · rintro ⟨completion, hcomp⟩
    exact hdec.steady (hres.symm.trans hcomp) ho

/-- A step that reports a watchpoint completed its instruction, and stores the new value. -/
theorem step_fires {hit : WatchChange} (hm : m.state = .running) (hs : m.step = .ok s)
    (ho : s.outcome = some (.watchpoint hit)) :
    m.Completes s ∧ Fires s.machine.cpu.context m.pool.toList hit ∧
      s.machine.pool = m.pool.store hit := by
  obtain ⟨c, hc, hres, hdec, hnext⟩ := step_inv hm hs
  rw [ho] at hdec hnext
  obtain _ | ⟨hcause, -⟩ := hdec
  obtain _ | ⟨hcomp, hfires⟩ := hcause
  have hcpu : s.machine.cpu = c.cpuAfter m.cpu.registers.eip := by rw [hnext]; rfl
  refine ⟨⟨c, _, hc, hcomp, ?_⟩, hcpu ▸ hfires, by rw [hnext]; rfl⟩
  simp only [hcpu, Call.cpuAfter, hcomp]

/-! ## The steps of a run -/

/-- Steps that do not stop the run leave the pool as it is and find it steady. -/
theorem Quiet.steady {ss : List (Step τ)} (h : Quiet m ss m') (hm : m.state = .running) :
    m'.pool = m.pool ∧
      ∀ s ∈ ss, s.Completed ∧ m.pool.Steady s.machine.cpu.context := by
  induction h with
  | nil => exact ⟨rfl, fun s hs => absurd hs List.not_mem_nil⟩
  | @cons m m' s ss hs ho hq ih =>
    have hno : ∀ hit, s.outcome ≠ some (.watchpoint hit) := by
      rw [ho]
      exact fun _ h => by cases h
    obtain ⟨c, -, hres, hdec, hnext⟩ := step_inv hm hs
    rw [ho] at hdec hnext
    obtain ⟨hpool, hsteady⟩ := step_steady hm hs hno
    obtain ⟨hpool', hss⟩ := ih (by rw [hnext]; exact after_state hdec)
    have hcomp : s.Completed := by
      cases hr : c.result with
      | error fault => cases hdec.unique (decides_fault hr)
      | ok completion => exact ⟨completion, hres.trans hr⟩
    refine ⟨hpool'.trans hpool, List.forall_mem_cons.mpr ⟨⟨hcomp, hsteady hcomp⟩, ?_⟩⟩
    rw [hpool] at hss
    exact hss

/-- What a run makes of the watchpoints. If it reports none, they were steady after each instruction
that it completed and the pool is what it was. If it reports one, they were steady after all steps
but the last, and after that one the report is of the first that changed, whose new value is then
all that changed in the pool. -/
theorem exec_watches (observe : σ → Step τ → σ) (patience : Nat) (m : Machine τ) (budget : Budget)
    (seen : σ) (outcome : Outcome) (m' : Machine τ)
    (h : (m.exec observe patience budget seen).2 = .ok (outcome, m')) :
    ((∀ hit, outcome ≠ .watchpoint hit) →
      (∀ s ∈ m.trace patience budget, s.Completed → m.pool.Steady s.machine.cpu.context) ∧
      m'.pool = m.pool) ∧
    ∀ hit, outcome = .watchpoint hit → ∃ ss m₁ s,
      m.trace patience budget = ss ++ [s] ∧ Quiet m.beginRun ss m₁ ∧ m₁.step = .ok s ∧
      (∀ s' ∈ ss, s'.Completed ∧ m.pool.Steady s'.machine.cpu.context) ∧
      m' = s.machine ∧ m₁.Completes s ∧ Fires m'.cpu.context m.pool.toList hit ∧
      m'.pool = m.pool.store hit ∧
      m'.pool.toList =
        m.pool.toList.map fun w => if w.no = hit.no then { w with value := hit.new } else w := by
  by_cases hm : m.state = .ended
  · -- There is no run, hence no step and no report.
    rw [exec_of_ended hm] at h
    cases h
    have htrace : m.trace patience budget = [] := by rw [trace, exec_of_ended hm]
    rw [htrace]
    exact ⟨fun _ => ⟨fun s hs => absurd hs List.not_mem_nil, rfl⟩, fun hit hout => by cases hout⟩
  obtain ⟨o, m₁, hf, ha⟩ := exec_finishes hm h
  generalize m.trace patience budget = ss at hf ⊢
  cases hf with
  | full hlen hq =>
    obtain ⟨ho, -⟩ | ⟨-, -, rfl, rfl⟩ := answer_eq_ok ha
    · cases ho
    obtain ⟨hpool, hss⟩ := hq.steady rfl
    exact ⟨fun _ => ⟨fun s hs _ => (hss s hs).2, hpool⟩, fun hit hout => by cases hout⟩
  | @stop ss m₁ s _ hlen hq hs ho =>
    cases ha
    obtain ⟨hpool, hss⟩ := hq.steady rfl
    have hpool : m₁.pool = m.pool := hpool
    have hrun : m₁.state = .running := (hq.continues rfl).2
    constructor
    · intro hno
      obtain ⟨hkeep, hsteady⟩ := step_steady hrun hs (by simpa [ho] using hno)
      refine ⟨fun s' hs' hcomp => ?_, hkeep.trans hpool⟩
      obtain hs' | hs' := List.mem_append.mp hs'
      · exact (hss s' hs').2
      · cases List.mem_singleton.mp hs'
        exact hpool ▸ hsteady hcomp
    · rintro hit rfl
      obtain ⟨hcomp, hfires, hstore⟩ := step_fires hrun hs ho
      rw [hpool] at hfires hstore
      exact ⟨ss, m₁, s, rfl, hq, hs, hss, rfl, hcomp, hfires, hstore,
        hstore ▸ Pool.toList_store m.pool hit⟩

/-- A watchpoint on the instruction pointer fires after one instruction of two bytes. -/
theorem exec_watches_instruction_pointer :
    let nop : ScriptEntry := { result := some (.executed ⟨2, none⟩) }
    let start : Machine ScriptedTable := create 0 ⟨[nop, nop]⟩ .absent
    let watched := Pool.empty.create start.cpu.context "$eip".toList
    let m := { start with pool := watched.toOption.elim .empty Prod.snd }
    m.pool.toList = [⟨0, "$eip".toList, 0x100000⟩] ∧
    ∃ hit m', (m.exec (fun n _ => n + 1) 0 (.steps 2) 0).2 = .ok (.watchpoint hit, m') ∧
      Fires m'.cpu.context m.pool.toList hit ∧
      m'.pool.toList = [⟨0, "$eip".toList, 0x100002⟩] := by
  intro nop start watched m
  have hlist : m.pool.toList = [⟨0, "$eip".toList, 0x100000⟩] := by decide +kernel
  let hit : WatchChange := ⟨0, "$eip".toList, 0x100000, 0x100002⟩
  have hrun : (m.exec (fun n _ => n + 1) 0 (.steps 2) 0).2.toOption.map Prod.fst =
      some (.watchpoint hit) := by
    decide +kernel
  obtain ⟨m', hm'⟩ : ∃ m', (m.exec (fun n _ => n + 1) 0 (.steps 2) 0).2 =
      .ok (.watchpoint hit, m') := by
    cases hr : (m.exec (fun n _ => n + 1) 0 (.steps 2) 0).2 with
    | error a =>
      rw [hr] at hrun
      cases hrun
    | ok r =>
      rw [hr] at hrun
      obtain ⟨outcome, m'⟩ := r
      obtain rfl : outcome = .watchpoint hit := Option.some.inj hrun
      exact ⟨m', rfl⟩
  obtain ⟨ss, m₁, s, -, -, -, -, -, -, hfires, -, hpool⟩ :=
    (exec_watches _ 0 m (.steps 2) 0 _ m' hm').2 hit rfl
  refine ⟨hlist, hit, m', hm', hfires, ?_⟩
  rw [hpool, hlist]
  rfl

end Machine

end Monitor386
