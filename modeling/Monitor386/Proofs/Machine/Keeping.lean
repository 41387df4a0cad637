import Mathlib
import Monitor386.Proofs.Machine.Lifecycle
import Monitor386.Proofs.Watch.Roster

/-!
# What a machine in use keeps

What every step of a run keeps is kept by the run. An instance of it is that the slots of the pool are
on one of the two chains each (`LaidOut`). This holds of every machine that was made with an empty pool
and then used in any way, so a watchpoint that cannot be set, and one that cannot be deleted, leave the
machine as it was.

* `exec_keeps`: what every step keeps is kept by a run.
* `LaidOut.op`, `LaidOut.runAll`: the pool of a machine in use is laid out.
* `LaidOut.watch_error`, `LaidOut.delete_error`: what fails leaves no trace.
-/

namespace Monitor386

namespace Machine

variable {τ : Type} {m m' : Machine τ}

/-! ## Runs -/

section

variable {σ : Type} [InstructionTable τ] {ss : List (Step τ)} {observe : σ → Step τ → σ}
  {patience : Nat} {budget : Budget} {seen : σ} {outcome : Outcome} {P : Machine τ → Prop}

theorem Quiet.keeps (hstep : ∀ m s, m.state = .running → P m → m.step = .ok s → P s.machine)
    (h : Quiet m ss m') (hrun : m.state = .running) (hm : P m) : P m' := by
  induction h with
  | nil => exact hm
  | cons hs ho _ ih => exact ih (step_running hrun hs ho) (hstep _ _ hrun hm hs)

/-- What every step keeps, and what does not depend on the state of the run and on the stop line, is
kept by a run. -/
theorem exec_keeps (hstep : ∀ m s, m.state = .running → P m → m.step = .ok s → P s.machine)
    (hstate : ∀ (m : Machine τ) state stopLine, P m → P { m with state, stopLine })
    (h : (m.exec observe patience budget seen).2 = .ok (outcome, m')) (hm : P m) : P m' := by
  by_cases hend : m.state = .ended
  · rw [exec_of_ended hend] at h
    cases h
    exact hm
  have hbegin : P m.beginRun := hstate m .running m.stopLine.drain hm
  obtain ⟨m₁, -, hq, -, rfl⟩ | ⟨ss, m₁, s, -, hq, hs, -, rfl⟩ := exec_inv hend h
  · exact hstate m₁ .stopped m₁.stopLine (hq.keeps hstep rfl hbegin)
  · exact hstep _ _ (hq.continues rfl).2 (hq.keeps hstep rfl hbegin) hs

end

/-! ## Pools -/

/-- The slots of the pool are on one of the two chains each. -/
def LaidOut (m : Machine τ) : Prop :=
  ∃ as fs, m.pool.Layout as fs

theorem create_laidOut (capacity : Nat) (table : τ) (line : StopLine) :
    (create capacity table line).LaidOut :=
  ⟨_, _, .empty⟩

/-- The values of the watchpoints are taken anew. -/
theorem LaidOut.refresh (hm : m.LaidOut) (ctx : Expr.Context) :
    ∃ as fs, (m.pool.refresh ctx).Layout as fs := by
  obtain ⟨as, fs, hl⟩ := hm
  exact ⟨as, fs, hl.refresh ctx⟩

theorem LaidOut.setRegister {name : String} {x : UInt32} (hm : m.LaidOut)
    (h : m.setRegister name x = .ok m') : m'.LaidOut := by
  obtain ⟨registers, -, rfl⟩ := setRegister_inv h
  exact hm.refresh _

theorem LaidOut.of_poolOp {op : Pool.Op} {reply : Pool.Reply} {pool : Pool} (hm : m.LaidOut)
    (h : op.run m.pool = .ok (reply, pool)) : ({ m with pool } : Machine τ).LaidOut := by
  obtain ⟨as, fs, hl⟩ := hm
  obtain ⟨_, _, as', fs', hrun, hl'⟩ := hl.run (Pool.Op.allowed_of_run h)
  cases h.symm.trans hrun
  exact ⟨as', fs', hl'⟩

/-- An expression that cannot be watched leaves no trace. -/
theorem LaidOut.watch_error (hm : m.LaidOut) {e : List Char} {cause : WatchError}
    (h : m.watch e = .ok (.error cause, m')) : m' = m := by
  obtain ⟨as, fs, hl⟩ := hm
  obtain ⟨pool, hcreate, rfl⟩ := watch_inv h
  rw [hl.create_error hcreate]

theorem LaidOut.delete_error (hm : m.LaidOut) {no : Nat} {cause : WatchError}
    (h : m.delete no = .ok (.error cause, m')) : m' = m := by
  obtain ⟨as, fs, hl⟩ := hm
  obtain ⟨pool, hdelete, rfl⟩ := delete_inv h
  rw [hl.delete_error hdelete]

variable [InstructionTable τ]

theorem LaidOut.step {s : Step τ} (hm : m.LaidOut) (hrun : m.state = .running)
    (hs : m.step = .ok s) : s.machine.LaidOut := by
  obtain ⟨as, fs, hl⟩ := hm
  obtain ⟨c, -, -, -, hnext⟩ := step_inv hrun hs
  refine ⟨as, fs, ?_⟩
  rw [hnext]
  simp only [after]
  split
  · exact hl.store _
  · exact hl

/-- An operation leaves a pool that is laid out. -/
theorem LaidOut.op {op : Op} {o : Option Outcome} (hm : m.LaidOut) (h : op.run m = .ok (o, m')) :
    m'.LaidOut := by
  -- only a run and the operations on watchpoints reach the pool
  cases op with
  | exec patience budget =>
    obtain ⟨⟨outcome, m₁⟩, hexec, h⟩ := bind_eq_ok.mp h
    cases h
    exact exec_keeps (fun _ _ hrun hm hs => hm.step hrun hs) (fun _ _ _ hm => hm) hexec hm
  | restart image =>
    obtain ⟨m₁, hrestart, h⟩ := bind_eq_ok.mp h
    cases h
    obtain ⟨cpu, rfl⟩ := restart_inv hrestart
    exact hm.refresh _
  | setRegister name x =>
    cases h
    cases hset : m.setRegister name x with
    | error e => exact hm
    | ok m₁ => exact hm.setRegister hset
  | loadImage | alter =>
    obtain ⟨cpu, -, h⟩ := bind_eq_ok.mp h
    cases h
    exact hm
  | watch e =>
    obtain ⟨⟨r, m₁⟩, hwatch, h⟩ := bind_eq_ok.mp h
    cases h
    obtain ⟨pool, hpool, rfl⟩ := watch_inv hwatch
    have hop : Pool.Op.run m.pool (.create m.cpu.context e) = .ok (.created r, pool) :=
      bind_eq_ok.mpr ⟨_, hpool, rfl⟩
    exact hm.of_poolOp hop
  | delete no =>
    obtain ⟨⟨r, m₁⟩, hdelete, h⟩ := bind_eq_ok.mp h
    cases h
    obtain ⟨pool, hpool, rfl⟩ := delete_inv hdelete
    have hop : Pool.Op.run m.pool (.delete no) = .ok (.deleted r, pool) :=
      bind_eq_ok.mpr ⟨_, hpool, rfl⟩
    exact hm.of_poolOp hop
  | resetCpu | examine | eval | requestStop =>
    cases h
    exact hm

theorem LaidOut.runAll {ops : List Op} (hm : m.LaidOut) (h : m.runAll ops = .ok m') :
    m'.LaidOut := by
  induction ops generalizing m with
  | nil =>
    cases h
    exact hm
  | cons op ops ih =>
    obtain ⟨⟨o, m₁⟩, hop, hops⟩ := bind_eq_ok.mp h
    exact ih (hm.op hop) hops

end Machine

end Monitor386
