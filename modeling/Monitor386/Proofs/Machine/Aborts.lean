import Mathlib
import Monitor386.Proofs.Instruction.Accesses
import Monitor386.Proofs.Machine.Keeping

/-!
# Where a machine aborts

A machine with the instructions of the i386 is `Intact` if its memory has the size that it was made with
and its watchpoints are laid out. No operation breaks that. The operations of a user at rest do not
abort, apart from loading an image that does not fit and deleting a watchpoint where there is none. A
run is given up for one of two reasons: it has no limit and does not stop in time, or an access of its
next instruction leaves the memory (`GivesUp`).

* `exec_error`: why a run aborts, for any table.
* `Intact.exec`, `Intact.givesUp`: a run of an intact machine leaves it intact, or is given up.
* `Intact.watch`, `Intact.delete`, `Intact.setRegister`, `Intact.restart`: the operations at rest.
-/

namespace Monitor386

namespace Machine

section

variable {τ σ : Type} [InstructionTable τ] {m m' : Machine τ} {ss : List (Step τ)}
  {observe : σ → Step τ → σ} {patience : Nat} {budget : Budget} {seen : σ} {outcome : Outcome}
  {a : Abort}

/-! ## Runs of any table -/

theorem call_of_step_error (h : m.step = .error a) : m.call = .error a := by
  obtain h | ⟨_, -, h⟩ := bind_eq_error.mp h
  · exact h
  · cases h

/-- A run aborts if it has no limit and does not stop in time, or where a call of the table aborts. -/
theorem exec_error (h : (m.exec observe patience budget seen).2 = .error a) :
    (budget = .unlimited ∧ a = .unfinished ∧
      ∃ ss m₁, ss.length = patience ∧ Quiet m.beginRun ss m₁) ∨
    ∃ ss m₁, ss.length < budget.limit patience ∧ Quiet m.beginRun ss m₁ ∧ m₁.call = .error a := by
  by_cases hend : m.state = .ended
  · rw [exec_of_ended hend] at h
    cases h
  obtain ⟨ss, o, m₁, hf, -⟩ | ⟨ss, m₁, a', hlen, hq, ha, hadv⟩ :=
    m.beginRun.advance_cases (budget.limit patience)
  · rw [hf.exec_eq hend] at h
    cases hf with
    | stop => cases h
    | full hlen hq =>
      cases budget with
      | steps n => cases h
      | unlimited =>
        cases h
        exact .inl ⟨rfl, rfl, ss, m₁, hlen, hq⟩
  · rw [exec_eq_advance hend, hadv] at h
    cases h
    exact .inr ⟨ss, m₁, hlen, hq, call_of_step_error ha⟩

end

/-! ## Runs of i386 instructions -/

variable {σ : Type} {m m' : Machine I386Table} {ss : List (Step I386Table)} {s : Step I386Table}
  {capacity patience : Nat} {budget : Budget} {a : Abort}

/-- Why a run is given up. -/
inductive GivesUp (m : Machine I386Table) (patience : Nat) (budget : Budget) : Abort → Prop where
  /-- It goes on for longer than its caller waits. -/
  | unfinished {ss : List (Step I386Table)} {m₁ : Machine I386Table} : budget = .unlimited →
      ss.length = patience → Quiet m.beginRun ss m₁ → GivesUp m patience budget .unfinished
  /-- An access of its next instruction leaves the memory. -/
  | outOfBound {ss : List (Step I386Table)} {m₁ : Machine I386Table} {addr : UInt32} {width : Nat} :
      ss.length < budget.limit patience → Quiet m.beginRun ss m₁ →
      Accesses m₁.cpu m₁.cpu.registers.eip addr width →
      m.cpu.memory.capacity < addr.toNat + width → GivesUp m patience budget (.outOfBound addr)

/-- What no operation of a user and no run can break. -/
structure Intact (capacity : Nat) (m : Machine I386Table) : Prop where
  memory : m.cpu.memory.capacity = capacity
  pool : ∃ as fs, m.pool.Layout as fs

theorem Intact.step (hm : m.Intact capacity) (hrun : m.state = .running) (hs : m.step = .ok s) :
    s.machine.Intact capacity := by
  obtain ⟨c, hc, -, -, hnext⟩ := step_inv hrun hs
  have hcap : (c.cpuAfter m.cpu.registers.eip).memory.capacity = capacity := by
    have hcall : c.cpu.memory.capacity = capacity := (I386Table.exec_capacity hc).trans hm.memory
    rw [Call.cpuAfter]
    split <;> exact hcall
  refine ⟨?_, LaidOut.step hm.pool hrun hs⟩
  rw [hnext]
  exact hcap

theorem Quiet.intact (h : Quiet m ss m') (hrun : m.state = .running) (hm : m.Intact capacity) :
    m'.Intact capacity :=
  h.keeps (fun _ _ hrun hm hs => hm.step hrun hs) hrun hm

section

variable {observe : σ → Step I386Table → σ} {seen : σ}

theorem Intact.exec {outcome : Outcome} (hm : m.Intact capacity)
    (h : (m.exec observe patience budget seen).2 = .ok (outcome, m')) : m'.Intact capacity :=
  exec_keeps (fun _ _ hrun hm hs => hm.step hrun hs) (fun _ _ _ hm => ⟨hm.memory, hm.pool⟩) h hm

theorem Intact.givesUp (hm : m.Intact capacity)
    (h : (m.exec observe patience budget seen).2 = .error a) : m.GivesUp patience budget a := by
  obtain ⟨hbudget, rfl, ss, m₁, hlen, hq⟩ | ⟨ss, m₁, hlen, hq, hcall⟩ := exec_error h
  · exact .unfinished hbudget hlen hq
  · -- the steps before the abort kept the size of the memory
    obtain ⟨addr, width, haccess, hout, rfl⟩ := I386Table.exec_eq_error_iff.mp hcall
    have hcap : m₁.cpu.memory.capacity = m.cpu.memory.capacity :=
      (hq.intact rfl ⟨rfl, hm.pool⟩).memory
    exact .outOfBound hlen hq haccess (hcap ▸ hout)

end

/-! ## Operations at rest -/

theorem Intact.create (capacity : Nat) (stopLine : StopLine) :
    (create capacity ({} : I386Table) stopLine).Intact capacity :=
  ⟨rfl, _, _, .empty⟩

theorem Intact.restart (hm : m.Intact capacity) (image : List UInt8)
    (hfits : entryPoint.toNat + image.length ≤ capacity) :
    ∃ m', m.restart image = .ok m' ∧ m'.Intact capacity := by
  have hload : ¬ ∃ a, m.cpu.memory.reset.load entryPoint image = .error a := by
    rw [Memory.load_eq_error_iff, Memory.reset, hm.memory]
    exact hfits.not_gt
  cases hmem : m.cpu.memory.reset.load entryPoint image with
  | error a => exact absurd ⟨a, hmem⟩ hload
  | ok memory =>
    have hcap : memory.capacity = capacity := (Memory.load_capacity hmem).trans hm.memory
    exact ⟨_, bind_eq_ok.mpr ⟨_, bind_eq_ok.mpr ⟨memory, hmem, rfl⟩, rfl⟩, hcap,
      LaidOut.refresh hm.pool _⟩

theorem Intact.watch (hm : m.Intact capacity) (e : List Char) :
    ∃ r m', m.watch e = .ok (r, m') ∧ m'.Intact capacity := by
  obtain ⟨as, fs, hl⟩ := hm.pool
  obtain ⟨-, hc⟩ | ⟨-, -, hc⟩ | ⟨-, -, cause, -, hc⟩ |
    ⟨i, fs', value, q, -, -, -, hc, hq, -⟩ := hl.create_eq m.cpu.context e
  · exact ⟨_, _, bind_eq_ok.mpr ⟨_, hc, rfl⟩, hm.memory, as, fs, hl⟩
  · exact ⟨_, _, bind_eq_ok.mpr ⟨_, hc, rfl⟩, hm.memory, as, fs, hl⟩
  · exact ⟨_, _, bind_eq_ok.mpr ⟨_, hc, rfl⟩, hm.memory, as, fs, hl⟩
  · exact ⟨_, _, bind_eq_ok.mpr ⟨_, hc, rfl⟩, hm.memory, _, fs', hq⟩

theorem Intact.delete (hm : m.Intact capacity) (hne : m.pool.isEmpty = false) (no : Nat) :
    ∃ r m', m.delete no = .ok (r, m') ∧ m'.Intact capacity := by
  obtain ⟨as, fs, hl⟩ := hm.pool
  have has : as ≠ [] := by
    rintro rfl
    simp [Pool.isEmpty, hl.head_eq] at hne
  obtain ⟨bs, i, cs, q, -, -, hd, hq, -⟩ | ⟨-, hd⟩ := hl.delete_eq has no
  · exact ⟨_, _, bind_eq_ok.mpr ⟨_, hd, rfl⟩, hm.memory, _, _, hq⟩
  · exact ⟨_, _, bind_eq_ok.mpr ⟨_, hd, rfl⟩, hm.memory, as, fs, hl⟩

theorem Intact.setRegister {name : String} {x : UInt32} (hm : m.Intact capacity)
    (h : m.setRegister name x = .ok m') : m'.Intact capacity := by
  have hpool := LaidOut.setRegister hm.pool h
  obtain ⟨registers, -, rfl⟩ := setRegister_inv h
  exact ⟨hm.memory, hpool⟩

end Machine

end Monitor386
