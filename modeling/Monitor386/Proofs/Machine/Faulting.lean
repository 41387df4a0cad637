import Mathlib
import Monitor386.Proofs.Instruction.Accesses
import Monitor386.Proofs.Machine.Resuming

/-!
# Faults

An instruction that cannot be decoded does nothing: its step leaves the machine as the steps before it
left it, but stopped. A machine that is stopped there stays there.

* `I386Table.exec_of_fault`: a call for such an instruction returns the processor that it was given.
* `step_of_fault`, `decode_of_step_fault`: a step faults where the instruction cannot be decoded.
* `exec_of_fault`: so does a run that begins there, whatever its budget.
* `exec_fault_fixed`: a run that faults is a run to the instruction at fault, and all runs after it fault
  there and leave the machine as it is.
-/

namespace Monitor386

/-- The address of the instruction at fault. -/
def Fault.eip : Fault → UInt32
  | invalidOpcode eip _ => eip
  | unsupportedOperand eip _ => eip

theorem eip_of_decode {m : Memory} {eip : UInt32} {fault : Fault}
    (h : decode m eip = .ok (.error fault)) : fault.eip = eip := by
  cases finds_of_decode h with
  | invalid => rfl
  | unsupported => rfl

/-! ## Calls -/

namespace I386Table

variable {c : Cpu} {eip : UInt32} {fault : Fault} {call : Call I386Table}

theorem exec_of_fault (h : decode c.memory eip = .ok (.error fault)) :
    exec c eip = .ok ⟨{}, c, false, [fault.record], .error fault⟩ :=
  bind_eq_ok.mpr ⟨_, h, rfl⟩

theorem decode_of_exec_fault (h : exec c eip = .ok call) (hres : call.result = .error fault) :
    decode c.memory eip = .ok (.error fault) := by
  rcases exec_inv h with ⟨fault', hdecode, hfault, -⟩ | ⟨i, c', -, -, hok, -⟩
  · cases hfault.symm.trans hres
    exact hdecode
  · cases hok.symm.trans hres

end I386Table

namespace Machine

variable {σ : Type} {m m' : Machine I386Table} {s : Step I386Table} {fault : Fault}

/-! ## Steps -/

/-- The step of an instruction that cannot be decoded leaves no trace. -/
theorem step_of_fault (h : decode m.cpu.memory m.cpu.registers.eip = .ok (.error fault)) :
    ∃ s, m.step = .ok s ∧ s.outcome = some (.fault fault) ∧
      s.machine = { m with state := .stopped } :=
  ⟨m.faultStep m.cpu.registers.eip [fault.record] fault,
    bind_eq_ok.mpr ⟨_, I386Table.exec_of_fault h, rfl⟩, rfl, rfl⟩

theorem decode_of_step_fault (hm : m.state = .running) (hs : m.step = .ok s)
    (ho : s.outcome = some (.fault fault)) :
    decode m.cpu.memory m.cpu.registers.eip = .ok (.error fault) := by
  obtain ⟨c, hc, -, hdec, -⟩ := step_inv hm hs
  exact I386Table.decode_of_exec_fault hc ((decides_fault_iff hdec).mp ho)

/-! ## Runs -/

section

variable {observe : σ → Step I386Table → σ} {patience : Nat} {budget : Budget} {seen : σ}

/-- A run that begins at an instruction that cannot be decoded faults in its first step. -/
theorem exec_of_fault (hm : m.state ≠ .ended)
    (h : decode m.cpu.memory m.cpu.registers.eip = .ok (.error fault))
    (hpos : 0 < budget.limit patience) :
    (m.exec observe patience budget seen).2 =
      .ok (.fault fault, { m with state := .stopped, stopLine := m.stopLine.drain }) := by
  have hbegin : decode m.beginRun.cpu.memory m.beginRun.cpu.registers.eip = .ok (.error fault) := h
  obtain ⟨s, hs, ho, hnext⟩ := step_of_fault hbegin
  have hf : Finishes m.beginRun (budget.limit patience) ([] ++ [s]) (some (.fault fault)) s.machine :=
    .stop hpos (.nil _) hs ho
  rw [hf.exec_eq hm, hnext]
  rfl

/-- A run that faults takes quiet steps to an instruction that cannot be decoded. -/
theorem exec_fault_inv (hm : m.state ≠ .ended)
    (h : (m.exec observe patience budget seen).2 = .ok (.fault fault, m')) :
    ∃ ss m₁ s, m.trace patience budget = ss ++ [s] ∧ ss.length < budget.limit patience ∧
      Quiet m.beginRun ss m₁ ∧ decode m₁.cpu.memory m₁.cpu.registers.eip = .ok (.error fault) ∧
      m' = { m₁ with state := .stopped } := by
  obtain ⟨-, hf⟩ | ⟨ho, -⟩ := exec_cases hm h
  · generalize m.trace patience budget = ss at hf ⊢
    cases hf with
    | @stop ss m₁ s _ hlen hq hs ho =>
      have hdecode := decode_of_step_fault (hq.continues rfl).2 hs ho
      obtain ⟨s', hs', -, hnext⟩ := step_of_fault hdecode
      cases hs.symm.trans hs'
      exact ⟨ss, m₁, s, rfl, hlen, hq, hdecode, hnext⟩
  · cases ho

/-- A run that faults leaves the machine as a run leaves it that uses up its budget before the
instruction at fault. The machine is stopped at this instruction, where it cannot be decoded, and every
run from there that may take a step reports the same fault and changes nothing. -/
theorem exec_fault_fixed (m : Machine I386Table)
    (h : (m.exec observe patience budget seen).2 = .ok (.fault fault, m')) :
    (∃ j < budget.limit patience, (m.trace patience budget).length = j + 1 ∧
      ∀ (σ : Type) (observe : σ → Step I386Table → σ) (patience : Nat) (seen : σ),
        (m.exec observe patience (.steps j) seen).2 = .ok (.exhausted, m')) ∧
    m'.state = .stopped ∧ fault.eip = m'.cpu.registers.eip ∧
    decode m'.cpu.memory m'.cpu.registers.eip = .ok (.error fault) ∧
    ∀ (σ : Type) (observe : σ → Step I386Table → σ) (patience : Nat) (budget : Budget) (seen : σ),
      0 < budget.limit patience →
        (m'.exec observe patience budget seen).2 = .ok (.fault fault, m') := by
  have hm : m.state ≠ .ended := by
    intro hend
    rw [exec_of_ended hend] at h
    cases h
  obtain ⟨ss, m₁, s, htrace, hlen, hq, hdecode, rfl⟩ := exec_fault_inv hm h
  have hfull : Finishes m.beginRun ss.length ss none m₁ := .full rfl hq
  refine ⟨⟨ss.length, hlen, ?_, fun σ observe patience seen => ?_⟩, rfl, eip_of_decode hdecode, hdecode,
    fun σ observe patience budget seen hpos => ?_⟩
  · rw [htrace, List.length_append, List.length_singleton]
  · rw [hfull.exec_steps hm]
    rfl
  · -- the run left no stop request that a new one would drop
    have hline : m₁.stopLine.drain = m₁.stopLine :=
      congrArg (·.stopLine) (hq.beginRun_eq m.beginRun_beginRun)
    have hstopped : ({ m₁ with state := .stopped } : Machine I386Table).state ≠ .ended := nofun
    rw [exec_of_fault hstopped hdecode hpos]
    simp only [hline]

end

/-- An instruction is executed and the next one has no valid opcode, while a stop request waits. A run
without a limit and one with the largest budget fault there again. -/
theorem exec_fault_fixed_invalid_opcode :
    let start : Machine I386Table := create 0x100010 {} .idle
    let m := ((start.restart [0x40, 0x0F, 0x0B]).toOption.getD start).requestStop.2
    let ignore : Unit → Step I386Table → Unit := fun _ _ => ()
    let fault : Fault := .invalidOpcode 0x100001 0x0F
    ∃ m', (m.exec ignore 9 .unlimited ()).2 = .ok (.fault fault, m') ∧
      (m.exec ignore 9 (.steps 1) ()).2 = .ok (.exhausted, m') ∧ m'.state = .stopped ∧
      fault.eip = m'.cpu.registers.eip ∧
      (m'.exec ignore 1 .unlimited ()).2 = .ok (.fault fault, m') ∧
      (m'.exec ignore 0 (.ofNat (UInt64.size - 2)) ()).2 = .ok (.fault fault, m') := by
  intro start m ignore fault
  obtain ⟨m', h⟩ := exists_ok_of_fst (x := (m.exec ignore 9 .unlimited ()).2) (a := .fault fault)
    (by decide +kernel)
  have hlen : (m.trace 9 .unlimited).length = 2 := by decide +kernel
  obtain ⟨⟨j, -, hj, hparts⟩, hstate, heip, -, hagain⟩ := exec_fault_fixed m h
  obtain rfl : j = 1 := by omega
  exact ⟨m', h, hparts Unit ignore 9 (), hstate, heip, hagain Unit ignore 1 .unlimited () (by decide),
    hagain Unit ignore 0 (.ofNat (UInt64.size - 2)) () (by decide)⟩

end Machine

end Monitor386
