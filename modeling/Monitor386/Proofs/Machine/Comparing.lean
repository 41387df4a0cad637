import Mathlib
import Monitor386.Proofs.Machine.Transfers

/-!
# Comparisons and the jumps after them

A comparison subtracts for the flags alone. The zero flag tells whether its operands are equal, and so
the jumps that follow it are taken or not.

* `Cpu.effect_compare`: a comparison changes nothing but the flags.
* `Machine.step_jump`: where a conditional jump goes on, by the zero flag.
* `Machine.arithmetic_decides`: the flags of sums and differences, and the jumps after a comparison.
-/

namespace Monitor386

variable {c : Cpu} {i j : Instruction} {imm x : UInt32} {m : Machine I386Table}

theorem Cpu.effect_compare (hi : i.operation = .compare 0 imm) :
    c.effect i = .ok { c with registers := { c.registers with
      eflags := (c.registers.eflags.sub (c.registers.get Registers.eax .full) imm).2 } } := by
  unfold Cpu.effect
  rw [hi]
  refine Cpu.update_eq_ok.mpr ⟨Registers.eax, rfl, ?_⟩
  simp only [Registers.set_get_self]

namespace Machine

/-- A step of a jump goes on where the processor says. A jump has no word of data. -/
theorem step_jump {condition : Condition}
    (hdecode : decode m.cpu.memory m.cpu.registers.eip = .ok (.ok i))
    (hi : i.operation = .jump condition x) :
    ∃ s, m.step = .ok s ∧ (s.machine.cpu.registers.eip.toNat : Int) = m.cpu.successor i := by
  obtain ⟨c', heffect⟩ := Cpu.effect_returns (c := m.cpu) (registersExist_of_decode hdecode)
    fun addr h => by rw [hi] at h; cases h
  obtain ⟨s, hs, -, hcpu⟩ := step_of_complete hdecode (Cpu.complete_of_effect heffect)
  exact ⟨s, hs, hcpu ▸ Cpu.effect_successor hdecode heffect⟩

/-- The flags of sums and differences say what they should of the operands as numbers, without a sign
and in two's complement, and no other bit of the flags register changes. After a comparison of the
accumulator with an immediate word, a jump on zero is taken just if they are equal, and a jump on
nonzero just if they are not. -/
theorem arithmetic_decides :
    (∀ (e : Eflags) (a b : UInt32),
      (e.add a b).1.toNat = (a.toNat + b.toNat) % 2 ^ 32 ∧
      (e.add a b).2.Reports (2 ^ 32 ≤ a.toNat + b.toNat)
        (¬ FitsSigned (a.toInt32.toInt + b.toInt32.toInt))
        (16 ≤ a.toNat % 16 + b.toNat % 16) (e.add a b).1 ∧
      Eflags.AgreesExcept Eflags.arithmetic e (e.add a b).2) ∧
    (∀ (e : Eflags) (a b : UInt32),
      ((e.sub a b).1.toNat : Int) = ((a.toNat : Int) - b.toNat) % 2 ^ 32 ∧
      (e.sub a b).2.Reports (a.toNat < b.toNat)
        (¬ FitsSigned (a.toInt32.toInt - b.toInt32.toInt))
        (a.toNat % 16 < b.toNat % 16) (e.sub a b).1 ∧
      Eflags.AgreesExcept Eflags.arithmetic e (e.sub a b).2 ∧
      ((e.sub a b).2.get .zero = true ↔ a = b) ∧
      ((e.sub a b).2.get .sign ≠ (e.sub a b).2.get .overflow ↔ a.toInt32.toInt < b.toInt32.toInt)) ∧
    ∀ (m : Machine I386Table) (i : Instruction) (imm : UInt32),
      decode m.cpu.memory m.cpu.registers.eip = .ok (.ok i) → i.operation = .compare 0 imm →
      ∃ s, m.step = .ok s ∧ ∀ (j : Instruction) (x : UInt32),
        decode s.machine.cpu.memory s.machine.cpu.registers.eip = .ok (.ok j) →
        (j.operation = .jump .zero x → ∃ s', s.machine.step = .ok s' ∧
          (s'.machine.cpu.registers.eip.toNat : Int) =
            if m.cpu.registers.get Registers.eax .full = imm then s.machine.cpu.relativeTarget j
            else s.machine.cpu.behind j) ∧
        (j.operation = .jump .nonzero x → ∃ s', s.machine.step = .ok s' ∧
          (s'.machine.cpu.registers.eip.toNat : Int) =
            if m.cpu.registers.get Registers.eax .full = imm then s.machine.cpu.behind j
            else s.machine.cpu.relativeTarget j) := by
  refine ⟨fun e a b => ?_, fun e a b => ?_, fun m i imm hdecode hi => ?_⟩
  · exact ⟨UInt32.toNat_add a b, e.add_reports a b, e.add_agrees a b⟩
  · have hdiff : ((a - b).toNat : Int) = ((a.toNat : Int) - b.toNat) % 2 ^ 32 := by
      have hb := b.toNat_lt
      rw [UInt32.toNat_sub]
      omega
    exact ⟨hdiff, e.sub_reports a b, e.sub_agrees a b, e.sub_compares a b⟩
  · obtain ⟨s, hs, -, hcpu⟩ := step_of_complete hdecode
      (Cpu.complete_of_effect (Cpu.effect_compare hi))
    have hflag : s.machine.cpu.registers.eflags.get .zero = true ↔
        m.cpu.registers.get Registers.eax .full = imm := by
      rw [hcpu]
      exact (Eflags.sub_compares _ _ _).1
    refine ⟨s, hs, fun j x hj => ⟨fun hop => ?_, fun hop => ?_⟩⟩
    · obtain ⟨s', hs', heip⟩ := step_jump hj hop
      refine ⟨s', hs', heip.trans ?_⟩
      simp only [Cpu.successor, hop, hflag]
    · obtain ⟨s', hs', heip⟩ := step_jump hj hop
      refine ⟨s', hs', heip.trans ?_⟩
      simp only [Cpu.successor, hop, hflag]

/-- The accumulator is 0, which is not 5: the jump on nonzero skips two bytes. -/
theorem arithmetic_decides_nonzero :
    let m : Machine I386Table :=
      { cpu := ⟨{ Registers.initial with eip := 0 },
          ⟨16, Store.empty.splice 0 [0x3D, 5, 0, 0, 0, 0x75, 2]⟩, .empty⟩,
        table := {} }
    ∃ s s', m.step = .ok s ∧ s.machine.step = .ok s' ∧
      s'.machine.cpu.registers.eip = 9 := by
  intro m
  have hcompare : decode m.cpu.memory m.cpu.registers.eip = .ok (.ok ⟨0, 0x3D, 5, .compare 0 5⟩) :=
    (Decodes.instruction rfl (.intro (.word (by simp [wordCodes])) (.word 5)) (by decide +kernel)).decode_eq
      (by decide +kernel)
  obtain ⟨s, hs, hjump⟩ := arithmetic_decides.2.2 m _ 5 hcompare rfl
  -- the comparison leaves the memory, and the pointer moves over its five bytes
  have hcpu : s.machine.cpu.registers.eip = 5 ∧ s.machine.cpu.memory = m.cpu.memory := by
    obtain ⟨s₁, hs₁, -, hcpu⟩ := step_of_complete hcompare
      (Cpu.complete_of_effect (Cpu.effect_compare rfl))
    cases hs.symm.trans hs₁
    rw [hcpu]
    exact ⟨by decide +kernel, rfl⟩
  obtain ⟨heip, hmem⟩ := hcpu
  have hnonzero : decode s.machine.cpu.memory s.machine.cpu.registers.eip =
      .ok (.ok ⟨5, 0x75, 2, .jump .nonzero 2⟩) := by
    rw [heip, hmem]
    exact (Decodes.instruction rfl (.intro (.byte (by simp [byteCodes])) (.byte 2))
      (by decide +kernel)).decode_eq (by decide +kernel)
  obtain ⟨s', hs', heip'⟩ := (hjump _ 2 hnonzero).2 rfl
  refine ⟨s, s', hs, hs', ?_⟩
  have hne : m.cpu.registers.get Registers.eax .full ≠ 5 := by decide +kernel
  rw [if_neg hne, Cpu.relativeTarget, heip, hmem] at heip'
  have htarget : ((5 : UInt32).toNat + (2 : UInt32).toNat +
      m.cpu.memory.signedNumber (5 + 1) (displacementWidth 0x75) : Int) % 2 ^ 32 = 9 := by
    decide +kernel
  rw [← UInt32.toNat_inj]
  exact_mod_cast heip'.trans htarget

end Machine

end Monitor386
