import Mathlib
import Monitor386.Proofs.Machine.Transfers

/-!
# Counting up and down

Counting computes the overflow and the carry out of the low four bits from its result alone. It is the
sum with one, or the difference, in all but the carry, which it keeps.

* `Eflags.eq_of_get`: flags that agree in some flags and in all other bits are the same.
* `Eflags.inc_eq_add`, `Eflags.dec_eq_sub`: the result and the flags of counting.
* `Cpu.execute_counts`: what a counting instruction does to a processor.
-/

namespace Monitor386

namespace Eflags

variable {e e₁ e₂ : Eflags} {fs gs : List Flag}

/-! ## Words and their flags -/

theorem AgreesExcept.mono (h : AgreesExcept fs e e₁) (hsub : fs ⊆ gs) : AgreesExcept gs e e₁ :=
  fun k hk => h k fun f hf => hk f (hsub hf)

/-- Flags that agree in some flags and in all other bits are the same. -/
theorem eq_of_get (h₁ : AgreesExcept fs e e₁) (h₂ : AgreesExcept fs e e₂)
    (hget : ∀ f ∈ fs, e₁.get f = e₂.get f) : e₁ = e₂ := by
  apply eq_of_testBit
  intro k
  by_cases hk : ∃ f ∈ fs, k = f.bit.toNat
  · obtain ⟨f, hf, rfl⟩ := hk
    rw [← get_eq_testBit, ← get_eq_testBit]
    exact hget f hf
  · have hk : ∀ f ∈ fs, k ≠ f.bit.toNat := fun f hf heq => hk ⟨f, hf, heq⟩
    rw [h₁ k hk, h₂ k hk]

/-! ## The two flags that counting computes by itself -/

theorem toNat_and_fifteen (w : UInt32) : (w &&& 0xF).toNat = w.toNat % 16 := by
  rw [UInt32.toNat_and]
  exact Nat.and_two_pow_sub_one_eq_mod w.toNat 4

/-- The sum with one leaves the range just if it is the least number. -/
theorem inc_overflow (a : UInt32) :
    a + 1 = 0x80000000 ↔ (a ^^^ (a + 1)) &&& (1 ^^^ (a + 1)) &&& signBit ≠ 0 := by
  have ha := a.toNat_lt
  have hone : (1 : UInt32).toInt32.toInt = 1 := rfl
  rw [add_overflow, hone, toInt_eq, FitsSigned, ← UInt32.toNat_inj, UInt32.toNat_add]
  show (a.toNat + 1) % 2 ^ 32 = 2 ^ 31 ↔ _
  split_ifs <;> omega

/-- The difference with one leaves the range just if it is the greatest number. -/
theorem dec_overflow (a : UInt32) :
    a - 1 = 0x7FFFFFFF ↔ (a ^^^ 1) &&& (a ^^^ (a - 1)) &&& signBit ≠ 0 := by
  have ha := a.toNat_lt
  have hone : (1 : UInt32).toInt32.toInt = 1 := rfl
  rw [sub_overflow, hone, toInt_eq, FitsSigned, ← UInt32.toNat_inj, UInt32.toNat_sub]
  show (2 ^ 32 - 1 + a.toNat) % 2 ^ 32 = 2 ^ 31 - 1 ↔ _
  split_ifs <;> omega

theorem inc_adjust (a : UInt32) :
    (a + 1) &&& 0xF = 0 ↔ (a ^^^ 1 ^^^ (a + 1)) &&& 0x10 ≠ 0 := by
  have ha := a.toNat_lt
  rw [add_adjust, ← UInt32.toNat_inj, toNat_and_fifteen, UInt32.toNat_add]
  show (a.toNat + 1) % 2 ^ 32 % 16 = 0 ↔ 16 ≤ a.toNat % 16 + 1
  omega

theorem dec_adjust (a : UInt32) :
    (a - 1) &&& 0xF = 0xF ↔ (a ^^^ 1 ^^^ (a - 1)) &&& 0x10 ≠ 0 := by
  have ha := a.toNat_lt
  rw [sub_adjust, ← UInt32.toNat_inj, toNat_and_fifteen, UInt32.toNat_sub]
  show (2 ^ 32 - 1 + a.toNat) % 2 ^ 32 % 16 = 15 ↔ a.toNat % 16 < 1
  omega

/-! ## Counting -/

/-- Counting up is the sum with one, with the carry as it was. -/
theorem inc_eq_add (e : Eflags) (a : UInt32) :
    e.inc a = ((e.add a 1).1, (e.add a 1).2.set .carry (e.get .carry)) := by
  have hadd : AgreesExcept arithmetic e ((e.add a 1).2.set .carry (e.get .carry)) :=
    (e.add_agrees a 1).set (by decide) _
  have hinc : AgreesExcept arithmetic e (e.inc a).2 :=
    (e.inc_agrees a).mono (List.subset_cons_self _ _)
  refine Prod.ext rfl (eq_of_get hinc hadd fun f hf => ?_)
  simp only [arithmetic, counting, List.mem_cons, List.not_mem_nil, or_false] at hf
  rcases hf with rfl | rfl | rfl | rfl | rfl | rfl <;>
    simp [inc, add, get_set, get_setResult, inc_overflow, inc_adjust]

/-- Counting down is the difference with one, with the carry as it was. -/
theorem dec_eq_sub (e : Eflags) (a : UInt32) :
    e.dec a = ((e.sub a 1).1, (e.sub a 1).2.set .carry (e.get .carry)) := by
  have hsub : AgreesExcept arithmetic e ((e.sub a 1).2.set .carry (e.get .carry)) :=
    (e.sub_agrees a 1).set (by decide) _
  have hdec : AgreesExcept arithmetic e (e.dec a).2 :=
    (e.dec_agrees a).mono (List.subset_cons_self _ _)
  refine Prod.ext rfl (eq_of_get hdec hsub fun f hf => ?_)
  simp only [arithmetic, counting, List.mem_cons, List.not_mem_nil, or_false] at hf
  rcases hf with rfl | rfl | rfl | rfl | rfl | rfl <;>
    simp [dec, sub, get_set, get_setResult, dec_overflow, dec_adjust]

end Eflags

/-! ## Instructions that count -/

namespace Cpu

variable {c : Cpu} {r : Fin 8}

/-- The processor after an instruction that counts a register, beside the result and the flags of an
arithmetic operation on its value: the carry is the old one, and so is all that the operation does not
set. -/
structure Counts (c : Cpu) (r : Fin 8) (computed : UInt32 × Eflags) (c' : Cpu) : Prop where
  register : c'.registers.get r .full = computed.1
  eflags : c'.registers.eflags = computed.2.set .carry (c.registers.eflags.get .carry)
  otherFlags : Eflags.AgreesExcept Eflags.counting c.registers.eflags c'.registers.eflags
  otherRegisters : ∀ s ≠ r, ∀ view, c'.registers.get s view = c.registers.get s view
  eip : c'.registers.eip = c.registers.eip
  memory : c'.memory = c.memory

/-- An instruction that updates a register by a count that is an arithmetic operation in all but the
carry. -/
theorem execute_update {i : Instruction} {count : Eflags → UInt32 → UInt32 × Eflags}
    {computed : UInt32 × Eflags} (heffect : c.effect i = c.update r count)
    (hcount : count c.registers.eflags (c.registers.get r .full) =
      (computed.1, computed.2.set .carry (c.registers.eflags.get .carry)))
    (hother : Eflags.AgreesExcept Eflags.counting c.registers.eflags
      (count c.registers.eflags (c.registers.get r .full)).2) :
    ∃ c', c.execute i = .ok (c', i.operation.trap?) ∧ c.Counts r computed c' := by
  rw [hcount] at hother
  have hupdate : c.update r count = .ok { c with registers :=
      { c.registers.set r .full computed.1 with
        eflags := computed.2.set .carry (c.registers.eflags.get .carry) } } := by
    refine update_eq_ok.mpr ⟨r, rfl, ?_⟩
    rw [hcount]
  refine ⟨_, execute_of_effect (heffect.trans hupdate), ?_⟩
  exact {
    register := Registers.get_set_self ..
    eflags := rfl
    otherFlags := hother
    otherRegisters := fun s hs view => by
      rw [Registers.get_eq_read, Registers.get_eq_read c.registers]
      exact congrArg view.read (Registers.get_set_of_ne _ hs _)
    eip := rfl
    memory := rfl }

/-- Counting a register up or down sets it, and the flags, as the sum with one or the difference does,
with the carry as it was. All else is left alone, but for the disassembly. -/
theorem execute_counts (c : Cpu) (r : Fin 8) (eip : UInt32) (opcode : UInt8) (length : UInt32) :
    let a := c.registers.get r .full
    (∃ c', c.execute ⟨eip, opcode, length, .inc r⟩ = .ok (c', none) ∧
      c.Counts r (c.registers.eflags.add a 1) c') ∧
    ∃ c', c.execute ⟨eip, opcode, length, .dec r⟩ = .ok (c', none) ∧
      c.Counts r (c.registers.eflags.sub a 1) c' := by
  intro a
  have hinc : c.effect ⟨eip, opcode, length, .inc r⟩ = c.update r Eflags.inc := rfl
  have hdec : c.effect ⟨eip, opcode, length, .dec r⟩ = c.update r Eflags.dec := rfl
  constructor
  · exact execute_update hinc (Eflags.inc_eq_add _ a) (Eflags.inc_agrees _ a)
  · exact execute_update hdec (Eflags.dec_eq_sub _ a) (Eflags.dec_agrees _ a)

end Cpu

end Monitor386
