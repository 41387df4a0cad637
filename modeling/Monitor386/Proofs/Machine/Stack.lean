import Mathlib
import Monitor386.Proofs.Machine.Transfers

/-!
# The discipline of the stack

A word that was pushed is popped again, whatever happens in between, as long as this restores the stack
pointer and leaves the word alone: `pop_pushed`. The rest is brackets around brackets.

* `pushAll_popAll`: pushed words come back in the opposite order.
* `push_pop`: a word is pushed from one register and popped into another. Either can be the stack
  pointer.
* `Balanced.run`: calls with their returns, nested to any depth, restore the registers.
-/

namespace Monitor386

variable {c c₁ c₂ : Cpu} {i j : Instruction} {is js : List Instruction} {x : UInt32}
  {xs : List UInt32} {lo hi n : Nat}

namespace Cpu

/-! ## Pushing and popping -/

/-- Where the next word is pushed. -/
def top (c : Cpu) : UInt32 :=
  c.registers.get Registers.esp .full - 4

/-- The processor after a push that is possible. -/
def pushed (c : Cpu) (x : UInt32) : Cpu :=
  { c with
    memory := c.memory.withWord c.top x
    registers := c.registers.set Registers.esp .full c.top }

theorem push_eq (h : c.top.toNat + 4 ≤ c.memory.capacity) : c.push x = .ok (c.pushed x) :=
  bind_eq_ok.mpr ⟨_, Memory.write_word.mpr ⟨h, rfl⟩, rfl⟩

theorem pushed_agrees (c : Cpu) (x : UInt32) :
    Memory.AgreesOutside c.top.toNat (c.top.toNat + 4) c.memory (c.pushed x).memory :=
  Memory.agreesOutside_withWord ..

@[simp] theorem capacity_pushed (c : Cpu) (x : UInt32) :
    (c.pushed x).memory.capacity = c.memory.capacity :=
  Memory.capacity_withWord ..

@[simp] theorem esp_pushed (c : Cpu) (x : UInt32) :
    (c.pushed x).registers.get Registers.esp .full = c.top :=
  Registers.get_set_self ..

/-- What was pushed is popped again, if all registers but the instruction pointer are as after the push
and the word was left alone. -/
theorem pop_pushed {eip : UInt32} (hin : c.top.toNat + 4 ≤ c.memory.capacity)
    (hregs : c₂.registers = { (c.pushed x).registers with eip })
    (hmem : Memory.AgreesOutside lo hi (c.pushed x).memory c₂.memory) (hhi : hi ≤ c.top.toNat) :
    c₂.pop = .ok (x, { c₂ with registers := { c.registers with eip } }) := by
  have hesp : c₂.registers.get Registers.esp .full = c.top := by
    rw [hregs]
    exact c.esp_pushed x
  have hread : c₂.memory.read .program c.top 4 = .ok x :=
    hmem.read (.inr hhi) (Memory.read_withWord hin)
  have hback : c.top + 4 = c.registers.get Registers.esp .full := sub_add_cancel _ _
  have hrestored : c₂.registers.set Registers.esp .full (c.top + 4) = { c.registers with eip } := by
    rw [hregs, hback]
    show { (c.registers.set Registers.esp .full c.top).set Registers.esp .full _ with eip } = _
    rw [Registers.set_set, Registers.set_get_self]
  unfold pop
  simp only [hesp, hread, hrestored]
  rfl

/-! ## Many words -/

/-- Pushes words, one after the other. -/
def pushAll (c : Cpu) : List UInt32 → Except Abort Cpu
  | [] => pure c
  | x :: xs => do (← c.push x).pushAll xs

/-- Pops a number of words, the first that comes first. -/
def popAll (c : Cpu) : Nat → Except Abort (List UInt32 × Cpu)
  | 0 => pure ([], c)
  | n + 1 => do
    let (x, c) ← c.pop
    let (xs, c) ← c.popAll n
    pure (x :: xs, c)

/-- The last word of many is popped after the others. -/
theorem popAll_succ (h : c.popAll n = .ok (xs, c₁)) (hpop : c₁.pop = .ok (x, c₂)) :
    c.popAll (n + 1) = .ok (xs ++ [x], c₂) := by
  induction n generalizing c xs with
  | zero =>
    cases h
    exact bind_eq_ok.mpr ⟨_, hpop, rfl⟩
  | succ n ih =>
    obtain ⟨⟨y, c'⟩, hy, h⟩ := bind_eq_ok.mp h
    obtain ⟨⟨ys, c''⟩, hys, h⟩ := bind_eq_ok.mp h
    cases h
    exact bind_eq_ok.mpr ⟨_, hy, bind_eq_ok.mpr ⟨_, ih hys, rfl⟩⟩

/-- The room for a word below the stack pointer, if there is room for `n + 1`. -/
theorem toNat_top (h : 4 * (n + 1) ≤ (c.registers.get Registers.esp .full).toNat) :
    c.top.toNat + 4 = (c.registers.get Registers.esp .full).toNat := by
  have hle : (4 : UInt32) ≤ c.registers.get Registers.esp .full := by
    rw [UInt32.le_iff_toNat_le]
    show 4 ≤ _
    omega
  unfold top
  rw [UInt32.toNat_sub_of_le _ _ hle]
  show _ - 4 + 4 = _
  omega

/-- Pushed words are popped in the opposite order, and the registers are restored. The induction is on
the words: those after the first are pushed and popped between the first one and its return. -/
theorem pushAll_popAll (xs : List UInt32) (c : Cpu)
    (hlo : 4 * xs.length ≤ (c.registers.get Registers.esp .full).toNat)
    (hhi : (c.registers.get Registers.esp .full).toNat ≤ c.memory.capacity) :
    ∃ c₁ c₂, c.pushAll xs = .ok c₁ ∧ c₁.popAll xs.length = .ok (xs.reverse, c₂) ∧
      c₂.registers = c.registers ∧
      Memory.AgreesOutside ((c.registers.get Registers.esp .full).toNat - 4 * xs.length)
        (c.registers.get Registers.esp .full).toNat c.memory c₂.memory := by
  induction xs generalizing c with
  | nil => exact ⟨c, c, rfl, rfl, rfl, .refl _ _ _⟩
  | cons x xs ih =>
    rw [List.length_cons] at hlo ⊢
    have htop := toNat_top hlo
    have hin : c.top.toNat + 4 ≤ c.memory.capacity := by omega
    obtain ⟨c₁, c₂, hpush, hpop, hregs, hmem⟩ := ih (c.pushed x)
      (by rw [esp_pushed]; omega) (by rw [esp_pushed, capacity_pushed]; omega)
    rw [esp_pushed] at hmem
    have hfirst : c₂.registers = { (c.pushed x).registers with eip := c.registers.eip } := hregs
    have hlast := pop_pushed hin hfirst hmem le_rfl
    refine ⟨c₁, { c₂ with registers := c.registers }, bind_eq_ok.mpr ⟨_, push_eq hin, hpush⟩,
      ?_, rfl, ?_⟩
    · rw [List.reverse_cons]
      exact popAll_succ hpop hlast
    · exact ((c.pushed_agrees x).mono (by omega) (by omega)).trans
        (hmem.mono (by omega) (by omega))

/-! ## From one register into another -/

/-- Pushing from one register and popping into another moves the word. If the stack pointer is pushed,
its value from before the push is; if it is popped into, it takes the word and nothing restores it. -/
theorem push_pop {src dst : Fin 8} (hi : i.operation = .push src) (hj : j.operation = .pop dst)
    (hin : c.top.toNat + 4 ≤ c.memory.capacity) :
    ∃ c₁ c₂, c.execute i = .ok (c₁, none) ∧ c₁.execute j = .ok (c₂, none) ∧
      c₂.registers = c.registers.set dst .full (c.registers.get src .full) ∧
      Memory.AgreesOutside c.top.toNat (c.top.toNat + 4) c.memory c₂.memory := by
  have hpush : c.effect i = .ok (c.pushed (c.registers.get src .full)) := by
    unfold effect
    rw [hi]
    exact bind_eq_ok.mpr ⟨_, c.registers.word_eq src.isLt, push_eq hin⟩
  let c₁ := (c.pushed (c.registers.get src .full)).printAssembly i.text
  have hpop : c₁.pop = .ok (c.registers.get src .full, { c₁ with registers := c.registers }) :=
    pop_pushed hin rfl (.refl 0 0 _) (Nat.zero_le _)
  have heffect : c₁.effect j = .ok { c₁ with
      registers := c.registers.set dst .full (c.registers.get src .full) } := by
    unfold effect
    rw [hj]
    exact bind_eq_ok.mpr ⟨_, hpop, setWord_eq_ok.mpr ⟨dst, rfl, rfl⟩⟩
  have hfirst := execute_of_effect hpush
  have hsecond := execute_of_effect heffect
  rw [hi] at hfirst
  rw [hj] at hsecond
  exact ⟨c₁, _, hfirst, hsecond, rfl, c.pushed_agrees _⟩

/-! ## Calls and returns -/

/-- Completes instructions, one after the other. -/
def completeAll (c : Cpu) : List Instruction → Except Abort Cpu
  | [] => pure c
  | i :: is => do (← c.complete i).completeAll is

theorem completeAll_append (h : c.completeAll is = .ok c₁) (h' : c₁.completeAll js = .ok c₂) :
    c.completeAll (is ++ js) = .ok c₂ := by
  induction is generalizing c with
  | nil =>
    cases h
    exact h'
  | cons i is ih =>
    obtain ⟨c', hi, h⟩ := bind_eq_ok.mp h
    exact bind_eq_ok.mpr ⟨c', hi, ih h⟩

/-- A call pushes the address behind it and goes to its target. -/
theorem complete_call (hi : i.operation = .call x) (hin : c.top.toNat + 4 ≤ c.memory.capacity) :
    ∃ c₁, c.complete i = .ok c₁ ∧ c₁.memory = (c.pushed i.next).memory ∧
      c₁.registers = { (c.pushed i.next).registers with eip := i.target x } := by
  have heffect : c.effect i = .ok ((c.pushed i.next).transfer i (i.target x)) := by
    unfold effect
    rw [hi]
    exact bind_eq_ok.mpr ⟨_, push_eq hin, rfl⟩
  refine ⟨_, complete_of_effect heffect, rfl, ?_⟩
  show { (c.pushed i.next).registers with eip := i.target x - i.length + i.length } = _
  rw [sub_add_cancel]

/-- The return goes to the address behind the call, if what was completed in between restores the
registers and leaves the return address alone. -/
theorem complete_ret {eip : UInt32} (hj : j.operation = .ret)
    (hin : c.top.toNat + 4 ≤ c.memory.capacity)
    (hregs : c₂.registers = { (c.pushed x).registers with eip })
    (hmem : Memory.AgreesOutside lo hi (c.pushed x).memory c₂.memory) (hhi : hi ≤ c.top.toNat) :
    ∃ c₃, c₂.complete j = .ok c₃ ∧ c₃.memory = c₂.memory ∧
      c₃.registers = { c.registers with eip := x } := by
  have heffect : c₂.effect j =
      .ok ({ c₂ with registers := { c.registers with eip } }.transfer j x) := by
    unfold effect
    rw [hj]
    exact bind_eq_ok.mpr ⟨_, pop_pushed hin hregs hmem hhi, rfl⟩
  refine ⟨_, complete_of_effect heffect, rfl, ?_⟩
  show { c.registers with eip := x - j.length + j.length } = _
  rw [sub_add_cancel]

end Cpu

/-- Calls with their returns, nested at most `n` deep. -/
inductive Balanced : Nat → List Instruction → Prop where
  | nil {n : Nat} : Balanced n []
  | call {n : Nat} {i j : Instruction} {x : UInt32} {is js : List Instruction} :
      i.operation = .call x → j.operation = .ret → Balanced n is → Balanced (n + 1) js →
      Balanced (n + 1) (i :: (is ++ j :: js))

/-- The processor is as before, but for the instruction pointer, the disassembly, and the `n` words
below the stack pointer. -/
structure Cpu.Returned (n : Nat) (c c' : Cpu) : Prop where
  registers : c'.registers = { c.registers with eip := c'.registers.eip }
  memory : Memory.AgreesOutside ((c.registers.get Registers.esp .full).toNat - 4 * n)
    (c.registers.get Registers.esp .full).toNat c.memory c'.memory

namespace Cpu

theorem Returned.refl (n : Nat) (c : Cpu) : Returned n c c :=
  ⟨rfl, .refl _ _ _⟩

theorem Returned.esp_eq (h : Returned n c c₁) :
    c₁.registers.get Registers.esp .full = c.registers.get Registers.esp .full := by
  rw [h.registers]
  rfl

theorem Returned.trans (h₁ : Returned n c c₁) (h₂ : Returned n c₁ c₂) : Returned n c c₂ where
  registers := by
    rw [h₂.registers, h₁.registers]
  memory := h₁.memory.trans (h₁.esp_eq ▸ h₂.memory)

/-- A call, then anything that returns in the room below the return address, then a return. -/
theorem call_ret (hi : i.operation = .call x) (hj : j.operation = .ret)
    (hinner : ∀ c : Cpu, 4 * n ≤ (c.registers.get Registers.esp .full).toNat →
      (c.registers.get Registers.esp .full).toNat ≤ c.memory.capacity →
      ∃ c', c.completeAll is = .ok c' ∧ c.Returned n c')
    (hlo : 4 * (n + 1) ≤ (c.registers.get Registers.esp .full).toNat)
    (hhi : (c.registers.get Registers.esp .full).toNat ≤ c.memory.capacity) :
    ∃ c₁ c₂ c₃, c.complete i = .ok c₁ ∧ c₁.registers.eip = i.target x ∧
      c₁.completeAll is = .ok c₂ ∧ c₂.complete j = .ok c₃ ∧ c₃.registers.eip = i.next ∧
      c.Returned (n + 1) c₃ := by
  have htop := toNat_top hlo
  have hin : c.top.toNat + 4 ≤ c.memory.capacity := by omega
  obtain ⟨c₁, hcall, hmem₁, hregs₁⟩ := complete_call hi hin
  have hesp : c₁.registers.get Registers.esp .full = c.top := by
    rw [hregs₁]
    exact c.esp_pushed i.next
  obtain ⟨c₂, hbody, hret⟩ := hinner c₁ (by rw [hesp]; omega)
    (by rw [hesp, hmem₁, capacity_pushed]; omega)
  have hregs₂ : c₂.registers = { (c.pushed i.next).registers with eip := c₂.registers.eip } := by
    rw [hret.registers, hregs₁]
  have hmem₂ := hret.memory
  rw [hesp, hmem₁] at hmem₂
  obtain ⟨c₃, hreturn, hmem₃, hregs₃⟩ := complete_ret hj hin hregs₂ hmem₂ le_rfl
  refine ⟨c₁, c₂, c₃, hcall, by rw [hregs₁], hbody, hreturn, by rw [hregs₃], by rw [hregs₃], ?_⟩
  rw [hmem₃]
  exact ((c.pushed_agrees i.next).mono (by omega) (by omega)).trans
    (hmem₂.mono (by omega) (by omega))

end Cpu

/-- Nested calls return. The induction is on the nesting: what is between a call and its return has room
for one call less. -/
theorem Balanced.run (h : Balanced n is) (c : Cpu)
    (hlo : 4 * n ≤ (c.registers.get Registers.esp .full).toNat)
    (hhi : (c.registers.get Registers.esp .full).toNat ≤ c.memory.capacity) :
    ∃ c', c.completeAll is = .ok c' ∧ c.Returned n c' := by
  induction h generalizing c with
  | nil => exact ⟨c, rfl, .refl _ _⟩
  | call hi hj _ _ ihInner ihRest =>
    obtain ⟨c₁, c₂, c₃, hcall, -, hbody, hreturn, -, hret⟩ := Cpu.call_ret hi hj ihInner hlo hhi
    obtain ⟨c₄, hrest, hret'⟩ := ihRest c₃ (by rw [hret.esp_eq]; exact hlo)
      (by rw [hret.esp_eq, hret.memory.capacity]; exact hhi)
    exact ⟨c₄, bind_eq_ok.mpr ⟨c₁, hcall, Cpu.completeAll_append hbody
      (bind_eq_ok.mpr ⟨c₃, hreturn, hrest⟩)⟩, hret.trans hret'⟩

/-! ## The discipline -/

/-- The stack of a processor, in the memory below its stack pointer.
* Words that are pushed are popped in the opposite order.
* A push from one register and a pop into another move the word. All other registers are as before, and
  so is the stack pointer, if it is not what is popped into.
* A call and its return restore all registers and go on behind the call, also with other calls nested
  in between. The return may be at any address, so also at the target of the call. -/
theorem Cpu.stack_discipline (c : Cpu) :
    let esp := c.registers.get Registers.esp .full
    (∀ xs : List UInt32, 4 * xs.length ≤ esp.toNat → esp.toNat ≤ c.memory.capacity →
      ∃ c₁ c₂, c.pushAll xs = .ok c₁ ∧ c₁.popAll xs.length = .ok (xs.reverse, c₂) ∧
        c₂.registers = c.registers ∧
        Memory.AgreesOutside (esp.toNat - 4 * xs.length) esp.toNat c.memory c₂.memory) ∧
    (∀ (src dst : Fin 8) (i j : Instruction), i.operation = .push src → j.operation = .pop dst →
      (esp - 4).toNat + 4 ≤ c.memory.capacity →
      ∃ c₁ c₂, c.execute i = .ok (c₁, none) ∧ c₁.execute j = .ok (c₂, none) ∧
        c₂.registers.get dst .full = c.registers.get src .full ∧
        (∀ r ≠ dst, c₂.registers.get r .full = c.registers.get r .full) ∧
        c₂.registers.eip = c.registers.eip ∧ c₂.registers.eflags = c.registers.eflags ∧
        Memory.AgreesOutside (esp - 4).toNat ((esp - 4).toNat + 4) c.memory c₂.memory) ∧
    (∀ (i j : Instruction) (x : UInt32), i.operation = .call x → j.operation = .ret →
      (esp - 4).toNat + 4 ≤ c.memory.capacity →
      ∃ c₁ c₂, c.complete i = .ok c₁ ∧ c₁.registers.eip = i.target x ∧ c₁.complete j = .ok c₂ ∧
        c₂.registers = { c.registers with eip := i.eip + i.length }) ∧
    ∀ (i j : Instruction) (x : UInt32) (n : Nat) (is : List Instruction),
      i.operation = .call x → j.operation = .ret → Balanced n is →
      4 * (n + 1) ≤ esp.toNat → esp.toNat ≤ c.memory.capacity →
      ∃ c₁ c₂ c₃, c.complete i = .ok c₁ ∧ c₁.registers.eip = i.target x ∧
        c₁.completeAll is = .ok c₂ ∧ c₂.complete j = .ok c₃ ∧
        c₃.registers = { c.registers with eip := i.eip + i.length } ∧
        Memory.AgreesOutside (esp.toNat - 4 * (n + 1)) esp.toNat c.memory c₃.memory := by
  intro esp
  refine ⟨fun xs => pushAll_popAll xs c, ?_, ?_, ?_⟩
  -- one push and one pop: what is popped is what was pushed, and only the register popped into differs
  · intro src dst i j hi hj hin
    obtain ⟨c₁, c₂, hpush, hpop, hregs, hmem⟩ := push_pop hi hj hin
    refine ⟨c₁, c₂, hpush, hpop, ?_, fun r hr => ?_, ?_, ?_, hmem⟩
    · rw [hregs, Registers.get_set_self]
    · rw [hregs, Registers.get_set_of_ne _ hr]
    · rw [hregs]
      rfl
    · rw [hregs]
      rfl
  -- a call and its return with nothing in between, so that the return finds the word of the call
  · intro i j x hi hj hin
    obtain ⟨c₁, hcall, hmem₁, hregs₁⟩ := complete_call hi hin
    have hword : Memory.AgreesOutside 0 0 (c.pushed i.next).memory c₁.memory := by
      rw [hmem₁]
      exact .refl _ _ _
    obtain ⟨c₂, hret, -, hregs₂⟩ := complete_ret hj hin hregs₁ hword (Nat.zero_le _)
    exact ⟨c₁, c₂, hcall, by rw [hregs₁], hret, hregs₂⟩
  -- a body between the call and the return: it has balanced calls only, so it leaves the word of the call alone
  · intro i j x n is hi hj his hlo hhi
    obtain ⟨c₁, c₂, c₃, hcall, heip₁, hbody, hret, heip₃, hreturned⟩ :=
      call_ret hi hj his.run hlo hhi
    refine ⟨c₁, c₂, c₃, hcall, heip₁, hbody, hret, ?_, hreturned.memory⟩
    rw [hreturned.registers, heip₃]
    rfl

/-- Two words on a stack that has room for just two, the stack pointer pushed and popped into itself,
and a call in a call. -/
theorem Cpu.stack_discipline_room :
    let c : Cpu := ⟨Registers.initial.set Registers.esp .full 8, ⟨8, .empty⟩, .empty⟩
    (∃ c₁ c₂, c.pushAll [1, 2] = .ok c₁ ∧ c₁.popAll 2 = .ok ([2, 1], c₂)) ∧
    (∃ c₁ c₂, c.execute ⟨0, 0x54, 1, .push 4⟩ = .ok (c₁, none) ∧
      c₁.execute ⟨1, 0x5C, 1, .pop 4⟩ = .ok (c₂, none) ∧
      c₂.registers.get Registers.esp .full = 8) ∧
    (∃ c₁ c₂, c.complete ⟨0, 0xE8, 5, .call 0⟩ = .ok c₁ ∧ c₁.registers.eip = 5 ∧
      c₁.complete ⟨5, 0xC3, 1, .ret⟩ = .ok c₂ ∧ c₂.registers.eip = 5) ∧
    ∃ c₁ c₂ c₃, c.complete ⟨0, 0xE8, 5, .call 0x10⟩ = .ok c₁ ∧
      c₁.completeAll [⟨0x15, 0xE8, 5, .call 0x10⟩, ⟨0x2A, 0xC3, 1, .ret⟩] = .ok c₂ ∧
      c₂.complete ⟨0x1A, 0xC3, 1, .ret⟩ = .ok c₃ ∧ c₃.registers.eip = 5 := by
  intro c
  have hesp : c.registers.get Registers.esp .full = 8 := Registers.get_set_self ..
  obtain ⟨hmany, hmove, hcall, hnested⟩ := c.stack_discipline
  rw [hesp] at hmany hmove hcall hnested
  have hnone : Balanced 0 [] := .nil
  have hinner : Balanced 1 [⟨0x15, 0xE8, 5, .call 0x10⟩, ⟨0x2A, 0xC3, 1, .ret⟩] :=
    .call rfl rfl hnone .nil
  refine ⟨?_, ?_, ?_, ?_⟩
  · obtain ⟨c₁, c₂, hpush, hpop, -⟩ := hmany [1, 2] (by decide) (by decide)
    exact ⟨c₁, c₂, hpush, hpop⟩
  · obtain ⟨c₁, c₂, hpush, hpop, hget, -⟩ := hmove Registers.esp Registers.esp
      ⟨0, 0x54, 1, .push 4⟩ ⟨1, 0x5C, 1, .pop 4⟩ rfl rfl (by decide)
    exact ⟨c₁, c₂, hpush, hpop, hget.trans hesp⟩
  · obtain ⟨c₁, c₂, h₁, htarget, h₂, hregs⟩ := hcall ⟨0, 0xE8, 5, .call 0⟩ ⟨5, 0xC3, 1, .ret⟩ 0 rfl rfl
      (by decide)
    exact ⟨c₁, c₂, h₁, htarget, h₂, by rw [hregs]; rfl⟩
  · obtain ⟨c₁, c₂, c₃, h₁, -, h₂, h₃, hregs, -⟩ := hnested ⟨0, 0xE8, 5, .call 0x10⟩
      ⟨0x1A, 0xC3, 1, .ret⟩ 0x10 1 _ rfl rfl hinner (by decide) (by decide)
    exact ⟨c₁, c₂, c₃, h₁, h₂, h₃, by rw [hregs]; rfl⟩

end Monitor386
