import Mathlib
import Monitor386.Proofs.Instruction.Accesses
import Monitor386.Proofs.Memory.Word
import Monitor386.Proofs.Registers.Arithmetic
import Monitor386.Proofs.Registers.Views

/-!
# What an instruction may change

The footprint of an operation lists what it may change: general registers, a word of the memory, flags,
and the instruction pointer. `Within` says that two processors differ at most there, and in the
disassembly.

* `effect_within`: the effect of an instruction stays within its footprint, whatever the instruction.
* `exec_within`: so does an instruction that is executed from memory; a fault changes nothing at all.
-/

namespace Monitor386

/-! ## Footprints -/

/-- What an operation may change. -/
structure Footprint where
  /-- General registers, by number. -/
  registers : List Nat := []
  /-- The address of a word of the memory. -/
  word : Option UInt32 := none
  flags : List Flag := []
  /-- True if the operation moves the instruction pointer by itself. -/
  jumps : Bool := false

namespace Cpu

variable {c c' c₁ : Cpu} {f : Footprint} {i : Instruction} {index : Nat} {x : UInt32}

/-- The footprint of an operation. The stack pointer is register 4. -/
def footprint (c : Cpu) : Operation → Footprint
  | .nop | .breakpoint | .finish => {}
  | .moveImmediate dst _ | .move dst _ | .load dst _ => { registers := [dst] }
  | .store _ addr => { word := some addr }
  | .push _ => { registers := [4], word := some (c.registers.get Registers.esp .full - 4) }
  | .pop dst => { registers := [4, dst] }
  | .add dst _ | .sub dst _ => { registers := [dst], flags := Eflags.arithmetic }
  | .compare _ _ => { flags := Eflags.arithmetic }
  | .inc dst | .dec dst => { registers := [dst], flags := Eflags.counting }
  | .call _ =>
    { registers := [4], word := some (c.registers.get Registers.esp .full - 4), jumps := true }
  | .ret => { registers := [4], jumps := true }
  | .jump .always _ => { jumps := true }
  | .jump .zero _ => { jumps := c.registers.eflags.get .zero }
  | .jump .nonzero _ => { jumps := !c.registers.eflags.get .zero }

/-- The processors differ at most in the footprint, and in the disassembly. -/
structure Within (f : Footprint) (c c' : Cpu) : Prop where
  memory : ∀ offset, (∀ addr, f.word = some addr → offset < addr.toNat ∨ addr.toNat + 4 ≤ offset) →
    c'.memory.store.get offset = c.memory.store.get offset
  capacity : c'.memory.capacity = c.memory.capacity
  general : ∀ r : Fin 8, r.val ∉ f.registers →
    c'.registers.get r .full = c.registers.get r .full
  eflags : Eflags.AgreesExcept f.flags c.registers.eflags c'.registers.eflags
  eip : f.jumps = false → c'.registers.eip = c.registers.eip

theorem Within.refl (f : Footprint) (c : Cpu) : Within f c c :=
  ⟨fun _ _ => rfl, rfl, fun _ _ => rfl, .refl _ _, fun _ => rfl⟩

theorem Within.trans (h₁ : Within f c c₁) (h₂ : Within f c₁ c') : Within f c c' where
  memory offset ho := (h₂.memory offset ho).trans (h₁.memory offset ho)
  capacity := h₂.capacity.trans h₁.capacity
  general r hr := (h₂.general r hr).trans (h₁.general r hr)
  eflags k hk := (h₂.eflags k hk).trans (h₁.eflags k hk)
  eip hf := (h₂.eip hf).trans (h₁.eip hf)

/-! ## The parts of an effect -/

theorem within_set {s : Fin 8} (hs : s.val ∈ f.registers) (x : UInt32) :
    Within f c { c with registers := c.registers.set s .full x } where
  memory _ _ := rfl
  capacity := rfl
  general r hr := by
    apply Registers.get_set_of_ne
    rintro rfl
    exact hr hs
  eflags := .refl _ _
  eip _ := rfl

theorem setWord_eq_ok : c.setWord index x = .ok c' ↔
    ∃ s : Fin 8, index = s ∧ c' = { c with registers := c.registers.set s .full x } := by
  constructor
  · intro h
    obtain ⟨r, hr, hc⟩ := bind_eq_ok.mp h
    obtain ⟨s, hs, hr⟩ := bind_eq_ok.mp hr
    cases hc
    cases hr
    exact ⟨s, Registers.slot_eq_ok.mp hs, rfl⟩
  · rintro ⟨s, rfl, rfl⟩
    rw [setWord, Registers.setWord_eq _ s.isLt]
    rfl

theorem update_eq_ok {g : Eflags → UInt32 → UInt32 × Eflags} : c.update index g = .ok c' ↔
    ∃ s : Fin 8, index = s ∧
      let r := g c.registers.eflags (c.registers.get s .full)
      c' = { c with registers := { c.registers.set s .full r.1 with eflags := r.2 } } := by
  constructor
  · intro h
    obtain ⟨a, ha, h⟩ := bind_eq_ok.mp h
    obtain ⟨s, hs, ha⟩ := bind_eq_ok.mp ha
    cases ha
    obtain rfl := Registers.slot_eq_ok.mp hs
    simp only [Registers.setWord_eq _ s.isLt] at h
    cases h
    exact ⟨s, rfl, rfl⟩
  · rintro ⟨s, rfl, rfl⟩
    rw [update, Registers.word_eq _ s.isLt]
    simp only [bind, Except.bind, Registers.setWord_eq _ s.isLt]
    rfl

theorem within_setWord (hs : index ∈ f.registers) (h : c.setWord index x = .ok c') :
    Within f c c' := by
  obtain ⟨s, rfl, rfl⟩ := setWord_eq_ok.mp h
  exact within_set hs x

/-- A word is written into the memory. -/
theorem within_write {addr : UInt32} {m : Memory} (hw : f.word = some addr)
    (h : c.memory.write .program addr 4 x = .ok m) : Within f c { c with memory := m } := by
  obtain ⟨-, rfl⟩ := Memory.write_word.mp h
  exact ⟨fun offset ho => Memory.get_withWord (ho addr hw), rfl, fun _ _ => rfl, .refl _ _,
    fun _ => rfl⟩

theorem within_eflags {e : Eflags} (h : Eflags.AgreesExcept f.flags c.registers.eflags e) :
    Within f c { c with registers := { c.registers with eflags := e } } :=
  ⟨fun _ _ => rfl, rfl, fun _ _ => rfl, h, fun _ => rfl⟩

theorem within_transfer (hf : f.jumps = true) (i : Instruction) (target : UInt32) :
    Within f c (c.transfer i target) :=
  ⟨fun _ _ => rfl, rfl, fun _ _ => rfl, .refl _ _, fun h => by simp [hf] at h⟩

/-- An operation on a register and the flags. If the register is not in the footprint, the operation
does not change it. -/
theorem within_update {g : Eflags → UInt32 → UInt32 × Eflags}
    (hg : ∀ e a, Eflags.AgreesExcept f.flags e (g e a).2)
    (hs : index ∈ f.registers ∨ ∀ e a, (g e a).1 = a) (h : c.update index g = .ok c') :
    Within f c c' := by
  obtain ⟨s, rfl, rfl⟩ := update_eq_ok.mp h
  apply Within.trans (within_eflags (hg _ (c.registers.get s .full)))
  rcases hs with hs | hsame
  · exact within_set hs _
  · simp only [hsame, Registers.set_get_self]
    exact .refl _ _

theorem within_push (hr : 4 ∈ f.registers)
    (hw : f.word = some (c.registers.get Registers.esp .full - 4)) (h : c.push x = .ok c') :
    Within f c c' := by
  obtain ⟨m, hm, h⟩ := bind_eq_ok.mp h
  cases h
  exact (within_write hw hm).trans (within_set (s := Registers.esp) hr _)

theorem within_pop (hr : 4 ∈ f.registers) (h : c.pop = .ok (x, c')) : Within f c c' := by
  obtain ⟨y, -, h⟩ := bind_eq_ok.mp h
  cases h
  exact within_set (s := Registers.esp) hr _

/-! ## Effects -/

/-- The effect of an instruction stays within the footprint of its operation. -/
theorem effect_within (h : c.effect i = .ok c') : Within (c.footprint i.operation) c c' := by
  obtain ⟨eip, opcode, length, operation⟩ := i
  -- one footprint for each operation: the registers it sets, the word it writes, the flags and the jump
  cases operation with
  | nop | breakpoint | finish =>
    cases h
    exact .refl _ _
  | moveImmediate dst value =>
    exact within_setWord (by simp [footprint]) h
  | move dst src =>
    obtain ⟨y, -, h⟩ := bind_eq_ok.mp h
    exact within_setWord (by simp [footprint]) h
  | load dst addr =>
    obtain ⟨y, -, h⟩ := bind_eq_ok.mp h
    exact within_setWord (by simp [footprint]) h
  | store src addr =>
    obtain ⟨y, -, h⟩ := bind_eq_ok.mp h
    obtain ⟨m, hm, h⟩ := bind_eq_ok.mp h
    cases h
    exact within_write rfl hm
  | push src =>
    obtain ⟨y, -, h⟩ := bind_eq_ok.mp h
    exact within_push (by simp [footprint]) rfl h
  | pop dst =>
    -- the pointer is set before the destination, and both are in the footprint
    obtain ⟨⟨y, c₁⟩, hpop, h⟩ := bind_eq_ok.mp h
    exact (within_pop (by simp [footprint]) hpop).trans (within_setWord (by simp [footprint]) h)
  | add dst value =>
    exact within_update (fun e a => e.add_agrees a value) (.inl (by simp [footprint])) h
  | sub dst value =>
    exact within_update (fun e a => e.sub_agrees a value) (.inl (by simp [footprint])) h
  | compare dst value =>
    -- the register is set too, but to what it held
    exact within_update (g := fun e a => (a, (e.sub a value).2)) (fun e a => e.sub_agrees a value)
      (.inr fun _ _ => rfl) h
  | inc dst =>
    exact within_update Eflags.inc_agrees (.inl (by simp [footprint])) h
  | dec dst =>
    exact within_update Eflags.dec_agrees (.inl (by simp [footprint])) h
  | call encoded =>
    -- the push first, then the transfer, which sets the instruction pointer alone
    obtain ⟨c₁, hpush, h⟩ := bind_eq_ok.mp h
    cases h
    exact (within_push (by simp [footprint]) rfl hpush).trans (within_transfer rfl _ _)
  | ret =>
    obtain ⟨⟨y, c₁⟩, hpop, h⟩ := bind_eq_ok.mp h
    cases h
    exact (within_pop (by simp [footprint]) hpop).trans (within_transfer rfl _ _)
  | jump condition encoded =>
    -- a jump is in the footprint just if it is taken
    cases h
    have hjumps : (c.footprint (.jump condition encoded)).jumps = c.holds condition := by
      cases condition <;> rfl
    by_cases htaken : c.holds condition = true
    · rw [if_pos htaken]
      exact within_transfer (hjumps.trans htaken) _ _
    · rw [if_neg htaken]
      exact .refl _ _

end Cpu

/-! ## Executing from memory -/

namespace I386Table

variable {c : Cpu} {eip : UInt32} {call : Call I386Table}

theorem exec_of_effect {i : Instruction} {c' : Cpu} (hdecode : decode c.memory eip = .ok (.ok i))
    (heffect : c.effect i = .ok c') :
    exec c eip = .ok ⟨{}, c'.printAssembly i.text, false, c.executeRecords i,
      .ok ⟨i.length, i.operation.trap?⟩⟩ :=
  bind_eq_ok.mpr ⟨_, hdecode,
    bind_eq_ok.mpr ⟨_, bind_eq_ok.mpr ⟨_, heffect, rfl⟩, rfl⟩⟩

/-- An instruction that is executed from memory changes nothing if it is at fault, and else it stays
within its footprint. -/
theorem exec_within (h : exec c eip = .ok call) :
    (∀ fault, call.result = .error fault → call.cpu = c) ∧
    ∀ completion, call.result = .ok completion →
      ∃ i, decode c.memory eip = .ok (.ok i) ∧ completion = ⟨i.length, i.operation.trap?⟩ ∧
        c.Within (c.footprint i.operation) call.cpu := by
  rcases exec_inv h with ⟨fault, -, hresult, hcpu⟩ | ⟨i, c', hdecode, heffect, hresult, hcpu⟩
  · refine ⟨fun _ _ => hcpu, fun completion h => ?_⟩
    cases hresult.symm.trans h
  · refine ⟨fun fault h => ?_, fun completion h => ?_⟩
    · cases hresult.symm.trans h
    cases hresult.symm.trans h
    rw [hcpu]
    -- the disassembly is in no footprint
    have hw := Cpu.effect_within heffect
    exact ⟨i, hdecode, rfl, hw.memory, hw.capacity, hw.general, hw.eflags, hw.eip⟩

/-- A call to the next instruction: it writes the word below the top of the stack. -/
theorem exec_within_call :
    let c : Cpu := ⟨Registers.initial.set Registers.esp .full 0x80,
      ⟨0x100, Store.empty.splice 0 [0xE8, 0, 0, 0, 0]⟩, .empty⟩
    ∃ call, exec c 0 = .ok call ∧ call.result = .ok ⟨5, none⟩ ∧
      c.Within { registers := [4], word := some 0x7C, jumps := true } call.cpu := by
  intro c
  have hdecode : decode c.memory 0 = .ok (.ok ⟨0, 0xE8, 5, .call 0⟩) :=
    (Decodes.instruction rfl (.intro (.word (by simp [wordCodes])) (.word 0)) (by decide +kernel)).decode_eq
      (by decide +kernel)
  have hfoot : c.footprint (.call 0) = { registers := [4], word := some 0x7C, jumps := true } := by
    have hesp : c.registers.get Registers.esp .full = 0x80 := Registers.get_set_self ..
    rw [Cpu.footprint, hesp]
    rfl
  have hregs : (Operation.call 0).RegistersExist := registersExist_of_decode hdecode
  obtain ⟨-, c', heffect, -⟩ | ⟨hout, -⟩ :=
    Cpu.effect_of_data (i := ⟨0, 0xE8, 5, .call 0⟩) (c := c) hregs rfl
  · have hcall := exec_of_effect hdecode heffect
    obtain ⟨i, hi, -, hw⟩ := (exec_within hcall).2 _ rfl
    cases hdecode.symm.trans hi
    exact ⟨_, hcall, rfl, hfoot ▸ hw⟩
  · exact absurd hout (by decide +kernel)

end I386Table

end Monitor386
