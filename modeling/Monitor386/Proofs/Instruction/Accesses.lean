import Mathlib
import Monitor386.Table.Basic
import Monitor386.Proofs.Failure
import Monitor386.Proofs.Instruction.Decoding
import Monitor386.Proofs.Memory.Row

/-!
# The memory that an instruction touches

An instruction touches its opcode, the bytes after it if there are any, and at most one word of data:
`Accesses`. It aborts just if one of these accesses leaves the memory.

* `decode_inv`: what the memory holds where an instruction was decoded.
* `registersExist_of_decode`: a decoded instruction names registers that exist.
* `exists_fetches_of_decode`, `Fetches.decode_eq`: decoding aborts where a fetch leaves the memory.
* `Cpu.effect_of_no_data`, `Cpu.effect_of_data`: an effect returns, or its word of data is outside the
  memory.
* `I386Table.exec_eq_error_iff`: when an instruction aborts, and at which address.
* `I386Table.exec_inv`: what an instruction that returns does.
* `I386Table.exec_capacity`: the size of the memory stays.
-/

namespace Monitor386

/-! ## Registers -/

namespace Operation

/-- The general registers that an operation names. -/
def registers : Operation → List Nat
  | moveImmediate dst _ | load dst _ | pop dst | add dst _ | sub dst _ | compare dst _ | inc dst
  | dec dst => [dst]
  | store src _ | push src => [src]
  | move dst src => [dst, src]
  | nop | call _ | ret | jump _ _ | breakpoint | finish => []

/-- There are eight general registers. -/
def RegistersExist (o : Operation) : Prop :=
  ∀ r ∈ o.registers, r < 8

end Operation

variable {m : Memory} {c : Cpu} {eip addr : UInt32} {opcode : UInt8} {form : Form}
  {operation : Operation} {i : Instruction} {a : Abort} {index width : Nat}

/-- The operations that a form makes name registers that exist, if the form is in the table. -/
theorem Listed.registersExist {bs : List UInt8} (h : Listed opcode form)
    (htakes : form.Takes bs operation) : operation.RegistersExist := by
  cases h with
  | plain h | byte h | word h =>
    cases htakes
    fin_cases h <;> simp [Operation.RegistersExist, Operation.registers]
  | register r h =>
    -- the register is the low bits of the opcode
    cases htakes
    fin_cases h <;> simp [Operation.RegistersExist, Operation.registers]
  | moveImmediate | moveToLower | moveToUpper =>
    cases htakes
    simp [Operation.RegistersExist, Operation.registers]

theorem Registers.slot_eq (h : index < 8) : slot index = .ok ⟨index, h⟩ :=
  dif_pos h

theorem Registers.word_eq (r : Registers) (h : index < 8) :
    r.word index = .ok (r.get ⟨index, h⟩ .full) := by
  rw [word, slot_eq h]
  rfl

theorem Registers.setWord_eq (r : Registers) (h : index < 8) (x : UInt32) :
    r.setWord index x = .ok (r.set ⟨index, h⟩ .full x) := by
  rw [setWord, slot_eq h]
  rfl

theorem Cpu.setWord_memory (c : Cpu) (h : index < 8) (x : UInt32) :
    ∃ c', c.setWord index x = .ok c' ∧ c'.memory = c.memory := by
  rw [setWord, Registers.setWord_eq _ h]
  exact ⟨_, rfl, rfl⟩

theorem Cpu.update_memory (c : Cpu) (h : index < 8) (f : Eflags → UInt32 → UInt32 × Eflags) :
    ∃ c', c.update index f = .ok c' ∧ c'.memory = c.memory := by
  simp only [update, Registers.word_eq _ h, Registers.setWord_eq _ h, bind, Except.bind]
  exact ⟨_, rfl, rfl⟩

/-! ## Decoding -/

/-- Number of bytes that are fetched after the opcode, if any. -/
def Form.operandWidth? : Form → Option Nat
  | bare _ => none
  | byte _ | registers _ => some 1
  | word _ => some 4

/-- The fetches of decoding, each after those before it succeeded. -/
inductive Fetches (m : Memory) (eip : UInt32) : UInt32 → Nat → Prop where
  | opcode : Fetches m eip eip 1
  | operand {x : UInt32} {form : Form} {width : Nat} : m.fetch eip 1 = .ok x →
      form? x.toUInt8 = some form → form.operandWidth? = some width →
      Fetches m eip (eip + 1) width

theorem Fetches.width_mem (h : Fetches m eip addr width) : width ∈ [1, 2, 4] := by
  cases h with
  | opcode => decide
  | @operand x form width hx hform hwidth =>
    cases form <;> cases hwidth <;> decide

/-- Once the opcode is there, decoding depends on the fetch after it alone. -/
theorem decode_operand {x : UInt32} (hx : m.fetch eip 1 = .ok x)
    (hform : form? x.toUInt8 = some form) (hwidth : form.operandWidth? = some width) :
    ∃ f, decode m eip = (m.fetch (eip + 1) width).map f := by
  simp only [decode_eq_byForm, decodeByForm, hx, hform, bind, Except.bind]
  cases form with
  | bare => cases hwidth
  | byte operation =>
    cases hwidth
    refine ⟨fun y => .ok ⟨eip, x.toUInt8, 2, operation y⟩, ?_⟩
    cases m.fetch (eip + 1) 1 <;> rfl
  | word operation =>
    cases hwidth
    refine ⟨fun y => .ok ⟨eip, x.toUInt8, 5, operation y⟩, ?_⟩
    cases m.fetch (eip + 1) 4 <;> rfl
  | registers operation =>
    cases hwidth
    refine ⟨fun y =>
      if y.toUInt8 >>> 6 = 0b11 then
        .ok ⟨eip, x.toUInt8, 2, operation ((y.toUInt8 >>> 3) &&& 0x7).toNat (y.toUInt8 &&& 0x7).toNat⟩
      else .error (.unsupportedOperand eip y.toUInt8), ?_⟩
    cases m.fetch (eip + 1) 1 with
    | error a => rfl
    | ok y =>
      simp only [Except.map]
      split <;> rfl

/-- A fetch that leaves the memory is where decoding aborts. -/
theorem Fetches.decode_eq (h : Fetches m eip addr width) (hout : m.capacity < addr.toNat + width) :
    decode m eip = .error (.outOfBound addr) := by
  have hfetch : m.fetch addr width = .error (.outOfBound addr) := by
    obtain ⟨hin, -⟩ | ⟨-, hread⟩ := m.read_cases .program addr width h.width_mem
    · exact absurd hin hout.not_ge
    · exact hread
  cases h with
  | opcode =>
    rw [decode_eq_byForm, decodeByForm, hfetch]
    rfl
  | operand hx hform hwidth =>
    obtain ⟨f, hf⟩ := decode_operand hx hform hwidth
    rw [hf, hfetch]
    rfl

/-- Decoding aborts only where a fetch leaves the memory. -/
theorem exists_fetches_of_decode (h : decode m eip = .error a) :
    ∃ addr width, Fetches m eip addr width ∧ m.capacity < addr.toNat + width ∧
      a = .outOfBound addr := by
  obtain ⟨-, x, hx⟩ | ⟨hout, hx⟩ := m.read_cases .program eip 1 (by decide)
  -- the opcode is there, so the abort is at what follows it
  · have hx : m.fetch eip 1 = .ok x := hx
    cases hform : form? x.toUInt8 with
    | none =>
      simp only [decode_eq_byForm, decodeByForm, hx, hform, bind, Except.bind] at h
      cases h
    | some form =>
      cases hwidth : form.operandWidth? with
      | none =>
        cases form <;> cases hwidth
        simp only [decode_eq_byForm, decodeByForm, hx, hform, bind, Except.bind] at h
        cases h
      | some width =>
        have hfetch : Fetches m eip (eip + 1) width := .operand hx hform hwidth
        obtain ⟨f, hf⟩ := decode_operand hx hform hwidth
        obtain ⟨-, y, hy⟩ | ⟨hout, -⟩ := m.read_cases .program (eip + 1) width hfetch.width_mem
        · rw [hf, Memory.fetch, hy] at h
          cases h
        · refine ⟨_, width, hfetch, hout, ?_⟩
          rw [hfetch.decode_eq hout] at h
          cases h
          rfl
  · rw [Fetches.opcode.decode_eq hout] at h
    cases h
    exact ⟨eip, 1, .opcode, hout, rfl⟩

/-- A decoded instruction is in the table, and its operands stand after its opcode. This holds in a
memory of any size. -/
theorem decode_inv (h : decode m eip = .ok (.ok i)) :
    ∃ form bs, Listed i.opcode form ∧ form.Takes bs i.operation ∧ i.eip = eip ∧
      i.length = form.length ∧ m.Holds (eip + 1) bs := by
  cases finds_of_decode h with
  | instruction hform htakes hop hbs =>
    exact ⟨_, _, form?_eq_some.mp hform, htakes, rfl, rfl, hbs⟩

theorem registersExist_of_decode (h : decode m eip = .ok (.ok i)) : i.operation.RegistersExist := by
  obtain ⟨form, bs, hlisted, htakes, -⟩ := decode_inv h
  exact hlisted.registersExist htakes

/-! ## Effects -/

/-- Where the word of data is that an operation reads or writes, if there is one. -/
def Cpu.dataAddress? (c : Cpu) : Operation → Option UInt32
  | .load _ addr | .store _ addr => some addr
  | .push _ | .call _ => some (c.registers.get Registers.esp .full - 4)
  | .pop _ | .ret => some (c.registers.get Registers.esp .full)
  | _ => none

namespace Cpu

theorem push_cases (c : Cpu) (x : UInt32) :
    let top := c.registers.get Registers.esp .full - 4
    top.toNat + 4 ≤ c.memory.capacity ∧
      (∃ c', c.push x = .ok c' ∧ c'.memory.capacity = c.memory.capacity) ∨
    c.memory.capacity < top.toNat + 4 ∧ c.push x = .error (.outOfBound top) := by
  intro top
  obtain ⟨hin, m', hwrite, hcap⟩ | ⟨hout, hwrite⟩ :=
    c.memory.write_cases .program top 4 x (by decide)
  · refine .inl ⟨hin, ⟨c.registers.set Registers.esp .full top, m', c.assembly⟩, ?_, hcap⟩
    rw [push, hwrite]
    rfl
  · refine .inr ⟨hout, ?_⟩
    rw [push, hwrite]
    rfl

theorem pop_cases (c : Cpu) :
    let top := c.registers.get Registers.esp .full
    top.toNat + 4 ≤ c.memory.capacity ∧
      (∃ x c', c.pop = .ok (x, c') ∧ c'.memory = c.memory) ∨
    c.memory.capacity < top.toNat + 4 ∧ c.pop = .error (.outOfBound top) := by
  intro top
  obtain ⟨hin, x, hread⟩ | ⟨hout, hread⟩ := c.memory.read_cases .program top 4 (by decide)
  · refine .inl ⟨hin, x, { c with registers := c.registers.set Registers.esp .full (top + 4) }, ?_, rfl⟩
    rw [pop, hread]
    rfl
  · refine .inr ⟨hout, ?_⟩
    rw [pop, hread]
    rfl

/-- An effect without a word of data returns, and leaves the memory alone. -/
theorem effect_of_no_data (hregs : i.operation.RegistersExist)
    (hdata : c.dataAddress? i.operation = none) :
    ∃ c', c.effect i = .ok c' ∧ c'.memory = c.memory := by
  obtain ⟨eip, opcode, length, operation⟩ := i
  cases operation with
  | nop | breakpoint | finish => exact ⟨c, rfl, rfl⟩
  | jump condition encoded =>
    refine ⟨_, rfl, ?_⟩
    split <;> rfl
  | moveImmediate dst value => exact c.setWord_memory (hregs dst (.head _)) value
  | move dst src =>
    have hsrc : src < 8 := hregs src (.tail _ (.head _))
    simp only [effect, Registers.word_eq _ hsrc]
    exact c.setWord_memory (hregs dst (.head _)) _
  | add dst value | sub dst value | compare dst value | inc dst | dec dst =>
    simp only [effect]
    exact c.update_memory (hregs dst (.head _)) _
  | load | store | push | pop | call | ret => cases hdata

/-- An effect with a word of data returns, or this word is outside the memory. -/
theorem effect_of_data (hregs : i.operation.RegistersExist)
    (hdata : c.dataAddress? i.operation = some addr) :
    addr.toNat + 4 ≤ c.memory.capacity ∧
      (∃ c', c.effect i = .ok c' ∧ c'.memory.capacity = c.memory.capacity) ∨
    c.memory.capacity < addr.toNat + 4 ∧ c.effect i = .error (.outOfBound addr) := by
  obtain ⟨eip, opcode, length, operation⟩ := i
  -- the word of data is the only access that can fail, since the registers exist
  cases operation with
  | load dst addr =>
    cases hdata
    obtain ⟨hin, x, hread⟩ | ⟨hout, hread⟩ := c.memory.read_cases .program addr 4 (by decide)
    · obtain ⟨c', hset, hmem⟩ := c.setWord_memory (hregs dst (.head _)) x
      exact .inl ⟨hin, c', bind_eq_ok.mpr ⟨x, hread, hset⟩, congrArg Memory.capacity hmem⟩
    · exact .inr ⟨hout, bind_eq_error.mpr (.inl hread)⟩
  | store src addr =>
    -- the register is read before the word is written
    cases hdata
    have hword := c.registers.word_eq (hregs src (.head _))
    obtain ⟨hin, m', hwrite, hcap⟩ | ⟨hout, hwrite⟩ :=
      c.memory.write_cases .program addr 4 (c.registers.get ⟨src, _⟩ .full) (by decide)
    · exact .inl ⟨hin, { c with memory := m' },
        bind_eq_ok.mpr ⟨_, hword, bind_eq_ok.mpr ⟨m', hwrite, rfl⟩⟩, hcap⟩
    · exact .inr ⟨hout, bind_eq_error.mpr (.inr ⟨_, hword, bind_eq_error.mpr (.inl hwrite)⟩)⟩
  | push src =>
    cases hdata
    simp only [effect, Registers.word_eq _ (hregs src (.head _))]
    exact c.push_cases _
  | pop dst =>
    -- the destination is set after the word has been read, and no memory is changed
    cases hdata
    obtain ⟨hin, x, c₁, hpop, hmem⟩ | ⟨hout, hpop⟩ := c.pop_cases
    · obtain ⟨c', hset, hmem'⟩ := c₁.setWord_memory (hregs dst (.head _)) x
      exact .inl ⟨hin, c', bind_eq_ok.mpr ⟨_, hpop, hset⟩,
        congrArg Memory.capacity (hmem'.trans hmem)⟩
    · exact .inr ⟨hout, bind_eq_error.mpr (.inl hpop)⟩
  | call encoded =>
    cases hdata
    obtain ⟨hin, c', hpush, hcap⟩ | ⟨hout, hpush⟩ :=
      c.push_cases (Instruction.next ⟨eip, opcode, length, .call encoded⟩)
    · exact .inl ⟨hin, _, bind_eq_ok.mpr ⟨c', hpush, rfl⟩, hcap⟩
    · exact .inr ⟨hout, bind_eq_error.mpr (.inl hpush)⟩
  | ret =>
    cases hdata
    obtain ⟨hin, x, c', hpop, hmem⟩ | ⟨hout, hpop⟩ := c.pop_cases
    · exact .inl ⟨hin, _, bind_eq_ok.mpr ⟨_, hpop, rfl⟩, congrArg Memory.capacity hmem⟩
    · exact .inr ⟨hout, bind_eq_error.mpr (.inl hpop)⟩
  | _ => cases hdata

theorem effect_capacity {c' : Cpu} (hregs : i.operation.RegistersExist)
    (h : c.effect i = .ok c') : c'.memory.capacity = c.memory.capacity := by
  cases hdata : c.dataAddress? i.operation with
  | none =>
    obtain ⟨c₁, hc₁, hmem⟩ := effect_of_no_data hregs hdata
    cases hc₁.symm.trans h
    exact congrArg Memory.capacity hmem
  | some addr =>
    obtain ⟨-, c₁, hc₁, hcap⟩ | ⟨-, herror⟩ := effect_of_data hregs hdata
    · cases hc₁.symm.trans h
      exact hcap
    · cases herror.symm.trans h

theorem exists_data_of_effect (hregs : i.operation.RegistersExist) (h : c.effect i = .error a) :
    ∃ addr, c.dataAddress? i.operation = some addr ∧ c.memory.capacity < addr.toNat + 4 ∧
      a = .outOfBound addr := by
  cases hdata : c.dataAddress? i.operation with
  | none =>
    obtain ⟨c₁, hc₁, -⟩ := effect_of_no_data hregs hdata
    cases hc₁.symm.trans h
  | some addr =>
    obtain ⟨-, c₁, hc₁, -⟩ | ⟨hout, herror⟩ := effect_of_data hregs hdata
    · cases hc₁.symm.trans h
    · cases herror.symm.trans h
      exact ⟨addr, rfl, hout, rfl⟩

end Cpu

/-! ## Instructions -/

/-- The accesses of the instruction at an address, each after those before it succeeded. -/
inductive Accesses (c : Cpu) (eip : UInt32) : UInt32 → Nat → Prop where
  | fetch {addr : UInt32} {width : Nat} : Fetches c.memory eip addr width → Accesses c eip addr width
  | data {i : Instruction} {addr : UInt32} : decode c.memory eip = .ok (.ok i) →
      c.dataAddress? i.operation = some addr → Accesses c eip addr 4

namespace I386Table

/-- An instruction aborts just if one of its accesses leaves the memory. -/
theorem exec_eq_error_iff :
    exec c eip = .error a ↔ ∃ addr width, Accesses c eip addr width ∧
      c.memory.capacity < addr.toNat + width ∧ a = .outOfBound addr := by
  constructor
  · -- only decoding and the effect can abort
    intro h
    obtain hdecode | ⟨r, hdecode, h⟩ := bind_eq_error.mp h
    · obtain ⟨addr, width, hfetch, hout, rfl⟩ := exists_fetches_of_decode hdecode
      exact ⟨addr, width, .fetch hfetch, hout, rfl⟩
    cases r with
    | error fault => cases h
    | ok i =>
      obtain hexecute | ⟨_, -, h⟩ := bind_eq_error.mp h
      · obtain heffect | ⟨_, -, h⟩ := bind_eq_error.mp hexecute
        · obtain ⟨addr, hdata, hout, rfl⟩ :=
            Cpu.exists_data_of_effect (registersExist_of_decode hdecode) heffect
          exact ⟨addr, 4, .data hdecode hdata, hout, rfl⟩
        · cases h
      · cases h
  · rintro ⟨addr, width, haccess, hout, rfl⟩
    cases haccess with
    | fetch hfetch => exact bind_eq_error.mpr (.inl (hfetch.decode_eq hout))
    | data hdecode hdata =>
      obtain ⟨hin, -⟩ | ⟨-, herror⟩ := Cpu.effect_of_data (registersExist_of_decode hdecode) hdata
      · exact absurd hin hout.not_ge
      · exact bind_eq_error.mpr (.inr ⟨_, hdecode,
          bind_eq_error.mpr (.inl (bind_eq_error.mpr (.inl herror)))⟩)

/-- What a call of the table does that returns: nothing where the instruction is at fault, and else the
effect of the instruction, with its disassembly. -/
theorem exec_inv {call : Call I386Table} (h : exec c eip = .ok call) :
    (∃ fault, decode c.memory eip = .ok (.error fault) ∧ call.result = .error fault ∧
      call.cpu = c) ∨
    ∃ i c', decode c.memory eip = .ok (.ok i) ∧ c.effect i = .ok c' ∧
      call.result = .ok ⟨i.length, i.operation.trap?⟩ ∧ call.cpu = c'.printAssembly i.text := by
  obtain ⟨r, hdecode, h⟩ := bind_eq_ok.mp h
  cases r with
  | error fault =>
    cases h
    exact .inl ⟨fault, hdecode, rfl, rfl⟩
  | ok i =>
    obtain ⟨⟨c₁, trap⟩, hexecute, h⟩ := bind_eq_ok.mp h
    obtain ⟨c', heffect, hexecute⟩ := bind_eq_ok.mp hexecute
    cases hexecute
    cases h
    exact .inr ⟨i, c', hdecode, heffect, rfl, rfl⟩

theorem exec_capacity {call : Call I386Table} (h : exec c eip = .ok call) :
    call.cpu.memory.capacity = c.memory.capacity := by
  rcases exec_inv h with ⟨_, -, -, hcpu⟩ | ⟨i, c', hdecode, heffect, -, hcpu⟩
  · rw [hcpu]
  · have hcap : c'.memory.capacity = c.memory.capacity :=
      Cpu.effect_capacity (registersExist_of_decode hdecode) heffect
    rw [hcpu]
    exact hcap

end I386Table

end Monitor386
