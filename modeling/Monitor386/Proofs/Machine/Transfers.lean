import Mathlib
import Monitor386.Machine.Run
import Monitor386.Proofs.Instruction.Footprint
import Monitor386.Proofs.Text.Fitting

/-!
# Where the program goes on

After an instruction the program goes on behind it, but for the transfers: they add a displacement that
is found in the code, and a return takes the word at the top of the stack. All addresses are modulo
2^32. `Cpu.successor` says so in numbers, from the state before the instruction.

* `decode_displacement`, `target_eq`: the displacement of a decoded transfer, and the address that it
  makes.
* `Cpu.effect_successor`: the effect of an instruction leaves the instruction pointer so that advancing it
  by the length of the instruction makes it the successor.
* `Machine.step_successor`: so does a step of the machine; the disassembly of a transfer shows its target.
-/

namespace Monitor386

variable {m : Memory} {c c' : Cpu} {i : Instruction} {eip x : UInt32} {width : Nat}

/-! ## Numbers in the code -/

/-- The number in `width` bytes of the memory, read in two's complement. -/
def Memory.signedNumber (m : Memory) (addr : UInt32) (width : Nat) : Int :=
  (m.row.number addr.toNat width : Int).bmod (256 ^ width)

theorem Memory.number_of_read {addr : UInt32} (hwidth : width ∈ [1, 2, 4])
    (h : m.read .program addr width = .ok x) : x.toNat = m.row.number addr.toNat width := by
  obtain ⟨hin, -⟩ | ⟨-, herror⟩ := m.read_cases .program addr width hwidth
  · obtain ⟨y, hy, hread, -⟩ := (accessible_of_fits hwidth hin).read
    cases h.symm.trans (hread .program)
    exact hy
  · cases h.symm.trans herror

/-- Number of bytes of the displacement of a transfer. The short jumps have one. -/
def displacementWidth (opcode : UInt8) : Nat :=
  if opcode ∈ [0xEB, 0x74, 0x75] then 1 else 4

/-- The displacement of a transfer as it is encoded. -/
def Operation.displacement? : Operation → Option UInt32
  | call x | jump _ x => some x
  | _ => none

/-- The displacement of a decoded transfer is what follows its opcode. -/
theorem decode_displacement (h : decode m eip = .ok (.ok i))
    (hx : i.operation.displacement? = some x) :
    i.eip = eip ∧ m.fetch (eip + 1) (displacementWidth i.opcode) = .ok x ∧
      (i.length = 2 ∧ displacementWidth i.opcode = 1 ∨
        i.length = 5 ∧ displacementWidth i.opcode = 4) := by
  obtain ⟨form, bs, hlisted, htakes, heip, hlength, hbs⟩ := decode_inv h
  refine ⟨heip, ?_⟩
  rw [hlength]
  clear h heip hlength
  obtain ⟨_, opcode, _, operation⟩ := i
  cases hlisted with
  | plain hmem | register _ hmem =>
    cases htakes
    fin_cases hmem <;> cases hx
  | byte hmem =>
    cases htakes with
    | byte b =>
      have hfetch := Memory.fetch_byte.mpr ⟨b, hbs, rfl⟩
      fin_cases hmem <;> cases hx <;> exact ⟨hfetch, .inl ⟨rfl, rfl⟩⟩
  | word hmem =>
    cases htakes with
    | word w =>
      have hfetch := Memory.fetch_word.mpr hbs
      fin_cases hmem <;> cases hx <;> exact ⟨hfetch, .inr ⟨rfl, rfl⟩⟩
  | moveImmediate | moveToLower | moveToUpper =>
    cases htakes
    cases hx

/-! ## Addresses -/

/-- Where the transfer goes that is at the instruction pointer: behind itself, and then on or back by
the displacement. -/
def Cpu.relativeTarget (c : Cpu) (i : Instruction) : Int :=
  (c.registers.eip.toNat + i.length.toNat +
    c.memory.signedNumber (c.registers.eip + 1) (displacementWidth i.opcode)) % 2 ^ 32

/-- The address behind an instruction that is at the instruction pointer. -/
def Cpu.behind (c : Cpu) (i : Instruction) : Int :=
  (c.registers.eip.toNat + i.length.toNat) % 2 ^ 32

/-- The address of the instruction that comes after the one at the instruction pointer. -/
def Cpu.successor (c : Cpu) (i : Instruction) : Int :=
  match i.operation with
  | .call _ | .jump .always _ => c.relativeTarget i
  | .jump .zero _ => if c.registers.eflags.get .zero then c.relativeTarget i else c.behind i
  | .jump .nonzero _ => if c.registers.eflags.get .zero then c.behind i else c.relativeTarget i
  | .ret => c.memory.row.number (c.registers.get Registers.esp .full).toNat 4
  | _ => c.behind i

theorem toNat_add_eq (a b : UInt32) : ((a + b).toNat : Int) = (a.toNat + b.toNat) % 2 ^ 32 := by
  rw [UInt32.toNat_add]
  norm_cast

/-- The displacement of a decoded transfer is the signed number behind its opcode. -/
theorem displacement_eq (h : decode m eip = .ok (.ok i)) (hx : i.operation.displacement? = some x) :
    ((i.displacement x).toNat : Int) =
      m.signedNumber (eip + 1) (displacementWidth i.opcode) % 2 ^ 32 := by
  obtain ⟨-, hfetch, hwidth⟩ := decode_displacement h hx
  unfold Instruction.displacement Memory.signedNumber
  rcases hwidth with ⟨hlength, hwidth⟩ | ⟨hlength, hwidth⟩
  · rw [hwidth] at hfetch ⊢
    have hnumber := Memory.number_of_read (by decide) hfetch
    have hbyte : x.toNat < 256 := hnumber ▸ m.row.number_lt _ 1
    rw [if_pos hlength, signExtendByte_eq hbyte, hnumber]
    rfl
  · rw [hwidth] at hfetch ⊢
    have hnumber := Memory.number_of_read (by decide) hfetch
    have hword : (m.row.number (eip + 1).toNat 4 : Int).bmod (256 ^ 4) % 2 ^ 32 =
        m.row.number (eip + 1).toNat 4 % 2 ^ 32 := Int.bmod_emod
    rw [if_neg (by rw [hlength]; decide), hword, ← hnumber]
    have hlt := x.toNat_lt
    omega

theorem target_eq (h : decode c.memory c.registers.eip = .ok (.ok i))
    (hx : i.operation.displacement? = some x) :
    ((i.target x).toNat : Int) = c.relativeTarget i := by
  unfold Instruction.target Instruction.next Cpu.relativeTarget
  rw [toNat_add_eq, toNat_add_eq, (decode_displacement h hx).1, displacement_eq h hx, ← Int.add_emod]

/-! ## Effects -/

/-- A transfer is advanced by the length of its instruction to where it goes. -/
theorem Cpu.transfer_advance (c : Cpu) (i : Instruction) (target : UInt32) :
    (c.transfer i target).registers.eip + i.length = target := by
  show target - i.length + i.length = target
  exact sub_add_cancel target i.length

/-- Advancing the instruction pointer after the effect of an instruction makes it the successor. -/
theorem Cpu.effect_successor (hdecode : decode c.memory c.registers.eip = .ok (.ok i))
    (h : c.effect i = .ok c') : ((c'.registers.eip + i.length).toNat : Int) = c.successor i := by
  have hstays (hjumps : (c.footprint i.operation).jumps = false) :
      ((c'.registers.eip + i.length).toNat : Int) = c.behind i := by
    rw [(Cpu.effect_within h).eip hjumps, toNat_add_eq, Cpu.behind]
  have htarget {x : UInt32} (hx : i.operation.displacement? = some x) := target_eq hdecode hx
  obtain ⟨eip, opcode, length, operation⟩ := i
  cases operation with
  | call x =>
    obtain ⟨c₁, -, h⟩ := bind_eq_ok.mp h
    cases h
    rw [Cpu.transfer_advance]
    exact htarget rfl
  | ret =>
    obtain ⟨⟨x, c₁⟩, hpop, h⟩ := bind_eq_ok.mp h
    obtain ⟨y, hread, hpop⟩ := bind_eq_ok.mp hpop
    cases hpop
    cases h
    rw [Cpu.transfer_advance]
    exact congrArg _ (Memory.number_of_read (by decide) hread)
  | jump condition x =>
    -- a jump that is taken goes to its target, and another one stays in place
    have hgoes (htaken : c.holds condition = true) :
        ((c'.registers.eip + length).toNat : Int) =
          c.relativeTarget ⟨eip, opcode, length, .jump condition x⟩ := by
      cases h
      rw [if_pos htaken, Cpu.transfer_advance]
      exact htarget rfl
    cases condition with
    | always => exact hgoes rfl
    | zero =>
      unfold Cpu.successor
      cases hflag : c.registers.eflags.get .zero with
      | true => exact hgoes hflag
      | false => exact hstays hflag
    | nonzero =>
      unfold Cpu.successor
      cases hflag : c.registers.eflags.get .zero with
      | true => exact hstays (by simp [Cpu.footprint, hflag])
      | false => exact hgoes (by simp [Cpu.holds, hflag])
  | _ => exact hstays rfl

/-- An effect returns if its word of data, if there is one, is inside the memory. -/
theorem Cpu.effect_returns (hregs : i.operation.RegistersExist)
    (hdata : ∀ addr, c.dataAddress? i.operation = some addr →
      addr.toNat + 4 ≤ c.memory.capacity) : ∃ c', c.effect i = .ok c' := by
  cases haddr : c.dataAddress? i.operation with
  | none =>
    obtain ⟨c', h, -⟩ := Cpu.effect_of_no_data hregs haddr
    exact ⟨c', h⟩
  | some addr =>
    obtain ⟨-, c', h, -⟩ | ⟨hout, -⟩ := Cpu.effect_of_data hregs haddr
    · exact ⟨c', h⟩
    · exact absurd (hdata addr haddr) hout.not_ge

/-! ## Disassembly -/

/-- The name of a transfer that shows its target. -/
def Operation.transferName? : Operation → Option String
  | call _ => some "call"
  | jump .always _ => some "jmp"
  | jump .zero _ => some "je"
  | jump .nonzero _ => some "jne"
  | _ => none

theorem text_transfer {name : String} (h : i.operation.transferName? = some name) :
    ∃ x, i.operation.displacement? = some x ∧
      i.text.toList = name.toList ++ ' ' :: Nat.toDigits 16 (i.target x).toNat := by
  obtain ⟨eip, opcode, length, operation⟩ := i
  cases operation with
  | call x =>
    cases h
    exact ⟨x, rfl, by simp [Instruction.text, Text.hex]⟩
  | jump condition x =>
    refine ⟨x, rfl, ?_⟩
    cases condition <;> cases h <;> simp [Instruction.text, Instruction.conditionText, Text.hex]
  | _ => cases h

/-- The name of a transfer and the numeral of a word fit into the disassembly. -/
theorem chars_printAssembly {name text : String} (c : Cpu) (x : UInt32)
    (hname : i.operation.transferName? = some name)
    (htext : text.toList = name.toList ++ ' ' :: Nat.toDigits 16 x.toNat) :
    (c.printAssembly text).assembly.chars = text.toList := by
  have hdigits : (Nat.toDigits 16 x.toNat).length ≤ 8 :=
    Nat.toDigits_length 16 x.toNat 8 (by decide) x.toNat_lt
  have hlength : name.toList.length ≤ 4 := by
    unfold Operation.transferName? at hname
    split at hname <;> cases hname <;> decide
  have hfits : text.toList.length ≤ 13 := by
    rw [htext, List.length_append, List.length_cons]
    omega
  unfold Cpu.printAssembly
  apply Text.chars_fill_of_length
  unfold assemblyCapacity
  omega

/-! ## Steps -/

/-- Executes an instruction and advances the instruction pointer by its length, as a step does. -/
def Cpu.complete (c : Cpu) (i : Instruction) : Except Abort Cpu := do
  let (c, _) ← c.execute i
  pure (c.goto (c.registers.eip + i.length))

theorem Cpu.execute_of_effect (h : c.effect i = .ok c') :
    c.execute i = .ok (c'.printAssembly i.text, i.operation.trap?) :=
  bind_eq_ok.mpr ⟨c', h, rfl⟩

theorem Cpu.complete_of_effect (h : c.effect i = .ok c') :
    c.complete i = .ok ((c'.printAssembly i.text).goto (c'.registers.eip + i.length)) :=
  bind_eq_ok.mpr ⟨_, Cpu.execute_of_effect h, rfl⟩

namespace Machine

variable {m : Machine I386Table}

/-- The processor after a step is that after the instruction. -/
theorem step_of_complete (hdecode : decode m.cpu.memory m.cpu.registers.eip = .ok (.ok i))
    (h : m.cpu.complete i = .ok c') :
    ∃ s, m.step = .ok s ∧ s.result = .ok ⟨i.length, i.operation.trap?⟩ ∧ s.machine.cpu = c' := by
  obtain ⟨_, hexecute, h⟩ := bind_eq_ok.mp h
  obtain ⟨c₁, heffect, hexecute⟩ := bind_eq_ok.mp hexecute
  cases hexecute
  cases h
  exact ⟨_, bind_eq_ok.mpr ⟨_, I386Table.exec_of_effect hdecode heffect, rfl⟩, rfl, rfl⟩

/-- A step of an instruction that can be decoded, and whose word of data is inside the memory, goes on
at its successor. A transfer that shows its target shows this address, in lower case, whether it goes
there or not. -/
theorem step_successor (m : Machine I386Table)
    (hdecode : decode m.cpu.memory m.cpu.registers.eip = .ok (.ok i))
    (hdata : ∀ addr, m.cpu.dataAddress? i.operation = some addr →
      addr.toNat + 4 ≤ m.cpu.memory.capacity) :
    ∃ s, m.step = .ok s ∧ s.result = .ok ⟨i.length, i.operation.trap?⟩ ∧
      (s.machine.cpu.registers.eip.toNat : Int) = m.cpu.successor i ∧
      ∀ name, i.operation.transferName? = some name →
        s.machine.cpu.assembly.chars =
          name.toList ++ ' ' :: Nat.toDigits 16 (m.cpu.relativeTarget i).toNat := by
  obtain ⟨c', heffect⟩ := Cpu.effect_returns (registersExist_of_decode hdecode) hdata
  obtain ⟨s, hs, hresult, hcpu⟩ := step_of_complete hdecode (Cpu.complete_of_effect heffect)
  refine ⟨s, hs, hresult, ?_, fun name hname => ?_⟩
  · rw [hcpu]
    exact Cpu.effect_successor hdecode heffect
  · obtain ⟨x, hx, htext⟩ := text_transfer hname
    rw [hcpu, ← target_eq hdecode hx, Int.toNat_natCast, ← htext]
    exact chars_printAssembly c' _ hname htext

/-- A short jump back over the start of the memory: the address behind it is 2, and two bytes before
address 0 is the end of the addresses. -/
theorem step_successor_wrap :
    let m : Machine I386Table :=
      { cpu := ⟨{ Registers.initial with eip := 0 }, ⟨4, Store.empty.splice 0 [0x75, 0xFC]⟩, .empty⟩,
        table := {} }
    ∃ s, m.step = .ok s ∧ s.machine.cpu.registers.eip = 0xFFFFFFFE ∧
      s.machine.cpu.assembly.chars = "jne fffffffe".toList := by
  intro m
  have hdecode : decode m.cpu.memory m.cpu.registers.eip = .ok (.ok ⟨0, 0x75, 2, .jump .nonzero 0xFC⟩) :=
    (Decodes.instruction rfl (.intro (.byte (by simp [byteCodes])) (.byte 0xFC)) (by decide +kernel)).decode_eq
      (by decide +kernel)
  obtain ⟨s, hs, -, heip, htext⟩ := m.step_successor hdecode (fun addr h => by cases h)
  refine ⟨s, hs, ?_, (htext "jne" rfl).trans (by decide +kernel)⟩
  have hsuccessor : m.cpu.successor ⟨0, 0x75, 2, .jump .nonzero 0xFC⟩ = 0xFFFFFFFE := by
    decide +kernel
  rw [hsuccessor] at heip
  rw [← UInt32.toNat_inj]
  exact_mod_cast heip

end Machine

end Monitor386
