import Mathlib
import Monitor386.Instruction.Encoding
import Monitor386.Proofs.Failure

/-!
# Forms of instructions

The decoder treats every opcode by itself and fills in the places of a record. There are few ways to do it:
`form?` gives for each opcode what follows it and the operation that this makes. An operation has the
operands that it uses and no places for others; `Instruction.flat` puts zeros there.

* `FlatInstruction.flat_instruction_iff`: the records that are read back from the operation are those whose
  places without use are zero.
* `decodeFlat_eq_byForm`, `decode_eq_byForm`: the decoder reads an instruction by the form of its opcode,
  and leaves the other places at zero.
-/

namespace Monitor386

/-! ## Places -/

/-- The record of an instruction: each operand in its place, and zeros elsewhere. -/
def Instruction.flat (i : Instruction) : FlatInstruction :=
  let bare : FlatInstruction := { i with mnemonic := i.operation.mnemonic }
  match i.operation with
  | .moveImmediate dst imm | .load dst imm | .add dst imm | .sub dst imm | .compare dst imm =>
    { bare with dst, imm }
  | .move dst src => { bare with dst, src }
  | .store src imm => { bare with src, imm }
  | .push src => { bare with src }
  | .pop dst | .inc dst | .dec dst => { bare with dst }
  | .call imm | .jump _ imm => { bare with imm }
  | .nop | .ret | .breakpoint | .finish => bare

namespace Mnemonic

/-- True of the instructions that write a register of their own. -/
def usesDst : Mnemonic → Bool
  | moveImmediate | move | load | pop | add | sub | compare | inc | dec => true
  | _ => false

/-- True of the instructions that name a register to read. -/
def usesSrc : Mnemonic → Bool
  | move | store | push => true
  | _ => false

/-- True of the instructions with a value, an address or a displacement in their code. -/
def usesImm : Mnemonic → Bool
  | moveImmediate | load | store | add | sub | compare | call | jump _ => true
  | _ => false

end Mnemonic

namespace FlatInstruction

/-- The places that the mnemonic has no use for are zero. -/
structure Clear (f : FlatInstruction) : Prop where
  dst : f.mnemonic.usesDst = false → f.dst = 0
  src : f.mnemonic.usesSrc = false → f.src = 0
  imm : f.mnemonic.usesImm = false → f.imm = 0

end FlatInstruction

theorem Instruction.instruction_flat (i : Instruction) : i.flat.instruction = i := by
  obtain ⟨eip, opcode, length, operation⟩ := i
  cases operation <;> rfl

theorem Instruction.flat_clear (i : Instruction) : i.flat.Clear := by
  obtain ⟨eip, opcode, length, operation⟩ := i
  cases operation <;> constructor <;> first | exact fun _ => rfl | exact nofun

/-- What is lost by reading the operation is what is in the places without use. -/
theorem FlatInstruction.flat_instruction_iff {f : FlatInstruction} :
    f.instruction.flat = f ↔ f.Clear := by
  constructor
  · intro h
    rw [← h]
    exact f.instruction.flat_clear
  · intro h
    obtain ⟨eip, opcode, mnemonic, length, dst, src, imm⟩ := f
    obtain ⟨hdst, hsrc, himm⟩ := h
    cases mnemonic <;>
      simp_all [instruction, operation, Instruction.flat, Operation.mnemonic,
        Mnemonic.usesDst, Mnemonic.usesSrc, Mnemonic.usesImm]

/-! ## Forms -/

/-- What follows an opcode, and the operation that it makes with it. -/
inductive Form where
  /-- Nothing follows. -/
  | bare (operation : Operation)
  /-- A byte follows. -/
  | byte (operation : UInt32 → Operation)
  /-- A word follows, the lowest byte first. -/
  | word (operation : UInt32 → Operation)
  /-- A byte follows whose two top bits are set; its two lower groups of three bits, the upper
  one first, are the operands. -/
  | registers (operation : Nat → Nat → Operation)

/-- Number of bytes of an instruction of this form. -/
def Form.length : Form → UInt32
  | bare _ => 1
  | byte _ => 2
  | word _ => 5
  | registers _ => 2

/-- The form of an opcode. Some opcodes hold a register in their three low bits. -/
def form? (opcode : UInt8) : Option Form :=
  let r := opcode.toNat % 8
  match opcode.toNat / 8 with
  | 0x08 => some (.bare (.inc r))
  | 0x09 => some (.bare (.dec r))
  | 0x0A => some (.bare (.push r))
  | 0x0B => some (.bare (.pop r))
  | 0x17 => some (.word (.moveImmediate r))
  | _ =>
    match opcode.toNat with
    | 0x05 => some (.word (.add 0))
    | 0x2D => some (.word (.sub 0))
    | 0x3D => some (.word (.compare 0))
    | 0x74 => some (.byte (.jump .zero))
    | 0x75 => some (.byte (.jump .nonzero))
    | 0x89 => some (.registers fun reg rm => .move rm reg)
    | 0x8B => some (.registers fun reg rm => .move reg rm)
    | 0x90 => some (.bare .nop)
    | 0xA1 => some (.word (.load 0))
    | 0xA3 => some (.word (.store 0))
    | 0xC3 => some (.bare .ret)
    | 0xCC => some (.bare .breakpoint)
    | 0xD6 => some (.bare .finish)
    | 0xE8 => some (.word .call)
    | 0xE9 => some (.word (.jump .always))
    | 0xEB => some (.byte (.jump .always))
    | _ => none

/-- Reads the instruction at an address by the form of its opcode. -/
def decodeByForm (m : Memory) (eip : UInt32) : Except Abort (Except Fault Instruction) := do
  let opcode := (← m.fetch eip 1).toUInt8
  match form? opcode with
  | none => pure (.error (.invalidOpcode eip opcode))
  | some form =>
    let done (operation : Operation) : Except Fault Instruction :=
      .ok ⟨eip, opcode, form.length, operation⟩
    match form with
    | .bare operation => pure (done operation)
    | .byte operation => pure (done (operation (← m.fetch (eip + 1) 1)))
    | .word operation => pure (done (operation (← m.fetch (eip + 1) 4)))
    | .registers operation =>
      let modrm := (← m.fetch (eip + 1) 1).toUInt8
      if modrm >>> 6 = 0b11 then
        pure (done (operation ((modrm >>> 3) &&& 0x7).toNat (modrm &&& 0x7).toNat))
      else pure (.error (.unsupportedOperand eip modrm))

variable {m : Memory} {eip : UInt32}

/-- The decoder reads by forms, and leaves zero what an operation has no place for. -/
theorem decodeFlat_eq_byForm : decodeFlat m eip = (decodeByForm m eip).map (·.map Instruction.flat) := by
  simp only [decodeFlat, decodeByForm]
  cases m.fetch eip 1 with
  | error a => rfl
  | ok x =>
    simp only [ok_bind, form?]
    generalize x.toUInt8.toNat / 8 = q
    generalize x.toUInt8.toNat % 8 = r
    generalize x.toUInt8.toNat = n
    split
    case h_6 =>
      -- no register in the opcode
      simp only [FlatInstruction.withWord, FlatInstruction.withByte, decodeRegisters, *]
      split
      case h_6 | h_7 =>
        -- the byte with the registers may be refused
        cases m.fetch (eip + 1) 1 with
        | error a => rfl
        | ok y =>
          simp only [ok_bind]
          split <;> rfl
      case h_17 => simp [pure, Except.pure, Except.map, *]
      all_goals first
        | rfl
        | cases m.fetch (eip + 1) 1 <;> rfl
        | cases m.fetch (eip + 1) 4 <;> rfl
    case h_5 =>
      simp only [FlatInstruction.withWord]
      cases m.fetch (eip + 1) 4 <;> rfl
    all_goals rfl

theorem decode_eq_byForm : decode m eip = decodeByForm m eip := by
  rw [decode, decodeFlat_eq_byForm]
  cases h : decodeByForm m eip with
  | error a => rfl
  | ok r =>
    cases r with
    | error fault => rfl
    | ok i =>
      have hi : FlatInstruction.instruction i.flat = i := i.instruction_flat
      simp only [Except.map, ok_bind, hi]
      rfl

/-- The record of a decoded instruction has its operands, and zeros elsewhere. -/
theorem decodeFlat_eq : decodeFlat m eip = (decode m eip).map (·.map Instruction.flat) := by
  rw [decode_eq_byForm, decodeFlat_eq_byForm]

end Monitor386
