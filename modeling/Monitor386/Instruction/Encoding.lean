import Monitor386.Instruction.Flat
import Monitor386.Memory.Basic

/-!
# The encoding of instructions

The first byte of an instruction, its opcode, decides what follows it: nothing, an immediate byte,
an immediate word, or a byte that names two registers. `decodeFlat` reads an instruction from memory
by it, and `decode` gives the instruction with the operands that it uses. `Instruction.encode` is the
other direction: the bytes of an instruction.
-/

namespace Monitor386

/-- The byte that names two registers. -/
def registersByte (reg rm : Nat) : UInt8 :=
  (0xC0 : UInt8) ||| (UInt8.ofNat reg <<< (3 : UInt8)) ||| UInt8.ofNat rm

/-- The bytes of an instruction, in the form that its opcode names. -/
def Instruction.encode (i : Instruction) : List UInt8 :=
  let word (w : UInt32) : List UInt8 := LittleEndian.spread 4 w.toNat
  i.opcode :: match i.operation with
    | .moveImmediate _ value | .add _ value | .sub _ value | .compare _ value => word value
    | .load _ addr | .store _ addr => word addr
    | .call displacement => word displacement
    | .jump _ displacement =>
      if i.length = 2 then [displacement.toUInt8] else word displacement
    | .move dst src =>
      [if i.opcode = 0x89 then registersByte src dst else registersByte dst src]
    | _ => []

/-- Takes the byte after the opcode as the immediate operand, extended with zeros. -/
def FlatInstruction.withByte (f : FlatInstruction) (m : Memory) : Except Abort FlatInstruction := do
  return { f with imm := ← m.fetch (f.eip + 1) 1, length := 2 }

/-- Takes the word after the opcode as the immediate operand. -/
def FlatInstruction.withWord (f : FlatInstruction) (m : Memory) : Except Abort FlatInstruction := do
  return { f with imm := ← m.fetch (f.eip + 1) 4, length := 5 }

/-- The two registers that the byte after the opcode names, the one in the upper bits first. -/
def decodeRegisters (m : Memory) (eip : UInt32) : Except Abort (Except Fault (Nat × Nat)) := do
  let modrm := (← m.fetch (eip + 1) 1).toUInt8
  if modrm >>> 6 = 0b11 then
    pure (.ok (((modrm >>> 3) &&& 0x7).toNat, (modrm &&& 0x7).toNat))
  else pure (.error (.unsupportedOperand eip modrm))

/-- Reads the instruction at an address, place by place. Some opcodes hold a register in their three
low bits, and some have the accumulator, register 0, as an operand. Reading outside the memory aborts. -/
def decodeFlat (m : Memory) (eip : UInt32) : Except Abort (Except Fault FlatInstruction) := do
  let opcode := (← m.fetch eip 1).toUInt8
  let bare (mnemonic : Mnemonic) : FlatInstruction := { eip, opcode, mnemonic, length := 1 }
  let r := opcode.toNat % 8
  match opcode.toNat / 8 with
  | 0x08 => pure (.ok { bare .inc with dst := r })
  | 0x09 => pure (.ok { bare .dec with dst := r })
  | 0x0A => pure (.ok { bare .push with src := r })
  | 0x0B => pure (.ok { bare .pop with dst := r })
  | 0x17 => pure (.ok { (← (bare .moveImmediate).withWord m) with dst := r })
  | _ =>
    match opcode.toNat with
    | 0x05 => pure (.ok { (← (bare .add).withWord m) with dst := 0 })
    | 0x2D => pure (.ok { (← (bare .sub).withWord m) with dst := 0 })
    | 0x3D => pure (.ok { (← (bare .compare).withWord m) with dst := 0 })
    | 0x74 => pure (.ok (← (bare (.jump .zero)).withByte m))
    | 0x75 => pure (.ok (← (bare (.jump .nonzero)).withByte m))
    | 0x89 =>
      let registers ← decodeRegisters m eip
      pure (registers.map fun (reg, rm) => { bare .move with length := 2, dst := rm, src := reg })
    | 0x8B =>
      let registers ← decodeRegisters m eip
      pure (registers.map fun (reg, rm) => { bare .move with length := 2, dst := reg, src := rm })
    | 0x90 => pure (.ok (bare .nop))
    | 0xA1 => pure (.ok { (← (bare .load).withWord m) with dst := 0 })
    | 0xA3 => pure (.ok { (← (bare .store).withWord m) with src := 0 })
    | 0xC3 => pure (.ok (bare .ret))
    | 0xCC => pure (.ok (bare .breakpoint))
    | 0xD6 => pure (.ok (bare .finish))
    | 0xE8 => pure (.ok (← (bare .call).withWord m))
    | 0xE9 => pure (.ok (← (bare (.jump .always)).withWord m))
    | 0xEB => pure (.ok (← (bare (.jump .always)).withByte m))
    | _ => pure (.error (.invalidOpcode eip opcode))

/-- Reads the instruction at an address, with the operands that it uses. -/
def decode (m : Memory) (eip : UInt32) : Except Abort (Except Fault Instruction) := do
  return (← decodeFlat m eip).map FlatInstruction.instruction

end Monitor386
