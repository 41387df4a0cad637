import Monitor386.Log
import Monitor386.Registers.Arithmetic
import Monitor386.Registers.File

/-!
# Instructions

The supported subset of the i386 instruction set: moves, stack operations, arithmetic with an
immediate operand, control transfers, and the two instructions that hand control back to the
monitor. Registers are given by number. `Instruction.text` is the disassembly.
-/

namespace Monitor386

/-- When a jump is taken. -/
inductive Condition where
  | always
  | zero
  | nonzero
  deriving DecidableEq, Repr

/-- What an instruction does, with its operands. -/
inductive Operation where
  | nop
  /-- A register takes an immediate word. -/
  | moveImmediate (dst : Nat) (value : UInt32)
  | move (dst src : Nat)
  /-- A register takes the word at an absolute address. -/
  | load (dst : Nat) (addr : UInt32)
  /-- The word at an absolute address takes the value of a register. -/
  | store (src : Nat) (addr : UInt32)
  | push (src : Nat)
  | pop (dst : Nat)
  | add (dst : Nat) (value : UInt32)
  | sub (dst : Nat) (value : UInt32)
  /-- Subtracts for the flags alone. -/
  | compare (dst : Nat) (value : UInt32)
  | inc (dst : Nat)
  | dec (dst : Nat)
  /-- The displacement of a transfer is the encoded one: a byte is not yet sign-extended. -/
  | call (displacement : UInt32)
  | ret
  | jump (condition : Condition) (displacement : UInt32)
  /-- Suspends the program for the monitor. -/
  | breakpoint
  /-- Ends the program; the accumulator tells whether it went well. -/
  | finish
  deriving DecidableEq, Repr

/-- An instruction with the operands that it uses. `FlatInstruction` is the record that the decoder fills
in. -/
structure Instruction where
  /-- Address of the first byte. -/
  eip : UInt32
  opcode : UInt8
  /-- Number of encoded bytes. -/
  length : UInt32
  operation : Operation
  deriving DecidableEq, Repr

/-- What an instruction raises for the run loop to act on. -/
inductive Trap where
  /-- Suspend the program. -/
  | breakpoint
  /-- The program is over. -/
  | finish
  deriving DecidableEq, Repr

def Operation.trap? : Operation → Option Trap
  | breakpoint => some .breakpoint
  | finish => some .finish
  | _ => none

namespace Instruction

/-- Address of the instruction that follows in memory. -/
def next (i : Instruction) : UInt32 :=
  i.eip + i.length

/-- The displacement of a transfer: two bytes of code hold a signed byte, five a word. -/
def displacement (i : Instruction) (encoded : UInt32) : UInt32 :=
  if i.length = 2 then signExtendByte encoded else encoded

/-- Where a transfer goes. -/
def target (i : Instruction) (encoded : UInt32) : UInt32 :=
  i.next + i.displacement encoded

/-- The name of a general register in the disassembly. -/
def registerText (index : Nat) : String :=
  "%" ++ RegisterName.full.getD index ""

def hexText (w : UInt32) : String :=
  "0x" ++ Text.hex w.toNat

def conditionText : Condition → String
  | .always => "jmp"
  | .zero => "je"
  | .nonzero => "jne"

/-- The disassembly: the source comes before the destination, `$` marks an immediate operand, and
a transfer shows its target. -/
def text (i : Instruction) : String :=
  match i.operation with
  | .nop => "nop"
  | .moveImmediate dst value => "mov $" ++ hexText value ++ "," ++ registerText dst
  | .move dst src => "mov " ++ registerText src ++ "," ++ registerText dst
  | .load dst addr => "mov " ++ hexText addr ++ "," ++ registerText dst
  | .store src addr => "mov " ++ registerText src ++ "," ++ hexText addr
  | .push src => "push " ++ registerText src
  | .pop dst => "pop " ++ registerText dst
  | .add dst value => "add $" ++ hexText value ++ "," ++ registerText dst
  | .sub dst value => "sub $" ++ hexText value ++ "," ++ registerText dst
  | .compare dst value => "cmp $" ++ hexText value ++ "," ++ registerText dst
  | .inc dst => "inc " ++ registerText dst
  | .dec dst => "dec " ++ registerText dst
  | .call encoded => "call " ++ Text.hex (i.target encoded).toNat
  | .ret => "ret"
  | .jump condition encoded =>
    conditionText condition ++ " " ++ Text.hex (i.target encoded).toNat
  | .breakpoint => "int3"
  | .finish => "nemu trap"

end Instruction

/-- Why an instruction cannot be executed. Such a fault stops the program, not the emulator. -/
inductive Fault where
  | invalidOpcode (eip : UInt32) (opcode : UInt8)
  /-- The operand is not a register. -/
  | unsupportedOperand (eip : UInt32) (modrm : UInt8)
  deriving DecidableEq, Repr

namespace Fault

def message : Fault → String
  | invalidOpcode eip opcode =>
    "invalid opcode 0x" ++ Text.hexByte opcode ++ " at eip = " ++ Text.hexWord eip
  | unsupportedOperand eip modrm =>
    "unsupported operand form (modrm 0x" ++ Text.hexByte modrm ++ ") at eip = " ++
      Text.hexWord eip

/-- The record of finding the fault. -/
def record : Fault → Record
  | invalidOpcode eip opcode =>
    ⟨.error, "Invalid opcode 0x" ++ Text.hexByte opcode ++ " at eip = " ++ Text.hexWord eip⟩
  | unsupportedOperand eip modrm =>
    ⟨.error, "Unsupported ModR/M form 0x" ++ Text.hexByte modrm ++ " at eip = " ++
      Text.hexWord eip⟩

end Fault

end Monitor386
