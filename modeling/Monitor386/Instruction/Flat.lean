import Monitor386.Instruction.Basic

/-!
# Flat instructions

The decoder fills in one record for every kind of instruction, with a place for each operand that some
instruction has. A place that the instruction at hand has no use for keeps its zero.
`FlatInstruction.operation` takes from the record what the mnemonic asks for.
-/

namespace Monitor386

/-- The kinds of instruction. -/
inductive Mnemonic where
  | nop
  | moveImmediate
  | move
  | load
  | store
  | push
  | pop
  | add
  | sub
  | compare
  | inc
  | dec
  | call
  | ret
  | jump (condition : Condition)
  | breakpoint
  | finish
  deriving DecidableEq, Repr

def Operation.mnemonic : Operation → Mnemonic
  | nop => .nop
  | moveImmediate .. => .moveImmediate
  | move .. => .move
  | load .. => .load
  | store .. => .store
  | push _ => .push
  | pop _ => .pop
  | add .. => .add
  | sub .. => .sub
  | compare .. => .compare
  | inc _ => .inc
  | dec _ => .dec
  | call _ => .call
  | ret => .ret
  | jump condition _ => .jump condition
  | breakpoint => .breakpoint
  | finish => .finish

structure FlatInstruction where
  /-- Address of the first byte. -/
  eip : UInt32
  opcode : UInt8
  mnemonic : Mnemonic
  /-- Number of encoded bytes. -/
  length : UInt32
  /-- The register that is written. -/
  dst : Nat := 0
  /-- The register that is read. -/
  src : Nat := 0
  /-- An immediate word, an absolute address, or the displacement of a transfer. -/
  imm : UInt32 := 0
  deriving DecidableEq, Repr

namespace FlatInstruction

/-- What the instruction does, with the operands that it uses. -/
def operation (f : FlatInstruction) : Operation :=
  match f.mnemonic with
  | .nop => .nop
  | .moveImmediate => .moveImmediate f.dst f.imm
  | .move => .move f.dst f.src
  | .load => .load f.dst f.imm
  | .store => .store f.src f.imm
  | .push => .push f.src
  | .pop => .pop f.dst
  | .add => .add f.dst f.imm
  | .sub => .sub f.dst f.imm
  | .compare => .compare f.dst f.imm
  | .inc => .inc f.dst
  | .dec => .dec f.dst
  | .call => .call f.imm
  | .ret => .ret
  | .jump condition => .jump condition f.imm
  | .breakpoint => .breakpoint
  | .finish => .finish

def instruction (f : FlatInstruction) : Instruction :=
  ⟨f.eip, f.opcode, f.length, f.operation⟩

end FlatInstruction

end Monitor386
