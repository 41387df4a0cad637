import Monitor386.Instruction.Encoding
import Monitor386.Text.Bounded

/-!
# The processor

Registers, memory, and a buffer with the disassembly of the last instruction. `execute` applies
the effects of an instruction. The instruction pointer is advanced by the length of the
instruction afterwards, by the run loop; a transfer therefore leaves it that many bytes before its
target.
-/

namespace Monitor386

/-- The disassembly is cut at this many bytes. -/
abbrev assemblyCapacity : Nat := 80

structure Cpu where
  registers : Registers := .initial
  memory : Memory
  /-- Disassembly of the last instruction. -/
  assembly : Text.Bounded assemblyCapacity := .empty
  deriving Inhabited

namespace Cpu

/-- Power-on registers and an empty disassembly; the memory stays. -/
def reset (c : Cpu) : Cpu :=
  { c with registers := .initial, assembly := .empty }

/-- Copies a program to the entry point and points the instruction pointer at it. -/
def loadImage (c : Cpu) (image : List UInt8) : Except Abort Cpu := do
  let memory ← c.memory.load entryPoint image
  pure { c with memory, registers := { c.registers with eip := entryPoint } }

/-- Puts a text into the disassembly buffer, as far as it fits. -/
def printAssembly (c : Cpu) (text : String) : Cpu :=
  { c with assembly := .fill text.toList }

/-- Pushes a word: the stack grows towards lower addresses. -/
def push (c : Cpu) (x : UInt32) : Except Abort Cpu := do
  let top := c.registers.get Registers.esp .full - 4
  let memory ← c.memory.write .program top 4 x
  pure { c with memory, registers := c.registers.set Registers.esp .full top }

/-- Pops a word. -/
def pop (c : Cpu) : Except Abort (UInt32 × Cpu) := do
  let top := c.registers.get Registers.esp .full
  let x ← c.memory.read .program top 4
  pure (x, { c with registers := c.registers.set Registers.esp .full (top + 4) })

/-! ## Effects -/

/-- Writes a general register. -/
def setWord (c : Cpu) (index : Nat) (x : UInt32) : Except Abort Cpu := do
  pure { c with registers := ← c.registers.setWord index x }

/-- Writes the result of an operation on a general register and its flags. -/
def update (c : Cpu) (index : Nat) (f : Eflags → UInt32 → UInt32 × Eflags) : Except Abort Cpu := do
  let a ← c.registers.word index
  let (result, eflags) := f c.registers.eflags a
  let registers ← c.registers.setWord index result
  pure { c with registers := { registers with eflags } }

/-- Leaves the instruction pointer so that advancing it by the length of the instruction makes it
`target`. -/
def transfer (c : Cpu) (i : Instruction) (target : UInt32) : Cpu :=
  { c with registers := { c.registers with eip := target - i.length } }

/-- True if a jump with this condition is taken. -/
def holds (c : Cpu) : Condition → Bool
  | .always => true
  | .zero => c.registers.eflags.get .zero
  | .nonzero => !c.registers.eflags.get .zero

/-- The effect of an instruction on registers and memory. -/
def effect (c : Cpu) (i : Instruction) : Except Abort Cpu :=
  match i.operation with
  | .nop | .breakpoint | .finish => .ok c
  | .moveImmediate dst value => c.setWord dst value
  | .move dst src => do c.setWord dst (← c.registers.word src)
  | .load dst addr => do c.setWord dst (← c.memory.read .program addr 4)
  | .store src addr => do
    let x ← c.registers.word src
    pure { c with memory := ← c.memory.write .program addr 4 x }
  | .push src => do c.push (← c.registers.word src)
  | .pop dst => do
    let (x, c) ← c.pop
    c.setWord dst x
  | .add dst value => c.update dst fun e a => e.add a value
  | .sub dst value => c.update dst fun e a => e.sub a value
  | .compare dst value => c.update dst fun e a => (a, (e.sub a value).2)
  | .inc dst => c.update dst Eflags.inc
  | .dec dst => c.update dst Eflags.dec
  | .call encoded => do
    let c ← c.push i.next
    pure (c.transfer i (i.target encoded))
  | .ret => do
    let (target, c) ← c.pop
    pure (c.transfer i target)
  | .jump condition encoded =>
    .ok (if c.holds condition then c.transfer i (i.target encoded) else c)

/-- Executes an instruction and leaves its disassembly in the buffer. -/
def execute (c : Cpu) (i : Instruction) : Except Abort (Cpu × Option Trap) := do
  let c ← c.effect i
  pure (c.printAssembly i.text, i.operation.trap?)

/-- The records of executing an instruction: those that hand control back leave one. -/
def executeRecords (c : Cpu) (i : Instruction) : List Record :=
  match i.operation with
  | .breakpoint => [⟨.warn, "Hit breakpoint at eip = " ++ Text.hexWord i.eip⟩]
  | .finish =>
    let status := c.registers.get Registers.eax .full
    if status = 0 then
      [⟨.info, "nemu: HIT GOOD TRAP at eip = " ++ Text.hexWord i.eip⟩]
    else
      [⟨.error, "nemu: HIT BAD TRAP at eip = " ++ Text.hexWord i.eip ++ " (eax = " ++
        Instruction.hexText status ++ ")"⟩]
  | _ => []

end Cpu

end Monitor386
