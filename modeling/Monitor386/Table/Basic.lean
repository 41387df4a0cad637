import Monitor386.Cpu

/-!
# Instruction tables

An instruction table executes the instruction at an address and reports its length. `I386Table`
decodes the instruction from memory; it has no state. A table with a state of its own may also ask
the run loop to stop while it executes.
-/

namespace Monitor386

/-- What a table reports of an instruction that it executed. -/
structure Completion where
  /-- Number of bytes by which the run loop advances the instruction pointer. -/
  length : UInt32
  trap : Option Trap
  deriving DecidableEq, Repr

/-- The outcome of one call of a table. -/
structure Call (τ : Type) where
  table : τ
  cpu : Cpu
  /-- True if the table asked for a stop during the call. -/
  stopRequested : Bool
  records : List Record
  result : Except Fault Completion

/-- Executes the instruction at an address. -/
class InstructionTable (τ : Type) where
  exec : τ → Cpu → UInt32 → Except Abort (Call τ)

/-- The table of the instructions that `decode` knows. -/
structure I386Table where
  deriving DecidableEq, Repr, Inhabited

namespace I386Table

/-- Decodes and executes; a fault leaves the processor as it was. -/
def exec (cpu : Cpu) (eip : UInt32) : Except Abort (Call I386Table) := do
  match ← decode cpu.memory eip with
  | .error fault => pure ⟨{}, cpu, false, [fault.record], .error fault⟩
  | .ok i =>
    let records := cpu.executeRecords i
    let (cpu, trap) ← cpu.execute i
    pure ⟨{}, cpu, false, records, .ok ⟨i.length, trap⟩⟩

instance : InstructionTable I386Table := ⟨fun _ => exec⟩

end I386Table

end Monitor386
