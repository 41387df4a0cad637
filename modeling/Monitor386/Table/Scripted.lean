import Monitor386.Table.Basic

/-!
# Scripted tables

A scripted table plays back a list of entries, one for each call, and executes the instructions in
memory after the last of them. An entry can ask for a stop, write registers, and replace the
instruction by a fault or by a result of its own.
-/

namespace Monitor386

/-- A result that does not depend on what stands in memory. A fault is one of the instruction that
the call was for. -/
inductive ScriptedResult where
  | invalidOpcode (opcode : UInt8)
  | unsupportedOperand (modrm : UInt8)
  | executed (result : Completion)
  deriving DecidableEq, Repr

/-- The result of a call for the instruction at an address. -/
def ScriptedResult.resultAt (eip : UInt32) : ScriptedResult → Except Fault Completion
  | invalidOpcode opcode => .error (.invalidOpcode eip opcode)
  | unsupportedOperand modrm => .error (.unsupportedOperand eip modrm)
  | executed result => .ok result

/-- What one call of a scripted table does; by default it executes the instruction in memory. -/
structure ScriptEntry where
  /-- Ask the run loop to stop. -/
  signal : Bool := false
  /-- Registers to write before anything else, by name; unknown names are skipped. -/
  writes : List (String × UInt32) := []
  /-- The result, if the instruction in memory is not to be executed. -/
  result : Option ScriptedResult := none

structure ScriptedTable where
  /-- The entries of the calls to come. -/
  entries : List ScriptEntry

namespace ScriptedTable

/-- Writes registers by name, in order. -/
def writeAll (r : Registers) (writes : List (String × UInt32)) : Registers :=
  writes.foldl (fun r (name, x) => (r.write? name x).toOption.getD r) r

def exec (t : ScriptedTable) (cpu : Cpu) (eip : UInt32) : Except Abort (Call ScriptedTable) := do
  let entry := t.entries.head?.getD {}
  let t : ScriptedTable := ⟨t.entries.tail⟩
  let cpu := { cpu with registers := writeAll cpu.registers entry.writes }
  match entry.result with
  | some result => pure ⟨t, cpu, entry.signal, [], result.resultAt eip⟩
  | none =>
    let call ← I386Table.exec cpu eip
    pure ⟨t, call.cpu, entry.signal, call.records, call.result⟩

instance : InstructionTable ScriptedTable := ⟨exec⟩

end ScriptedTable

end Monitor386
