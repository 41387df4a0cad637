import Monitor386.Machine.Run

/-!
# Records of a run

A completed step is recorded as a line with the address of the instruction, its bytes and its
disassembly, followed by what looking at the watchpoints tells.
-/

namespace Monitor386

/-- Runs with a budget below this number show their steps at a higher level. -/
def shortRun : Nat := 10

/-- The level of the step lines of a run. -/
def Budget.stepLevel : Budget → Level
  | .steps n => if n < shortRun then .info else .trace
  | .unlimited => .trace

/-- The bytes of an instruction, each followed by a blank; a byte outside the memory is `??`. -/
def Memory.byteGroups (m : Memory) (start length : UInt32) : String :=
  (List.range length.toNat).foldl (fun line i =>
    line ++ match m.checkedRead (start + UInt32.ofNat i) 1 with
      | some b => Text.hexByte b.toUInt8 ++ " "
      | none => "?? ") ""

/-- The line of a completed step: the address of the instruction, and from the processor after the
step its bytes and its disassembly. -/
def Cpu.stepLine (c : Cpu) (start length : UInt32) : String :=
  Text.alignRight 8 ' ' (Text.hex start.toNat) ++ ":   " ++
    Text.alignLeft 24 (c.memory.byteGroups start length) ++ c.assembly.text

/-- The line of a watchpoint that fired at an instruction. -/
def WatchChange.line (hit : WatchChange) (start : UInt32) : String :=
  s!"Hit watchpoint {hit.no} at eip = " ++ Text.hexWord start ++ ": " ++
    String.ofList hit.expr ++ " (" ++ Text.hexWord hit.old ++ " -> " ++ Text.hexWord hit.new ++ ")"

/-- Adds the records of a step to a log; step lines have the given level. -/
def Step.report {τ : Type} (level : Level) (log : Log) (s : Step τ) : Log :=
  let log := log.addAll s.records
  match s.result with
  | .error _ => log
  | .ok executed =>
    let log := log.add level (s.machine.cpu.stepLine s.start executed.length)
    let log := log.addTexts .debug ((s.machine.pool.scanned s.hit).flatMap Expr.records)
    match s.hit with
    | none => log
    | some hit => log.add .info (hit.line s.start)

end Monitor386
