import Monitor386.Machine.Basic

/-!
# Running

A run executes instructions until its budget is used up or something stops it. `step` is one
instruction; it says why the run stops there, if it does. `advance` repeats steps and lets an
observer see each of them, and `exec` is a run as the user asks for it.
-/

namespace Monitor386

/-- How many instructions a run may execute. -/
inductive Budget where
  | steps (n : Nat)
  | unlimited
  deriving DecidableEq, Repr

/-- The budget that a number stands for: the largest number of 64 bits means no limit. -/
def Budget.ofNat (n : Nat) : Budget :=
  if n = UInt64.size - 1 then unlimited else steps n

/-- Why a run came to its end. -/
inductive Outcome where
  /-- The budget is used up. -/
  | exhausted
  | breakpoint
  | watchpoint (hit : WatchChange)
  /-- A stop was requested. -/
  | interrupted
  | fault (cause : Fault)
  | ended
  /-- The program was over before the run. -/
  | cannotContinue
  deriving DecidableEq, Repr

/-- What happened in one step. -/
structure Step (τ : Type) where
  /-- Address of the instruction. -/
  start : UInt32
  /-- The records of the call of the table. -/
  records : List Record
  result : Except Fault Completion
  /-- The watchpoint that fired. -/
  hit : Option WatchChange
  /-- The machine after the step. -/
  machine : Machine τ
  /-- Why the run stops after the step, if it does. -/
  outcome : Option Outcome

namespace RunState

/-- The state after an instruction raised a trap, or none. -/
def afterTrap (s : RunState) : Option Trap → RunState
  | none => s
  | some .breakpoint => stopped
  | some .finish => ended

/-- The state in which the run leaves the machine: a program that is over stays over. -/
def suspend : RunState → RunState
  | running => stopped
  | s => s

/-- Why a run stops in a state that a trap left. -/
def outcome? : RunState → Option Outcome
  | running => none
  | stopped => some .breakpoint
  | ended => some .ended

end RunState

/-- How a completed instruction leaves the run state and the stop line, and why the run stops there,
if it does: a changed watchpoint comes before a stop request, and this before a trap. A request is
taken off the line only if it is what stops the run. -/
def settle (state : RunState) (line : StopLine) :
    Option WatchChange → RunState × StopLine × Option Outcome
  | some hit => (state.suspend, line, some (.watchpoint hit))
  | none =>
    if line = .requested then (state.suspend, .idle, some .interrupted)
    else (state, line, state.outcome?)

/-- The processor with the instruction pointer moved to an address. -/
def Cpu.goto (c : Cpu) (eip : UInt32) : Cpu :=
  { c with registers := { c.registers with eip } }

namespace Machine

variable {τ : Type}

/-- The step of an instruction that faulted. It stops the run with the instruction pointer at the
instruction. -/
def faultStep (m : Machine τ) (start : UInt32) (records : List Record) (fault : Fault) : Step τ where
  start := start
  records := records
  result := .error fault
  hit := none
  machine := { m with cpu := m.cpu.goto start, state := .stopped }
  outcome := some (.fault fault)

/-- The step of an instruction that was executed: the instruction pointer is advanced, then the
watchpoints are looked at. A trap decides the state even if something else is reported. -/
def completeStep (m : Machine τ) (start : UInt32) (records : List Record)
    (completion : Completion) : Step τ :=
  let { cpu, table, pool, state, stopLine } := m
  let cpu := cpu.goto (cpu.registers.eip + completion.length)
  let (hit, pool) := pool.scan cpu.context
  let (state, stopLine, outcome) := settle (state.afterTrap completion.trap) stopLine hit
  { start, records, result := .ok completion, hit, outcome
    machine := { cpu, table, pool, state, stopLine } }

variable [InstructionTable τ]

/-- Executes the instruction at the instruction pointer. -/
def step (m : Machine τ) : Except Abort (Step τ) := do
  let { cpu, table, pool, state, stopLine } := m
  let start := cpu.registers.eip
  let { cpu, table, stopRequested, records, result } ← InstructionTable.exec table cpu start
  let stopLine := if stopRequested then stopLine.raise else stopLine
  let m : Machine τ := { cpu, table, pool, state, stopLine }
  pure <| match result with
    | .error fault => m.faultStep start records fault
    | .ok completion => m.completeStep start records completion

/-- Executes at most `n` instructions and shows each step to an observer. Without an outcome all
`n` were executed and nothing stopped the run. -/
def advance {σ : Type} (observe : σ → Step τ → σ) :
    Nat → Machine τ → σ → σ × Except Abort (Option Outcome × Machine τ)
  | 0, m, seen => (seen, .ok (none, m))
  | n + 1, m, seen =>
    match m.step with
    | .error a => (seen, .error a)
    | .ok s =>
      let seen := observe seen s
      match s.outcome with
      | some outcome => (seen, .ok (some outcome, s.machine))
      | none => advance observe n s.machine seen

/-- The machine as a run finds it: stop requests from before the run do not count. -/
def beginRun (m : Machine τ) : Machine τ :=
  { m with state := .running, stopLine := m.stopLine.drain }

/-- A run. Once the program is over there is none. An unlimited run that does not stop within
`patience` steps is given up. -/
def exec {σ : Type} (observe : σ → Step τ → σ) (patience : Nat) (m : Machine τ) (budget : Budget)
    (seen : σ) : σ × Except Abort (Outcome × Machine τ) :=
  if m.state = .ended then (seen, .ok (.cannotContinue, m))
  else
    match budget with
    | .steps n =>
      let (seen, r) := m.beginRun.advance observe n seen
      (seen, r.map fun
        | (some outcome, m) => (outcome, m)
        | (none, m) => (.exhausted, { m with state := .stopped }))
    | .unlimited =>
      let (seen, r) := m.beginRun.advance observe patience seen
      (seen, r.bind fun
        | (some outcome, m) => .ok (outcome, m)
        | (none, _) => .error .unfinished)

end Machine

end Monitor386
