import Monitor386.Machine.Report

/-!
# Sessions

A session is a machine together with the log of what is done to it. Each operation is the one of
the machine, with its records. An operation that aborts leaves no machine, only the log.
-/

namespace Monitor386

structure Session (τ : Type) where
  machine : Machine τ
  log : Log

namespace Session

variable {τ : Type}

/-- The record of making a memory. -/
def allocatingRecord (capacity : Nat) : String :=
  s!"Allocating {capacity} bytes of physical memory"

/-- A machine at power-on. -/
def create (capacity : Nat) (table : τ) (stopLine : StopLine) (threshold : Option Level) :
    Session τ :=
  let log : Log := { threshold }
  { machine := .create capacity table stopLine
    log := log.add .debug (allocatingRecord capacity) }

/-- The record of copying a program into memory. -/
def loadingRecord (image : List UInt8) : String :=
  s!"Loading {image.length} bytes at " ++ Text.hexWord entryPoint

/-- Restarts the machine with a program. -/
def restart (s : Session τ) (image : List UInt8) : Except Crash (Session τ) :=
  let { machine, log } := s
  let log := log.add .debug (loadingRecord image)
  match machine.restart image with
  | .error cause => .error ⟨cause, log⟩
  | .ok machine =>
    let log := log.addTexts .debug (machine.pool.refreshRecords)
    .ok ⟨machine, log.add .info
      (s!"Loaded {image.length} byte image at " ++ Text.hexWord entryPoint)⟩

/-- Runs the machine. -/
def exec [InstructionTable τ] (patience : Nat) (s : Session τ) (budget : Budget) :
    Except Crash (Outcome × Session τ) :=
  let { machine, log } := s
  let log :=
    if machine.state = .ended then
      log.add .warn "Program execution has ended, cannot continue"
    else log
  match machine.exec (Step.report budget.stepLevel) patience budget log with
  | (log, .error cause) => .error ⟨cause, log⟩
  | (log, .ok (outcome, machine)) => .ok (outcome, ⟨machine, log⟩)

/-- The value of an expression. -/
def eval (s : Session τ) (e : List Char) :
    Except Crash (Except Expr.Error UInt32 × Session τ) := do
  let (r, log) ← Expr.evaluate s.log s.machine.cpu.context e
  pure (r, { s with log })

/-- Writes a register by its name. -/
def setRegister (s : Session τ) (name : String) (x : UInt32) :
    Except UnknownRegister Unit × Session τ :=
  match s.machine.setRegister name x with
  | .error e => (.error e, s)
  | .ok machine =>
    (.ok (), ⟨machine, s.log.addTexts .debug (machine.pool.refreshRecords)⟩)

/-- Sets a watchpoint. -/
def watch (s : Session τ) (e : List Char) :
    Except Crash (Except WatchError Watchpoint × Session τ) :=
  match s.machine.watch e with
  | .error cause => .error ⟨cause, s.log⟩
  | .ok (r, machine) => do
    let log ← Pool.addCreation s.log e r
    pure (r, ⟨machine, log⟩)

/-- Deletes a watchpoint. -/
def delete (s : Session τ) (no : Nat) : Except Crash (Except WatchError Unit × Session τ) :=
  match s.machine.delete no with
  | .error cause => .error ⟨cause, s.log⟩
  | .ok (r, machine) => .ok (r, ⟨machine, s.log.addTexts .debug (Pool.deleteRecords no r)⟩)

end Session

end Monitor386
