import Monitor386.Table.Basic
import Monitor386.Watch.Pool

/-!
# The machine

A processor with an instruction table, watchpoints, a run state and a line on which stop requests
arrive. The operations here are those of a user at rest; running is in `Machine/Run`.
-/

namespace Monitor386

inductive RunState where
  | stopped
  | running
  /-- The program is over; only a restart leaves this state. -/
  | ended
  deriving DecidableEq, Repr

/-- The line for stop requests. It holds at most one request. -/
inductive StopLine where
  /-- Nobody can ask for a stop. -/
  | absent
  | idle
  | requested
  deriving DecidableEq, Repr

namespace StopLine

/-- Asks for a stop. A request that is already there stays the only one. -/
def raise : StopLine → StopLine
  | absent => absent
  | _ => requested

/-- Drops the request, if there is one. -/
def drain : StopLine → StopLine
  | absent => absent
  | _ => idle

end StopLine

structure Machine (τ : Type) where
  cpu : Cpu
  table : τ
  pool : Pool := .empty
  state : RunState := .stopped
  stopLine : StopLine := .absent

/-- What expressions see of a processor. -/
def Cpu.context (c : Cpu) : Expr.Context :=
  ⟨c.registers.read?, fun addr => c.memory.checkedRead addr 4⟩

namespace Machine

variable {τ : Type}

/-- A machine at power-on with a memory of the given capacity. -/
def create (capacity : Nat) (table : τ) (stopLine : StopLine) : Machine τ :=
  { cpu := ⟨.initial, ⟨capacity, .empty⟩, .empty⟩, table, stopLine }

/-- The machine at power-on with a program in its memory. Watchpoints stay and take the values of
the new state. -/
def restart (m : Machine τ) (image : List UInt8) : Except Abort (Machine τ) := do
  let c := m.cpu.reset
  let cpu ← { c with memory := c.memory.reset }.loadImage image
  pure { m with cpu, state := .stopped, pool := m.pool.refresh cpu.context }

/-- Asks for a stop from outside. True if the request is taken; one that waits already stays the
only one. -/
def requestStop (m : Machine τ) : Bool × Machine τ :=
  (m.stopLine = .idle, { m with stopLine := m.stopLine.raise })

/-- The value of an expression in the machine's state. -/
def eval (m : Machine τ) (e : List Char) : Except Expr.Error UInt32 :=
  Expr.eval m.cpu.context e

/-- At most `n` consecutive words from an address on, up to the end of the memory. -/
def examine (m : Machine τ) (addr : UInt32) (n : Nat) : Array (UInt32 × UInt32) :=
  m.cpu.memory.words addr n

/-- Writes a register by its name, and lets the watchpoints take the new values. -/
def setRegister (m : Machine τ) (name : String) (x : UInt32) :
    Except UnknownRegister (Machine τ) := do
  let registers ← m.cpu.registers.write? name x
  let cpu := { m.cpu with registers }
  pure { m with cpu, pool := m.pool.refresh cpu.context }

/-- Sets a watchpoint. -/
def watch (m : Machine τ) (e : List Char) :
    Except Abort (Except WatchError Watchpoint × Machine τ) := do
  let (r, pool) ← m.pool.create m.cpu.context e
  pure (r, { m with pool })

/-- Deletes a watchpoint. -/
def delete (m : Machine τ) (no : Nat) : Except Abort (Except WatchError Unit × Machine τ) := do
  let (r, pool) ← m.pool.delete no
  pure (r, { m with pool })

end Machine

end Monitor386
