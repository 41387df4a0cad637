import Monitor386.Log
import Monitor386.Text.Numeral

/-!
# Aborts

An abort ends the emulator itself; unlike the errors that a debugger command or a guest
instruction reports, nothing recovers from it.
-/

namespace Monitor386

inductive Abort where
  /-- An access of the guest leaves the memory at this address. -/
  | outOfBound (addr : UInt32)
  /-- An access of neither 1, 2 nor 4 bytes. -/
  | badWidth (width : Nat)
  /-- An image of this many bytes does not fit into a memory of this capacity at this address. -/
  | imageTooLarge (size : Nat) (addr : UInt32) (capacity : Nat)
  /-- There are eight general registers. -/
  | noRegister (index : Nat)
  /-- A slot of the watchpoint pool is taken while none is free. -/
  | noFreeSlot
  /-- A slot of the watchpoint pool is given back while none is taken. -/
  | noActiveSlot
  /-- A slot of the watchpoint pool is given back that is not taken. -/
  | slotNotActive (slot : Nat)
  /-- A watchpoint is deleted while there is none. -/
  | nothingToDelete
  /-- A text is put into a column whose width does not fit into 16 bits. -/
  | columnTooWide
  /-- A run without a limit did not stop within the steps that its caller allowed it. -/
  | unfinished
  deriving DecidableEq, Repr

def Abort.message : Abort → String
  | outOfBound addr => "physical address(" ++ Text.hexWord addr ++ ") is out of bound"
  | badWidth width => s!"invalid memory access width: {width} bytes"
  | imageTooLarge size addr capacity =>
    s!"image of {size} bytes does not fit at " ++ Text.hexWord addr ++ " (memory size 0x" ++
      Text.hex capacity ++ ")"
  | noRegister index => s!"register index {index} out of range"
  | noFreeSlot => "watchpoint pool: allocating from an empty free list"
  | noActiveSlot => "watchpoint pool: freeing with an empty active list"
  | slotNotActive slot => s!"watchpoint pool: slot {slot} is not active"
  | nothingToDelete => "watchpoint pool: delete with no active watchpoints"
  | columnTooWide => "Formatting argument out of range"
  | unfinished => "the run did not stop within the allowed number of steps"

/-- An abort, with the log up to it. -/
structure Crash where
  cause : Abort
  log : Log

end Monitor386
