import Monitor386.Abort
import Monitor386.Memory.Store

/-!
# The guest's memory

A flat memory of a fixed number of bytes. Programs see it through program addresses, which are
mapped to linear and then to physical addresses; neither segments nor pages are modelled, so both
maps are the identity. An access of the guest that leaves the memory aborts the emulator, while
`checkedRead`, which inspects the memory for the user, only fails.
-/

namespace Monitor386

/-- The three kinds of address. -/
inductive Space where
  | program
  | linear
  | physical
  deriving DecidableEq, Repr

namespace Space

/-- The linear address of a program address. -/
def segment (addr : UInt32) : UInt32 := addr

/-- The physical address of a linear address. -/
def page (addr : UInt32) : UInt32 := addr

/-- The physical address of an address of this kind. -/
def physicalOf : Space → UInt32 → UInt32
  | program, addr => page (segment addr)
  | linear, addr => page addr
  | physical, addr => addr

end Space

structure Memory where
  /-- Number of bytes. -/
  capacity : Nat
  store : Store := .empty

instance : Inhabited Memory := ⟨⟨0, .empty⟩⟩

namespace Memory

/-- True if an access of `width` bytes at the address stays inside. -/
def contains (m : Memory) (addr : UInt32) (width : Nat) : Bool :=
  addr.toNat + width ≤ m.capacity

/-- The widths of an access: a byte, two bytes or a word. -/
def validWidth (width : Nat) : Bool :=
  width = 1 || width = 2 || width = 4

/-- The number in the `width` bytes from an offset on, as far as the store goes. -/
def peek (m : Memory) (offset width : Nat) : UInt32 :=
  UInt32.ofNat (LittleEndian.number (m.store.slice offset width))

/-- Why an access aborts, if it does; the width is looked at first. -/
def violation? (m : Memory) (addr : UInt32) (width : Nat) : Option Abort :=
  if validWidth width then
    if m.contains addr width then none else some (.outOfBound addr)
  else some (.badWidth width)

/-- Reads a number of `width` bytes. -/
def read (m : Memory) (space : Space) (addr : UInt32) (width : Nat) : Except Abort UInt32 :=
  let addr := space.physicalOf addr
  match m.violation? addr width with
  | some a => .error a
  | none => .ok (m.peek addr.toNat width)

/-- Writes the low `width` bytes of a word. -/
def write (m : Memory) (space : Space) (addr : UInt32) (width : Nat) (x : UInt32) :
    Except Abort Memory :=
  let addr := space.physicalOf addr
  match m.violation? addr width with
  | some a => .error a
  | none =>
    .ok { m with store := m.store.splice addr.toNat (LittleEndian.spread width x.toNat) }

/-- Reads a part of an instruction. -/
def fetch (m : Memory) (addr : UInt32) (width : Nat) : Except Abort UInt32 :=
  m.read .program addr width

/-- Reads for inspection: `none` where `read` would abort. -/
def checkedRead (m : Memory) (addr : UInt32) (width : Nat) : Option UInt32 :=
  let addr := Space.program.physicalOf addr
  if validWidth width && m.contains addr width then some (m.peek addr.toNat width) else none

/-- Copies a block of bytes to an address. -/
def load (m : Memory) (addr : UInt32) (bytes : List UInt8) : Except Abort Memory :=
  let physical := Space.program.physicalOf addr
  if m.contains physical bytes.length then
    .ok { m with store := m.store.splice physical.toNat bytes }
  else .error (.imageTooLarge bytes.length addr m.capacity)

/-- The memory with zeros everywhere. -/
def reset (m : Memory) : Memory :=
  { m with store := .empty }

/-! ## Inspection -/

/-- Collects at most `n` words from an address on, up to the end of the memory or of the
addresses. -/
def wordsFrom (m : Memory) (words : Array (UInt32 × UInt32)) (addr : Nat) :
    Nat → Array (UInt32 × UInt32)
  | 0 => words
  | n + 1 =>
    if addr < UInt32.size then
      match m.checkedRead (UInt32.ofNat addr) 4 with
      | some w => m.wordsFrom (words.push (UInt32.ofNat addr, w)) (addr + 4) n
      | none => words
    else words

/-- At most `n` consecutive words from an address on, with their addresses. -/
def words (m : Memory) (addr : UInt32) (n : Nat) : Array (UInt32 × UInt32) :=
  m.wordsFrom #[] addr.toNat n

end Memory

end Monitor386
