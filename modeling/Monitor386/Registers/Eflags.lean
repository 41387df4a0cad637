/-!
# The flags register

The flags are single bits of one word; the input/output privilege level takes two bits. The other
bits, such as bit 1, belong to no field and keep what they hold.
-/

namespace Monitor386

inductive Flag where
  | carry
  | parity
  | adjust
  | zero
  | sign
  | trap
  | interrupt
  | direction
  | overflow
  | nestedTask
  deriving DecidableEq, Repr

/-- Position of the flag in the word. -/
def Flag.bit : Flag → UInt32
  | carry => 0
  | parity => 2
  | adjust => 4
  | zero => 6
  | sign => 7
  | trap => 8
  | interrupt => 9
  | direction => 10
  | overflow => 11
  | nestedTask => 14

def Flag.mask (f : Flag) : UInt32 :=
  1 <<< f.bit

structure Eflags where
  word : UInt32
  deriving DecidableEq, Repr

namespace Eflags

/-- The flags at power-on: bit 1 is set and belongs to no field. -/
def initial : Eflags := ⟨2⟩

def get (e : Eflags) (f : Flag) : Bool :=
  e.word &&& f.mask ≠ 0

def set (e : Eflags) (f : Flag) (on : Bool) : Eflags :=
  ⟨if on then e.word ||| f.mask else e.word &&& ~~~f.mask⟩

/-- Position of the privilege level in the word. -/
def ioplBit : UInt32 := 12

def ioplMask : UInt32 := 0b11 <<< ioplBit

/-- The privilege level, from 0 to 3. -/
def iopl (e : Eflags) : UInt32 :=
  (e.word &&& ioplMask) >>> ioplBit

/-- Only the two low bits of the level count. -/
def setIopl (e : Eflags) (level : UInt32) : Eflags :=
  ⟨(e.word &&& ~~~ioplMask) ||| ((level &&& 0b11) <<< ioplBit)⟩

end Eflags

end Monitor386
