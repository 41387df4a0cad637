/-!
# Views of a general register

A general register is a word that can be read and written as a whole, as its low half, or as one
of its two low bytes. A view is a field of bits: reading gives the bits of the field, and writing
replaces them and leaves the others.
-/

namespace Monitor386

inductive View where
  /-- Bits 0 to 31. -/
  | full
  /-- Bits 0 to 15. -/
  | half
  /-- Bits 0 to 7. -/
  | lowByte
  /-- Bits 8 to 15. -/
  | highByte
  deriving DecidableEq, Repr

namespace View

/-- Position of the lowest bit of the field. -/
def offset : View → UInt32
  | highByte => 8
  | _ => 0

/-- The bits of the field, as a mask. -/
def mask : View → UInt32
  | full => 0xFFFFFFFF
  | half => 0xFFFF
  | lowByte => 0xFF
  | highByte => 0xFF00

/-- The bits of the field, moved to the low end. -/
def read (v : View) (w : UInt32) : UInt32 :=
  (w &&& v.mask) >>> v.offset

/-- The word with the low bits of `x` in the field; the higher bits of `x` are ignored. -/
def write (v : View) (w x : UInt32) : UInt32 :=
  (w &&& ~~~v.mask) ||| ((x <<< v.offset) &&& v.mask)

theorem and_ones (w : UInt32) : w &&& 0xFFFFFFFF = w := by
  apply UInt32.toBitVec_inj.1
  exact BitVec.and_allOnes

@[simp] theorem read_full (w : UInt32) : full.read w = w := by
  simp [read, mask, offset, and_ones]

@[simp] theorem write_full (w x : UInt32) : full.write w x = x := by
  have h : ~~~(0xFFFFFFFF : UInt32) = 0 := rfl
  simp [write, mask, offset, and_ones, h]

end View

end Monitor386
