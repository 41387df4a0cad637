import Monitor386.Registers.Eflags

/-!
# Arithmetic and its flags

Addition and subtraction of words, and the flags that they set: carry and borrow, signed overflow,
the carry out of the low four bits, and what the result alone tells.
-/

namespace Monitor386

/-- The low byte of a word, read as a signed number. -/
def signExtendByte (w : UInt32) : UInt32 :=
  if w &&& 0x80 ≠ 0 then w ||| 0xFFFFFF00 else w &&& 0xFF

/-- True if the low byte of the word has an even number of ones. -/
def evenParity (w : UInt32) : Bool :=
  (List.range 8).countP (fun i => w.toNat.testBit i) % 2 = 0

namespace Eflags

/-- The top bit of a word, which is the sign of a signed number. -/
def signBit : UInt32 := 0x80000000

/-- The flags that the result of an operation determines. -/
def setResult (e : Eflags) (result : UInt32) : Eflags :=
  ((e.set .zero (result = 0)).set .sign (result &&& signBit ≠ 0)).set .parity (evenParity result)

/-- The sum of two words and the flags after computing it. -/
def add (e : Eflags) (a b : UInt32) : UInt32 × Eflags :=
  let result := a + b
  let e := e.set .carry (result < a)
  let e := e.set .overflow ((a ^^^ result) &&& (b ^^^ result) &&& signBit ≠ 0)
  let e := e.set .adjust ((a ^^^ b ^^^ result) &&& 0x10 ≠ 0)
  (result, e.setResult result)

/-- The difference of two words and the flags after computing it. -/
def sub (e : Eflags) (a b : UInt32) : UInt32 × Eflags :=
  let result := a - b
  let e := e.set .carry (a < b)
  let e := e.set .overflow ((a ^^^ b) &&& (a ^^^ result) &&& signBit ≠ 0)
  let e := e.set .adjust ((a ^^^ b ^^^ result) &&& 0x10 ≠ 0)
  (result, e.setResult result)

/-- The successor of a word and the flags after computing it; the carry is kept. -/
def inc (e : Eflags) (a : UInt32) : UInt32 × Eflags :=
  let result := a + 1
  let e := e.set .overflow (result = 0x80000000)
  let e := e.set .adjust (result &&& 0xF = 0)
  (result, e.setResult result)

/-- The predecessor of a word and the flags after computing it; the carry is kept. -/
def dec (e : Eflags) (a : UInt32) : UInt32 × Eflags :=
  let result := a - 1
  let e := e.set .overflow (result = 0x7FFFFFFF)
  let e := e.set .adjust (result &&& 0xF = 0xF)
  (result, e.setResult result)

end Eflags

end Monitor386
