/-!
# Numerals

Numbers in the output are decimal, or hexadecimal in lower case, often padded to a column. Numbers
in the input are digit strings of any length: `value` is the number that a digit string denotes,
and the bounded readers refuse what does not fit.
-/

namespace Monitor386.Text

/-- The width of a column: it has 16 bits. -/
def width? (n : Nat) : Option UInt16 :=
  if n < UInt16.size then some (UInt16.ofNat n) else none

/-- The text in a column of `width` characters, with the padding on its left. -/
def alignRight (width : UInt16) (pad : Char) (s : String) : String :=
  String.ofList (List.replicate (width.toNat - s.length) pad) ++ s

/-- The text in a column of `width` characters, with blanks on its right. -/
def alignLeft (width : UInt16) (s : String) : String :=
  s ++ String.ofList (List.replicate (width.toNat - s.length) ' ')

/-- The hexadecimal numeral of a number, in lower case and without leading zeros. -/
def hex (n : Nat) : String :=
  String.ofList (Nat.toDigits 16 n)

/-- The two hexadecimal digits of a byte. -/
def hexByte (b : UInt8) : String :=
  alignRight 2 '0' (hex b.toNat)

/-- A word as the monitor prints it: `0x` and eight hexadecimal digits. -/
def hexWord (w : UInt32) : String :=
  "0x" ++ alignRight 8 '0' (hex w.toNat)

/-- Value of a decimal or hexadecimal digit in either case. -/
def digitValue (c : Char) : Nat :=
  if c.isDigit then c.toNat - '0'.toNat
  else if c.isUpper then c.toNat - 'A'.toNat + 10
  else c.toNat - 'a'.toNat + 10

def isHexDigit (c : Char) : Bool :=
  c.isDigit || ('a' ≤ c && c ≤ 'f') || ('A' ≤ c && c ≤ 'F')

/-- The number that a digit string denotes in a base. -/
def value (base : Nat) (digits : List Char) : Nat :=
  digits.foldl (fun n c => n * base + digitValue c) 0

/-- The number that a digit string denotes, if it fits in a word. -/
def word? (base : Nat) (digits : List Char) : Option UInt32 :=
  let n := value base digits
  if n < UInt32.size then some (UInt32.ofNat n) else none

/-- An argument that counts or numbers something: decimal digits after an optional plus sign,
below 2^64. -/
def count? (cs : List Char) : Option Nat :=
  let digits := if cs.head? = some '+' then cs.tail else cs
  let n := value 10 digits
  if digits ≠ [] ∧ digits.all Char.isDigit ∧ n < UInt64.size then some n else none

theorem width?_eq_none_iff {n : Nat} : width? n = none ↔ UInt16.size ≤ n := by
  simp [width?]

theorem value_concat (base : Nat) (digits : List Char) (c : Char) :
    value base (digits ++ [c]) = value base digits * base + digitValue c := by
  simp [value]

end Monitor386.Text
