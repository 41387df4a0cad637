/-!
# Blank characters

The characters with the Unicode property White_Space, and the cuts that command lines and
expressions make at them. A text is a list of characters here.
-/

namespace Monitor386.Text

/-- The property White_Space: 25 code points. -/
def isBlank (c : Char) : Bool :=
  let n := c.toNat
  (0x9 ≤ n && n ≤ 0xD) || n == 0x20 || n == 0x85 || n == 0xA0 || n == 0x1680 ||
    (0x2000 ≤ n && n ≤ 0x200A) || n == 0x2028 || n == 0x2029 || n == 0x202F || n == 0x205F ||
    n == 0x3000

/-- The text without the blanks at its start. -/
def trimStart (cs : List Char) : List Char :=
  cs.dropWhile isBlank

/-- The text without the blanks at its end. -/
def trimEnd (cs : List Char) : List Char :=
  (cs.reverse.dropWhile isBlank).reverse

/-- The text without the blanks at its two ends. -/
def trim (cs : List Char) : List Char :=
  trimEnd (trimStart cs)

/-- What stands before and after the first blank, which belongs to neither part. -/
def splitAtBlank? : List Char → Option (List Char × List Char)
  | [] => none
  | c :: cs =>
    if isBlank c then some ([], cs)
    else (splitAtBlank? cs).map fun (word, rest) => (c :: word, rest)

/-- Number of bytes of the text in UTF-8. -/
def byteSize (cs : List Char) : Nat :=
  cs.foldr (fun c n => c.utf8Size + n) 0

theorem splitAtBlank?_eq_none_iff {cs : List Char} :
    splitAtBlank? cs = none ↔ ∀ c ∈ cs, isBlank c = false := by
  induction cs with
  | nil => simp [splitAtBlank?]
  | cons c cs ih => by_cases h : isBlank c <;> simp [splitAtBlank?, h, ih]

end Monitor386.Text
