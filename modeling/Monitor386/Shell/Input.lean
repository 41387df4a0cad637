/-!
# Lines of input

The input is a row of bytes. A line ends with a line feed, or with a carriage return and a line
feed; the last line may lack its end. A line that is not UTF-8 has no text.
-/

namespace Monitor386.Shell

/-- Cuts bytes after each line feed. `line` holds the bytes of the current line, backwards. -/
def cutLines (line : List UInt8) : List UInt8 → List (List UInt8)
  | [] => if line.isEmpty then [] else [line.reverse]
  | b :: bs => if b = 10 then (b :: line).reverse :: cutLines [] bs else cutLines (b :: line) bs

/-- A line without its end. -/
def dropLineEnd (line : List UInt8) : List UInt8 :=
  match line.reverse with
  | 10 :: 13 :: rest => rest.reverse
  | 10 :: rest => rest.reverse
  | _ => line

/-- The text of a line, if it is UTF-8. -/
def lineText? (line : List UInt8) : Option (List Char) :=
  (String.fromUTF8? ⟨(dropLineEnd line).toArray⟩).map String.toList

/-- The lines of an input, each as its text. -/
def inputLines (bytes : List UInt8) : List (Option (List Char)) :=
  (cutLines [] bytes).map lineText?

end Monitor386.Shell
