import Mathlib
import Monitor386.Text.Bounded

/-!
# Texts that fit into a buffer

* `byteSize_append`, `utf8ByteSize_eq`: the size of a text in bytes.
* `takeBytes_of_le`: of a text that fits nothing is cut.
* `chars_fill_of_length`: a text fits if the buffer has four bytes for each character.
-/

namespace Monitor386.Text

variable {cs : List Char} {n capacity : Nat}

theorem byteSize_append (cs ds : List Char) :
    byteSize (cs ++ ds) = byteSize cs + byteSize ds := by
  induction cs with
  | nil => simp
  | cons c cs ih => rw [List.cons_append, byteSize_cons, byteSize_cons, ih, Nat.add_assoc]

theorem utf8ByteSize_eq (cs : List Char) : (String.ofList cs).utf8ByteSize = byteSize cs := by
  rw [String.utf8ByteSize_ofList]
  induction cs with
  | nil => rfl
  | cons c cs ih => rw [String.utf8Len_cons, byteSize_cons, ih, Nat.add_comm]

theorem takeBytes_of_le (h : byteSize cs ≤ n) : takeBytes n cs = cs := by
  induction cs generalizing n with
  | nil => rfl
  | cons c cs ih =>
    rw [byteSize_cons] at h
    rw [takeBytes, if_pos (by omega), ih (by omega)]

/-- No character takes more than four bytes. -/
theorem byteSize_le (cs : List Char) : byteSize cs ≤ 4 * cs.length := by
  induction cs with
  | nil => simp
  | cons c cs ih =>
    have := c.utf8Size_le_four
    simp only [byteSize_cons, List.length_cons]
    omega

theorem chars_fill_of_length (h : 4 * cs.length ≤ capacity) :
    (Bounded.fill cs : Bounded capacity).chars = cs :=
  takeBytes_of_le ((byteSize_le cs).trans h)

end Monitor386.Text
