import Monitor386.Text.Blank

/-!
# Texts of bounded size

A buffer of `n` bytes holds a text of at most `n` bytes of UTF-8. `fill` puts as much of a text
into it as fits: whole characters from the start, up to the first that does not fit.
-/

namespace Monitor386.Text

/-- The characters from the start of the text up to the first that does not fit in `n` bytes. -/
def takeBytes (n : Nat) : List Char → List Char
  | [] => []
  | c :: cs => if c.utf8Size ≤ n then c :: takeBytes (n - c.utf8Size) cs else []

@[simp] theorem byteSize_nil : byteSize [] = 0 := rfl

@[simp] theorem byteSize_cons (c : Char) (cs : List Char) :
    byteSize (c :: cs) = c.utf8Size + byteSize cs := rfl

theorem byteSize_takeBytes_le (n : Nat) (cs : List Char) : byteSize (takeBytes n cs) ≤ n := by
  induction cs generalizing n with
  | nil => simp [takeBytes]
  | cons c cs ih =>
    unfold takeBytes
    split
    · have := ih (n - c.utf8Size)
      simp only [byteSize_cons]
      omega
    · simp

theorem takeBytes_start (n : Nat) (cs : List Char) : takeBytes n cs <+: cs := by
  induction cs generalizing n with
  | nil => simp [takeBytes]
  | cons c cs ih =>
    unfold takeBytes
    split
    · simp [List.cons_prefix_cons, ih]
    · exact List.nil_prefix

/-- A text of at most `capacity` bytes. -/
structure Bounded (capacity : Nat) where
  chars : List Char
  byteSize_le : byteSize chars ≤ capacity
  deriving DecidableEq

namespace Bounded

variable {capacity : Nat}

def empty : Bounded capacity := ⟨[], Nat.zero_le _⟩

instance : Inhabited (Bounded capacity) := ⟨empty⟩

/-- The longest start of the text that fits. -/
def fill (cs : List Char) : Bounded capacity :=
  ⟨takeBytes capacity cs, byteSize_takeBytes_le capacity cs⟩

/-- The whole text, if it fits. -/
def ofChars? (cs : List Char) : Option (Bounded capacity) :=
  if h : byteSize cs ≤ capacity then some ⟨cs, h⟩ else none

def text (b : Bounded capacity) : String :=
  String.ofList b.chars

@[simp] theorem chars_empty : (empty : Bounded capacity).chars = [] := rfl

@[simp] theorem chars_fill (cs : List Char) :
    (fill cs : Bounded capacity).chars = takeBytes capacity cs := rfl

end Bounded

end Monitor386.Text
