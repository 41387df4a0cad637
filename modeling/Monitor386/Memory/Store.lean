import Std.Data.TreeMap

/-!
# Bytes in little-endian order

A `Store` gives a byte for every offset; the bytes that were never written are zero. Numbers are
spread over consecutive bytes with the lowest byte first: `number` puts bytes together and `spread`
takes a number apart.
-/

namespace Monitor386

/-- A byte for every offset, zero where none was written. -/
structure Store where
  bytes : Std.TreeMap Nat UInt8 := ∅

namespace Store

def empty : Store := {}

instance : Inhabited Store := ⟨empty⟩

def get (s : Store) (offset : Nat) : UInt8 :=
  s.bytes.getD offset 0

def set (s : Store) (offset : Nat) (b : UInt8) : Store :=
  ⟨s.bytes.insert offset b⟩

@[simp] theorem get_empty (offset : Nat) : empty.get offset = 0 := by
  simp [get, empty]

theorem get_set (s : Store) (i j : Nat) (b : UInt8) :
    (s.set i b).get j = if i = j then b else s.get j := by
  simp [get, set, Std.TreeMap.getD_insert]

/-- The `n` bytes from an offset on. -/
def slice (s : Store) (offset : Nat) : Nat → List UInt8
  | 0 => []
  | n + 1 => s.get offset :: s.slice (offset + 1) n

/-- Writes bytes from an offset on. -/
def splice (s : Store) (offset : Nat) : List UInt8 → Store
  | [] => s
  | b :: bs => (s.set offset b).splice (offset + 1) bs

@[simp] theorem length_slice (s : Store) (offset n : Nat) : (s.slice offset n).length = n := by
  induction n generalizing offset with
  | zero => rfl
  | succ n ih => simp [slice, ih]

theorem get_splice (s : Store) (offset : Nat) (bs : List UInt8) (j : Nat) :
    (s.splice offset bs).get j =
      if offset ≤ j then (bs[j - offset]?).getD (s.get j) else s.get j := by
  induction bs generalizing s offset with
  | nil => simp [splice]
  | cons b bs ih =>
    rw [splice, ih, get_set]
    by_cases h : offset = j
    · subst h
      have : ¬ offset + 1 ≤ offset := by omega
      simp [this]
    · by_cases hle : offset ≤ j
      · have h1 : offset + 1 ≤ j := by omega
        have h2 : j - offset = j - (offset + 1) + 1 := by omega
        simp [h, hle, h1, h2]
      · have h1 : ¬ offset + 1 ≤ j := by omega
        simp [h, hle, h1]

end Store

namespace LittleEndian

/-- The number whose bytes are given, the lowest first. -/
def number : List UInt8 → Nat
  | [] => 0
  | b :: bs => b.toNat + 256 * number bs

/-- The low `n` bytes of a number, the lowest first. -/
def spread : Nat → Nat → List UInt8
  | 0, _ => []
  | n + 1, w => UInt8.ofNat w :: spread n (w / 256)

@[simp] theorem length_spread (n w : Nat) : (spread n w).length = n := by
  induction n generalizing w with
  | zero => rfl
  | succ n ih => simp [spread, ih]

end LittleEndian

end Monitor386
