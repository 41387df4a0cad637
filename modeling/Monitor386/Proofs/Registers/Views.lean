import Mathlib
import Monitor386.Proofs.Registers.Flags
import Monitor386.Registers.File

/-!
# Views of general registers

* `View.testBit_read`: reading a view gives the bits of its field.
* `View.testBit_write`: writing a view replaces the bits of its field, and no others.
* `Registers.get_set`: what a view of a register is after writing the same or another register.
-/

namespace Monitor386

/-! ## Bits of a view -/

namespace View

/-- Number of bits of the field. -/
def width : View → Nat
  | full => 32
  | half => 16
  | lowByte | highByte => 8

/-- The field is inside the word. -/
theorem bounds (v : View) : v.offset.toNat + v.width ≤ 32 := by
  cases v <;> decide

theorem testBit_mask (v : View) (k : Nat) :
    v.mask.toNat.testBit k =
      decide (v.offset.toNat ≤ k ∧ k < v.offset.toNat + v.width) := by
  have hbounds := v.bounds
  by_cases hk : k < 32
  · cases v <;> decide +revert
  · rw [testBit_of_le (not_lt.mp hk)]
    simp only [false_eq_decide_iff]
    omega

theorem testBit_read (v : View) (w : UInt32) (k : Nat) :
    (v.read w).toNat.testBit k =
      (decide (k < v.width) && w.toNat.testBit (v.offset.toNat + k)) := by
  have hoffset : v.offset.toNat % 32 = v.offset.toNat := by cases v <;> rfl
  rw [read, UInt32.toNat_shiftRight, hoffset, Nat.testBit_shiftRight, UInt32.toNat_and,
    Nat.testBit_and, testBit_mask, Bool.and_comm]
  congr 1
  simp

theorem testBit_write (v : View) (w x : UInt32) (k : Nat) :
    (v.write w x).toNat.testBit k =
      if v.offset.toNat ≤ k ∧ k < v.offset.toNat + v.width then
        x.toNat.testBit (k - v.offset.toNat)
      else w.toNat.testBit k := by
  have hbounds := v.bounds
  have hoffset : v.offset.toNat % 32 = v.offset.toNat := by cases v <;> rfl
  rw [write, UInt32.toNat_or, Nat.testBit_or, UInt32.toNat_and, Nat.testBit_and, testBit_not,
    UInt32.toNat_and, Nat.testBit_and, testBit_mask, UInt32.toNat_shiftLeft, hoffset,
    Nat.testBit_mod_two_pow, Nat.testBit_shiftLeft]
  by_cases hin : v.offset.toNat ≤ k ∧ k < v.offset.toNat + v.width
  · have hk : k < 32 := by omega
    simp [hin, hk]
  · by_cases hk : k < 32
    · simp [hin, hk]
    · simp [hin, hk, testBit_of_le (not_lt.mp hk)]

end View

/-! ## General registers -/

namespace Registers

/-- A view of a register reads from its word. -/
theorem get_eq_read (r : Registers) (slot : Fin 8) (view : View) :
    r.get slot view = view.read (r.get slot .full) := by
  simp [get]

theorem get_set (r : Registers) (slot slot' : Fin 8) (view view' : View) (x : UInt32) :
    (r.set slot view x).get slot' view' =
      if slot' = slot then view'.read (view.write (r.get slot .full) x) else r.get slot' view' := by
  unfold get set
  by_cases h : slot' = slot
  · simp [h]
  · have hne : slot.val ≠ slot'.val := fun h' => h (Fin.ext h'.symm)
    simp [h, hne]

@[simp] theorem get_set_self (r : Registers) (slot : Fin 8) (x : UInt32) :
    (r.set slot .full x).get slot .full = x := by
  simp [get_set]

theorem get_set_of_ne (r : Registers) {slot slot' : Fin 8} (h : slot' ≠ slot)
    (x : UInt32) : (r.set slot .full x).get slot' .full = r.get slot' .full := by
  simp [get_set, h]

@[simp] theorem set_get_self (r : Registers) (slot : Fin 8) :
    r.set slot .full (r.get slot .full) = r := by
  simp [set, get]

@[simp] theorem set_set (r : Registers) (slot : Fin 8) (x y : UInt32) :
    (r.set slot .full x).set slot .full y = r.set slot .full y := by
  simp [set]

theorem slot_eq_ok {index : Nat} {s : Fin 8} : slot index = .ok s ↔ index = s.val := by
  unfold slot
  constructor
  · intro h
    split at h
    · cases h
      rfl
    · cases h
  · rintro rfl
    simp

end Registers

end Monitor386
