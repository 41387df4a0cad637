import Mathlib
import Monitor386.Registers.Eflags

/-!
# The bits of the flags register

A flag is one bit of the word, and setting a flag changes this bit alone.

* `testBit_set`: the bits of the word after setting a flag.
* `get_set`: what a flag is after setting the same or another one.
* `AgreesExcept`: two words differ at most in the bits of some flags.
-/

namespace Monitor386

variable {w mask : UInt32} {k : Nat}

/-! ## Bits of a word -/

theorem testBit_of_le (h : 32 ≤ k) : w.toNat.testBit k = false :=
  Nat.testBit_lt_two_pow (w.toNat_lt.trans_le (Nat.pow_le_pow_right (by decide) h))

theorem testBit_not (w : UInt32) (k : Nat) :
    (~~~w).toNat.testBit k = (decide (k < 32) && !w.toNat.testBit k) := by
  rw [← UInt32.toNat_toBitVec, UInt32.toBitVec_not, BitVec.testBit_toNat, BitVec.getLsbD_not,
    ← BitVec.testBit_toNat, UInt32.toNat_toBitVec]

/-- A mask of one bit tests this bit. -/
theorem and_mask_ne_zero (hmask : mask.toNat = 2 ^ k) :
    w &&& mask ≠ 0 ↔ w.toNat.testBit k = true := by
  rw [ne_eq, ← UInt32.toNat_inj, UInt32.toNat_and, hmask, Nat.and_two_pow]
  cases w.toNat.testBit k <;> simp

namespace Flag

theorem toNat_mask (f : Flag) : f.mask.toNat = 2 ^ f.bit.toNat := by
  cases f <;> rfl

theorem bit_lt (f : Flag) : f.bit.toNat < 32 := by
  cases f <;> decide

/-- Two flags have two bits. -/
theorem bit_injective {f g : Flag} (h : f.bit.toNat = g.bit.toNat) : f = g := by
  cases f <;> cases g <;> first | rfl | cases h

end Flag

namespace Eflags

variable {e e₁ e₂ : Eflags} {fs : List Flag}

theorem eq_of_testBit (h : ∀ k, e₁.word.toNat.testBit k = e₂.word.toNat.testBit k) : e₁ = e₂ := by
  obtain ⟨w₁⟩ := e₁
  obtain ⟨w₂⟩ := e₂
  exact congrArg _ (UInt32.toNat_inj.mp (Nat.eq_of_testBit_eq h))

/-! ## Setting a flag -/

theorem get_eq_testBit (e : Eflags) (f : Flag) : e.get f = e.word.toNat.testBit f.bit.toNat := by
  rw [Bool.eq_iff_iff, get, decide_eq_true_eq]
  exact and_mask_ne_zero f.toNat_mask

theorem testBit_set (e : Eflags) (f : Flag) (on : Bool) (k : Nat) :
    (e.set f on).word.toNat.testBit k =
      if k = f.bit.toNat then on else e.word.toNat.testBit k := by
  have hlt := f.bit_lt
  have hmask : f.mask.toNat.testBit k = decide (f.bit.toNat = k) := by
    rw [f.toNat_mask, Nat.testBit_two_pow]
  cases on with
  | true =>
    simp only [set, ↓reduceIte, UInt32.toNat_or, Nat.testBit_or, hmask]
    by_cases h : k = f.bit.toNat
    · simp [h]
    · simp [h, Ne.symm h]
  | false =>
    simp only [set, Bool.false_eq_true, ↓reduceIte, UInt32.toNat_and, Nat.testBit_and, testBit_not,
      hmask]
    by_cases h : k = f.bit.toNat
    · simp [h]
    · by_cases hk : k < 32
      · simp [h, Ne.symm h, hk]
      · simp [h, testBit_of_le (not_lt.mp hk)]

theorem get_set (e : Eflags) (f g : Flag) (on : Bool) :
    (e.set f on).get g = if g = f then on else e.get g := by
  rw [get_eq_testBit, testBit_set, get_eq_testBit]
  by_cases h : g = f
  · simp [h]
  · simp [h, mt Flag.bit_injective h]

/-! ## Words that differ in some flags -/

/-- The words have the same bits, but for those of the given flags. -/
def AgreesExcept (fs : List Flag) (e e' : Eflags) : Prop :=
  ∀ k, (∀ f ∈ fs, k ≠ f.bit.toNat) → e'.word.toNat.testBit k = e.word.toNat.testBit k

theorem AgreesExcept.refl (fs : List Flag) (e : Eflags) : AgreesExcept fs e e :=
  fun _ _ => rfl

theorem AgreesExcept.set (h : AgreesExcept fs e e₁) {f : Flag} (hf : f ∈ fs) (on : Bool) :
    AgreesExcept fs e (e₁.set f on) := by
  intro k hk
  rw [testBit_set, if_neg (hk f hf), h k hk]

end Eflags

end Monitor386
