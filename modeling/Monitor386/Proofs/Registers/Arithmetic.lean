import Mathlib
import Monitor386.Proofs.Registers.Flags
import Monitor386.Registers.Arithmetic

/-!
# What the flags tell

The flags are computed from bits of the operands and of the result. Here they are said in terms of the
numbers that the words stand for, without a sign or in two's complement.

* `signExtendByte_eq`: a byte of code as a signed displacement.
* `add_reports`, `sub_reports`: the flags after a sum and after a difference.
* `add_agrees`, `sub_agrees`, `inc_agrees`, `dec_agrees`: the bits that an operation leaves alone.
* `sub_compares`: what the flags of a difference tell of the order of its operands.
-/

namespace Monitor386

variable {a b w : UInt32} {e : Eflags}

/-! ## Numbers and bits -/

/-- The numbers that a word can hold in two's complement. -/
def FitsSigned (x : Int) : Prop :=
  -2 ^ 31 ≤ x ∧ x < 2 ^ 31

theorem toInt_eq (w : UInt32) :
    w.toInt32.toInt = if w.toNat < 2 ^ 31 then (w.toNat : Int) else w.toNat - 2 ^ 32 := by
  have h : w.toInt32.toInt = w.toBitVec.toInt := rfl
  rw [h, BitVec.toInt_eq_toNat_cond, UInt32.toNat_toBitVec]
  split_ifs <;> omega

theorem testBit_iff {k : Nat} : w.toNat.testBit k = true ↔ w.toNat / 2 ^ k % 2 = 1 := by
  rw [Nat.testBit_eq_decide_div_mod_eq, decide_eq_true_eq]

theorem topBit_iff : w.toNat.testBit 31 = true ↔ 2 ^ 31 ≤ w.toNat := by
  have hlt := w.toNat_lt
  rw [testBit_iff]
  omega

theorem testBit_xor_iff {k : Nat} : (a ^^^ b).toNat.testBit k = true ↔
    ¬ (a.toNat.testBit k = true ↔ b.toNat.testBit k = true) := by
  rw [UInt32.toNat_xor, Nat.testBit_xor]
  cases a.toNat.testBit k <;> cases b.toNat.testBit k <;> simp

theorem testBit_and_iff {k : Nat} : (a &&& b).toNat.testBit k = true ↔
    a.toNat.testBit k = true ∧ b.toNat.testBit k = true := by
  rw [UInt32.toNat_and, Nat.testBit_and, Bool.and_eq_true]

/-- The top bit is the sign. -/
theorem signBit_ne_zero : w &&& Eflags.signBit ≠ 0 ↔ w.toInt32.toInt < 0 := by
  have hlt := w.toNat_lt
  rw [and_mask_ne_zero (k := 31) rfl, topBit_iff, toInt_eq]
  split_ifs <;> omega

theorem evenParity_iff :
    evenParity w = true ↔ Even (Finset.card {i ∈ Finset.range 8 | w.toNat.testBit i = true}) := by
  have hcount : (List.range 8).countP (fun i => w.toNat.testBit i) =
      Finset.card {i ∈ Finset.range 8 | w.toNat.testBit i = true} := by
    rw [List.countP_eq_length_filter, Finset.card_def, Finset.filter_val, Finset.range_val,
      Multiset.range, Multiset.filter_coe, Multiset.coe_card]
    simp
  rw [evenParity, decide_eq_true_eq, hcount, Nat.even_iff]

/-- A byte is extended by its top bit. -/
theorem signExtendByte_eq (h : w.toNat < 256) :
    ((signExtendByte w).toNat : Int) = (w.toNat : Int).bmod 256 % 2 ^ 32 := by
  have htop : w &&& 0x80 ≠ 0 ↔ 128 ≤ w.toNat := by
    rw [and_mask_ne_zero (k := 7) rfl, testBit_iff]
    omega
  unfold signExtendByte
  rw [Int.bmod_def]
  by_cases hneg : 128 ≤ w.toNat
  · have hor : w.toNat ||| 0xFFFFFF00 = w.toNat + 0xFFFFFF00 := by
      rw [Nat.or_comm, Nat.add_comm]
      exact (Nat.shiftLeft_add_eq_or_of_lt (i := 8) h 0xFFFFFF).symm
    rw [if_pos (htop.mpr hneg), UInt32.toNat_or]
    show ((w.toNat ||| 0xFFFFFF00 : Nat) : Int) = _
    rw [hor]
    split_ifs <;> omega
  · have hand : w.toNat &&& 0xFF = w.toNat := by
      rw [Nat.and_two_pow_sub_one_eq_mod w.toNat 8]
      omega
    rw [if_neg (mt htop.mp hneg), UInt32.toNat_and]
    show ((w.toNat &&& 0xFF : Nat) : Int) = _
    rw [hand]
    split_ifs <;> omega

/-! ## Flags -/

namespace Eflags

/-- What the flags report of an operation with this result. -/
structure Reports (e : Eflags) (carry overflow adjust : Prop) (result : UInt32) : Prop where
  carry : e.get .carry = true ↔ carry
  overflow : e.get .overflow = true ↔ overflow
  adjust : e.get .adjust = true ↔ adjust
  zero : e.get .zero = true ↔ result = 0
  sign : e.get .sign = true ↔ result.toInt32.toInt < 0
  parity : e.get .parity = true ↔
    Even (Finset.card {i ∈ Finset.range 8 | result.toNat.testBit i = true})

/-- The flags that a counting instruction sets. -/
def counting : List Flag := [.parity, .adjust, .zero, .sign, .overflow]

/-- The flags that an arithmetic instruction sets. -/
def arithmetic : List Flag := .carry :: counting

/-- The result alone decides three flags, and the others stay. -/
theorem get_setResult (e : Eflags) (result : UInt32) (f : Flag) :
    (e.setResult result).get f =
      match f with
      | .zero => decide (result = 0)
      | .sign => decide (result &&& signBit ≠ 0)
      | .parity => evenParity result
      | f => e.get f := by
  cases f <;> simp [setResult, get_set]

/-- Flags that were set one by one, the last three from the result. -/
theorem Reports.of_setResult {carry overflow adjust : Prop} {result : UInt32}
    (hc : e.get .carry = true ↔ carry) (ho : e.get .overflow = true ↔ overflow)
    (ha : e.get .adjust = true ↔ adjust) :
    (e.setResult result).Reports carry overflow adjust result where
  carry := by rw [get_setResult]; exact hc
  overflow := by rw [get_setResult]; exact ho
  adjust := by rw [get_setResult]; exact ha
  zero := by rw [get_setResult, decide_eq_true_eq]
  sign := by rw [get_setResult, decide_eq_true_eq]; exact signBit_ne_zero
  parity := by rw [get_setResult]; exact evenParity_iff

theorem AgreesExcept.setResult {e e₁ : Eflags} {fs : List Flag} (h : AgreesExcept fs e e₁)
    (hsub : counting ⊆ fs) (result : UInt32) : AgreesExcept fs e (e₁.setResult result) :=
  ((h.set (hsub (by decide)) _).set (hsub (by decide)) _).set (hsub (by decide)) _

/-- The operands of a sum have one sign, and the sum has the other: it leaves the range. -/
theorem add_overflow (a b : UInt32) :
    (a ^^^ (a + b)) &&& (b ^^^ (a + b)) &&& signBit ≠ 0 ↔
      ¬ FitsSigned (a.toInt32.toInt + b.toInt32.toInt) := by
  have ha := a.toNat_lt
  have hb := b.toNat_lt
  rw [and_mask_ne_zero (k := 31) rfl, testBit_and_iff, testBit_xor_iff, testBit_xor_iff, topBit_iff,
    topBit_iff, topBit_iff, UInt32.toNat_add, toInt_eq, toInt_eq, FitsSigned]
  split_ifs <;> omega

theorem sub_overflow (a b : UInt32) :
    (a ^^^ b) &&& (a ^^^ (a - b)) &&& signBit ≠ 0 ↔
      ¬ FitsSigned (a.toInt32.toInt - b.toInt32.toInt) := by
  have ha := a.toNat_lt
  have hb := b.toNat_lt
  rw [and_mask_ne_zero (k := 31) rfl, testBit_and_iff, testBit_xor_iff, testBit_xor_iff, topBit_iff,
    topBit_iff, topBit_iff, UInt32.toNat_sub, toInt_eq, toInt_eq, FitsSigned]
  split_ifs <;> omega

/-- Bit 4 of the result differs from the sum of the bits 4 of the operands by the carry. -/
theorem add_adjust (a b : UInt32) :
    (a ^^^ b ^^^ (a + b)) &&& 0x10 ≠ 0 ↔ 16 ≤ a.toNat % 16 + b.toNat % 16 := by
  have hb := b.toNat_lt
  rw [and_mask_ne_zero (k := 4) rfl, testBit_xor_iff, testBit_xor_iff, testBit_iff, testBit_iff,
    testBit_iff, UInt32.toNat_add]
  omega

theorem sub_adjust (a b : UInt32) :
    (a ^^^ b ^^^ (a - b)) &&& 0x10 ≠ 0 ↔ a.toNat % 16 < b.toNat % 16 := by
  have hb := b.toNat_lt
  rw [and_mask_ne_zero (k := 4) rfl, testBit_xor_iff, testBit_xor_iff, testBit_iff, testBit_iff,
    testBit_iff, UInt32.toNat_sub]
  omega

theorem add_carry (a b : UInt32) : a + b < a ↔ 2 ^ 32 ≤ a.toNat + b.toNat := by
  have ha := a.toNat_lt
  have hb := b.toNat_lt
  rw [UInt32.lt_iff_toNat_lt, UInt32.toNat_add]
  omega

/-! ## Sums and differences -/

theorem add_reports (e : Eflags) (a b : UInt32) :
    (e.add a b).2.Reports (2 ^ 32 ≤ a.toNat + b.toNat)
      (¬ FitsSigned (a.toInt32.toInt + b.toInt32.toInt))
      (16 ≤ a.toNat % 16 + b.toNat % 16) (a + b) := by
  unfold add
  apply Reports.of_setResult
  · simp [get_set, add_carry]
  · simp only [get_set, reduceCtorEq, ↓reduceIte, decide_eq_true_eq]
    exact add_overflow a b
  · simp only [get_set, ↓reduceIte, decide_eq_true_eq]
    exact add_adjust a b

theorem sub_reports (e : Eflags) (a b : UInt32) :
    (e.sub a b).2.Reports (a.toNat < b.toNat)
      (¬ FitsSigned (a.toInt32.toInt - b.toInt32.toInt))
      (a.toNat % 16 < b.toNat % 16) (a - b) := by
  unfold sub
  apply Reports.of_setResult
  · simp [get_set, UInt32.lt_iff_toNat_lt]
  · simp only [get_set, reduceCtorEq, ↓reduceIte, decide_eq_true_eq]
    exact sub_overflow a b
  · simp only [get_set, ↓reduceIte, decide_eq_true_eq]
    exact sub_adjust a b

/-- The order of two signed numbers: the sign of their difference, the other way round if this leaves
the range. -/
theorem signed_lt_iff (a b : UInt32) :
    a.toInt32.toInt < b.toInt32.toInt ↔
      ¬ ((a - b).toInt32.toInt < 0 ↔ ¬ FitsSigned (a.toInt32.toInt - b.toInt32.toInt)) := by
  have ha := a.toNat_lt
  have hb := b.toNat_lt
  rw [toInt_eq a, toInt_eq b, toInt_eq (a - b), UInt32.toNat_sub, FitsSigned]
  split_ifs <;> omega

/-- What the flags after a difference tell of the operands. -/
theorem sub_compares (e : Eflags) (a b : UInt32) :
    ((e.sub a b).2.get .zero = true ↔ a = b) ∧
      ((e.sub a b).2.get .sign ≠ (e.sub a b).2.get .overflow ↔
        a.toInt32.toInt < b.toInt32.toInt) := by
  have h := e.sub_reports a b
  refine ⟨h.zero.trans sub_eq_zero, ?_⟩
  rw [signed_lt_iff, ← h.sign, ← h.overflow, ne_eq, Bool.eq_iff_iff]

/-! ## The other bits -/

theorem add_agrees (e : Eflags) (a b : UInt32) : AgreesExcept arithmetic e (e.add a b).2 := by
  apply AgreesExcept.setResult _ (by decide)
  exact (((AgreesExcept.refl _ e).set (by decide) _).set (by decide) _).set (by decide) _

theorem sub_agrees (e : Eflags) (a b : UInt32) : AgreesExcept arithmetic e (e.sub a b).2 := by
  apply AgreesExcept.setResult _ (by decide)
  exact (((AgreesExcept.refl _ e).set (by decide) _).set (by decide) _).set (by decide) _

theorem inc_agrees (e : Eflags) (a : UInt32) : AgreesExcept counting e (e.inc a).2 := by
  apply AgreesExcept.setResult _ (by decide)
  exact ((AgreesExcept.refl _ e).set (by decide) _).set (by decide) _

theorem dec_agrees (e : Eflags) (a : UInt32) : AgreesExcept counting e (e.dec a).2 := by
  apply AgreesExcept.setResult _ (by decide)
  exact ((AgreesExcept.refl _ e).set (by decide) _).set (by decide) _

end Eflags

end Monitor386
