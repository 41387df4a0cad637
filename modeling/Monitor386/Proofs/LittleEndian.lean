import Mathlib
import Monitor386.Memory.Store

/-!
# Little-endian numbers

* `number_spread`: putting the low `n` bytes of a number together gives the number modulo `256^n`.
* `spread_number`: taking a number apart gives back the bytes that it was put together from.
* `number_eq_sum`, `spread_eq_map`: both by the places of the bytes.
-/

namespace Monitor386.LittleEndian

theorem number_lt (bs : List UInt8) : number bs < 256 ^ bs.length := by
  induction bs with
  | nil => simp [number]
  | cons b bs ih =>
    have := b.toNat_lt
    simp only [number, List.length_cons, Nat.pow_succ]
    omega

theorem number_spread (n w : Nat) : number (spread n w) = w % 256 ^ n := by
  induction n generalizing w with
  | zero => simp [spread, number, Nat.mod_one]
  | succ n ih =>
    have hpow : 256 ^ (n + 1) = 256 * 256 ^ n := Nat.pow_succ'
    rw [hpow, Nat.mod_mul]
    simp [spread, number, ih]

theorem spread_number (bs : List UInt8) : spread bs.length (number bs) = bs := by
  induction bs with
  | nil => rfl
  | cons b bs ih =>
    have hb := b.toNat_lt
    have hdiv : (b.toNat + 256 * number bs) / 256 = number bs := by omega
    have hlow : UInt8.ofNat (b.toNat + 256 * number bs) = b := by
      apply UInt8.toNat_inj.1
      simp only [UInt8.toNat_ofNat']
      omega
    simp [spread, number, hdiv, hlow, ih]

/-! ## Places -/

theorem number_eq_sum (bs : List UInt8) :
    number bs = ∑ i ∈ Finset.range bs.length, (bs.getD i 0).toNat * 256 ^ i := by
  induction bs with
  | nil => rfl
  | cons b bs ih =>
    rw [List.length_cons, Finset.sum_range_succ', number, ih, Finset.mul_sum, add_comm]
    congr 1
    · refine Finset.sum_congr rfl fun i _ => ?_
      rw [List.getD_cons_succ, Nat.pow_succ]
      ring
    · simp

theorem spread_eq_map (n w : Nat) :
    spread n w = (List.range n).map fun i => UInt8.ofNat (w / 256 ^ i) := by
  induction n generalizing w with
  | zero => rfl
  | succ n ih =>
    rw [spread, ih, List.range_succ_eq_map, List.map_cons, List.map_map, Nat.pow_zero, Nat.div_one]
    refine congrArg _ (List.map_congr_left fun i _ => ?_)
    rw [Function.comp_apply, Nat.pow_succ', Nat.div_div_eq_div_mul]

end Monitor386.LittleEndian
