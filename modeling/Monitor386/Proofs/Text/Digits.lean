import Mathlib
import Monitor386.Text.Numeral

/-!
# Digits that are written and read back

* `value_toDigits`: the digits of a number denote it, in every base up to 16.
* `value_zeros`: zeros before the digits make no difference.
* `digit_toLower`: nor does the case of a letter.
* `exists_zeros`: all digits are zeros and the digits of the number that they denote.
-/

namespace Monitor386.Text

variable {base d n : Nat} {c : Char} {ds : List Char}

theorem digitValue_digitChar (h : d < 16) : digitValue d.digitChar = d := by
  have hall : ∀ d : Fin 16, digitValue d.val.digitChar = d := by decide
  exact hall ⟨d, h⟩

theorem isHexDigit_digitChar (h : d < 16) : isHexDigit d.digitChar = true := by
  have hall : ∀ d : Fin 16, isHexDigit d.val.digitChar = true := by decide
  exact hall ⟨d, h⟩

/-- The digits of a number denote it. -/
theorem value_toDigits (hbase : 1 < base) (hbase' : base ≤ 16) (n : Nat) :
    value base (Nat.toDigits base n) = n := by
  -- the last digit is the remainder, and the digits before it are those of the quotient
  induction n using Nat.strongRecOn with
  | _ n ih =>
    obtain hlt | hle := lt_or_ge n base
    · rw [Nat.toDigits_of_lt_base hlt]
      show 0 * base + digitValue n.digitChar = n
      rw [digitValue_digitChar (by omega)]
      omega
    · have hquot : n / base < n := Nat.div_lt_self (by omega) hbase
      have hrem : n % base < base := Nat.mod_lt n (by omega)
      rw [Nat.toDigits_of_base_le hbase hle, value_concat, ih _ hquot,
        digitValue_digitChar (by omega)]
      exact Nat.div_add_mod' n base

theorem isHexDigit_of_mem_toDigits (h : c ∈ Nat.toDigits 16 n) : isHexDigit c = true := by
  induction n using Nat.strongRecOn with
  | _ n ih =>
    obtain hlt | hle := lt_or_ge n 16
    · rw [Nat.toDigits_of_lt_base hlt, List.mem_singleton] at h
      rw [h, isHexDigit_digitChar hlt]
    · rw [Nat.toDigits_of_base_le (by decide) hle, List.mem_append, List.mem_singleton] at h
      obtain h | rfl := h
      · exact ih _ (by omega) h
      · exact isHexDigit_digitChar (Nat.mod_lt n (by decide))

/-- Zeros before the digits make no difference. -/
theorem value_zeros (base k : Nat) (ds : List Char) :
    value base (List.replicate k '0' ++ ds) = value base ds := by
  have hzero : digitValue '0' = 0 := rfl
  induction k with
  | zero => rfl
  | succ k ih =>
    rw [List.replicate_succ, List.cons_append, value, List.foldl_cons, hzero, Nat.zero_mul,
      Nat.zero_add]
    exact ih

theorem isHexDigit_zeros (k n : Nat) :
    ∀ c ∈ List.replicate k '0' ++ Nat.toDigits 16 n, isHexDigit c = true := by
  intro c hc
  obtain hc | hc := List.mem_append.mp hc
  · rw [List.eq_of_mem_replicate hc]
    decide
  · exact isHexDigit_of_mem_toDigits hc

theorem value_zeros_toDigits (hbase : 1 < base) (hbase' : base ≤ 16) (k n : Nat) :
    value base (List.replicate k '0' ++ Nat.toDigits base n) = n := by
  rw [value_zeros, value_toDigits hbase hbase']

/-- The digits of a word as it is printed: zeros, and then those of the number. -/
theorem toList_hexWord (w : UInt32) :
    ∃ k, (hexWord w).toList = '0' :: 'x' :: (List.replicate k '0' ++ Nat.toDigits 16 w.toNat) := by
  refine ⟨8 - (hex w.toNat).length, ?_⟩
  simp only [hexWord, alignRight, hex, String.toList_append, String.toList_ofList]
  rfl

/-! ## The digits of a text -/

/-- An ASCII character has what each of the 128 code points has. -/
theorem of_ascii {P : Char → Prop} (hall : ∀ n : Fin 128, P (Char.ofNat n)) (hc : c.toNat < 128) : P c :=
  Char.ofNat_toNat c ▸ hall ⟨c.toNat, hc⟩

/-- The letter case of a digit makes no difference to it. -/
theorem digit_toLower (c : Char) :
    isHexDigit c.toLower = isHexDigit c ∧ digitValue c.toLower = digitValue c := by
  by_cases hc : c.toNat < 128
  · exact of_ascii (P := fun c => isHexDigit c.toLower = isHexDigit c ∧
      digitValue c.toLower = digitValue c) (by decide) hc
  · -- only ASCII letters are upper case
    have hsame : c.toLower = c := by
      rw [Char.toLower, dif_neg]
      rintro ⟨-, hle⟩
      have hle : c.toNat ≤ 90 := hle
      omega
    rw [hsame]
    exact ⟨rfl, rfl⟩

theorem value_toLower (base : Nat) (ds : List Char) : value base (ds.map Char.toLower) = value base ds := by
  simp only [value, List.foldl_map, (digit_toLower _).2]

theorem isHexDigit_of_map_toLower (h : ∀ c ∈ ds.map Char.toLower, isHexDigit c = true) :
    ∀ c ∈ ds, isHexDigit c = true := by
  intro c hc
  rw [← (digit_toLower c).1]
  exact h _ (List.mem_map_of_mem hc)

theorem lt_of_isHexDigit (h : isHexDigit c = true) : c.toNat < 128 := by
  have hval : c.toNat = c.val.toNat := rfl
  simp only [isHexDigit, Char.isDigit, Bool.or_eq_true, Bool.and_eq_true, decide_eq_true_eq, ge_iff_le,
    Char.le_def, UInt32.le_iff_toNat_le, Char.reduceVal, UInt32.reduceToNat] at h
  omega

/-- A lower case digit is the digit of its value. -/
theorem digitChar_digitValue (h : isHexDigit c = true) :
    digitValue c < 16 ∧ (digitValue c).digitChar = c.toLower :=
  of_ascii (P := fun c => isHexDigit c = true → digitValue c < 16 ∧
    (digitValue c).digitChar = c.toLower) (by decide) (lt_of_isHexDigit h) h

theorem isHexDigit_of_isDigit (h : c.isDigit = true) : isHexDigit c = true := by
  rw [isHexDigit, h, Bool.true_or, Bool.true_or]

theorem digitChar_of_isDigit (h : c.isDigit = true) :
    digitValue c < 10 ∧ (digitValue c).digitChar = c :=
  of_ascii (P := fun c => c.isDigit = true → digitValue c < 10 ∧ (digitValue c).digitChar = c)
    (by decide) (lt_of_isHexDigit (isHexDigit_of_isDigit h)) h

/-- Digits are zeros and the digits of the number that they denote. -/
theorem exists_zeros (hbase : 1 < base) (hne : ds ≠ [])
    (hds : ∀ c ∈ ds, digitValue c < base ∧ (digitValue c).digitChar = c) :
    ∃ k, ds = List.replicate k '0' ++ Nat.toDigits base (value base ds) := by
  -- the last digit is the remainder, and the digits before it are those of the quotient or all zeros
  induction ds using List.reverseRecOn with
  | nil => exact absurd rfl hne
  | append_singleton ds c ih =>
    obtain ⟨hlt, hc⟩ := hds c (List.mem_append_right _ (List.mem_singleton_self c))
    have hlast : ∀ k, value base (List.replicate k '0' ++ [c]) = digitValue c := by
      intro k
      rw [value_zeros]
      exact (congrArg (· + digitValue c) (Nat.zero_mul base)).trans (Nat.zero_add _)
    have hzeros : ∀ k, List.replicate k '0' ++ [c] =
        List.replicate k '0' ++ Nat.toDigits base (value base (List.replicate k '0' ++ [c])) := by
      intro k
      rw [hlast, Nat.toDigits_of_lt_base hlt, hc]
    obtain rfl | hds' := eq_or_ne ds []
    · exact ⟨0, hzeros 0⟩
    obtain ⟨k, hk⟩ := ih hds' fun c hc => hds c (List.mem_append_left _ hc)
    obtain hzero | hpos := Nat.eq_zero_or_pos (value base ds)
    · rw [hzero, Nat.toDigits_zero, ← List.replicate_succ'] at hk
      rw [hk]
      exact ⟨k + 1, hzeros (k + 1)⟩
    · refine ⟨k, ?_⟩
      have hle : base ≤ value base ds * base + digitValue c :=
        (Nat.le_mul_of_pos_left base hpos).trans (Nat.le_add_right _ _)
      have hquot : (value base ds * base + digitValue c) / base = value base ds := by
        rw [Nat.mul_comm, Nat.mul_add_div (by omega), Nat.div_eq_of_lt hlt, Nat.add_zero]
      have hrem : (value base ds * base + digitValue c) % base = digitValue c := by
        rw [Nat.mul_add_mod_self_right, Nat.mod_eq_of_lt hlt]
      rw [value_concat, Nat.toDigits_of_base_le hbase hle, hquot, hrem, hc, ← List.append_assoc, ← hk]

end Monitor386.Text
