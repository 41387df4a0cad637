import Mathlib
import Monitor386.Proofs.Registers.Flags

/-!
# The fields of the flags register

The word holds ten flags of one bit each and the privilege level, which has two bits. The bits 1, 3, 5 and 15 to
31 belong to no field (`Reserved`).

* `get_set`, `get_setIopl`, `iopl_set`, `iopl_setIopl`: what each field is after setting any of them.
* `eq_of_fields`: words with the same fields and the same reserved bits are the same.
* `assignAll_fields`: after a row of settings each field holds what was last set.
-/

namespace Monitor386

variable {k : Nat}

/-- Bits that belong to no field. -/
def Eflags.Reserved (k : Nat) : Prop :=
  k ∈ [1, 3, 5] ∨ 15 ≤ k ∧ k ≤ 31

instance (k : Nat) : Decidable (Eflags.Reserved k) :=
  inferInstanceAs (Decidable (_ ∨ _))

namespace Flag

/-- The flags are around the privilege level, which is in the bits 12 and 13. -/
theorem bit_outside_iopl (f : Flag) : f.bit.toNat < 12 ∨ f.bit.toNat = 14 := by
  cases f <;> decide

theorem not_reserved (f : Flag) : ¬ Eflags.Reserved f.bit.toNat := by
  cases f <;> decide

/-- Every other bit below 15 is a flag. -/
theorem exists_bit (hlt : k < 15) (hk : k ∉ [1, 3, 5, 12, 13]) : ∃ f : Flag, f.bit.toNat = k := by
  have hall : ∀ k < 15, k ∉ [1, 3, 5, 12, 13] → ∃ f ∈ [carry, parity, adjust, zero, sign, trap, interrupt,
      direction, overflow, nestedTask], f.bit.toNat = k := by decide
  obtain ⟨f, -, hf⟩ := hall k hlt hk
  exact ⟨f, hf⟩

end Flag

namespace Eflags

/-! ## The privilege level -/

theorem testBit_ioplMask (k : Nat) : ioplMask.toNat.testBit k = decide (12 ≤ k ∧ k < 14) := by
  by_cases hk : k < 32
  · decide +revert
  · rw [testBit_of_le (not_lt.mp hk)]
    simp only [false_eq_decide_iff]
    omega

theorem testBit_three (k : Nat) : (0b11 : UInt32).toNat.testBit k = decide (k < 2) := by
  show (2 ^ 2 - 1).testBit k = _
  exact Nat.testBit_two_pow_sub_one 2 k

theorem testBit_iopl (e : Eflags) (k : Nat) :
    e.iopl.toNat.testBit k = (decide (k < 2) && e.word.toNat.testBit (12 + k)) := by
  have hoffset : ioplBit.toNat % 32 = 12 := rfl
  rw [iopl, UInt32.toNat_shiftRight, hoffset, Nat.testBit_shiftRight, UInt32.toNat_and, Nat.testBit_and,
    testBit_ioplMask, Bool.and_comm]
  congr 1
  exact decide_eq_decide.mpr (by omega)

theorem testBit_setIopl (e : Eflags) (level : UInt32) (k : Nat) :
    (e.setIopl level).word.toNat.testBit k =
      if 12 ≤ k ∧ k < 14 then level.toNat.testBit (k - 12) else e.word.toNat.testBit k := by
  have hoffset : ioplBit.toNat % 32 = 12 := rfl
  rw [setIopl, UInt32.toNat_or, Nat.testBit_or, UInt32.toNat_and, Nat.testBit_and, testBit_not,
    testBit_ioplMask, UInt32.toNat_shiftLeft, hoffset, Nat.testBit_mod_two_pow, Nat.testBit_shiftLeft,
    UInt32.toNat_and, Nat.testBit_and, testBit_three]
  have hlevel : (decide (k ≥ 12) && (level.toNat.testBit (k - 12) && decide (k - 12 < 2))) =
      (decide (12 ≤ k ∧ k < 14) && level.toNat.testBit (k - 12)) := by
    rw [Bool.and_comm (level.toNat.testBit _), ← Bool.and_assoc, ← Bool.decide_and]
    congr 1
    exact decide_eq_decide.mpr (by omega)
  rw [hlevel]
  by_cases hin : 12 ≤ k ∧ k < 14
  · have hk : k < 32 := by omega
    simp [hin, hk]
  · by_cases hk : k < 32
    · simp [hin, hk]
    · simp [hin, hk, testBit_of_le (not_lt.mp hk)]

/-! ## Setting another field -/

theorem get_setIopl (e : Eflags) (level : UInt32) (f : Flag) : (e.setIopl level).get f = e.get f := by
  have hout := f.bit_outside_iopl
  rw [get_eq_testBit, testBit_setIopl, if_neg (by omega), get_eq_testBit]

theorem iopl_set (e : Eflags) (f : Flag) (on : Bool) : (e.set f on).iopl = e.iopl := by
  have hout := f.bit_outside_iopl
  refine UInt32.toNat_inj.mp (Nat.eq_of_testBit_eq fun k => ?_)
  rw [testBit_iopl, testBit_iopl, testBit_set]
  by_cases hk : k < 2
  · rw [if_neg (by omega)]
  · simp [hk]

/-- The level is taken modulo 4. -/
theorem iopl_setIopl (e : Eflags) (level : UInt32) : (e.setIopl level).iopl = level % 4 := by
  refine UInt32.toNat_inj.mp (Nat.eq_of_testBit_eq fun k => ?_)
  rw [testBit_iopl, testBit_setIopl, UInt32.toNat_mod]
  show _ = (level.toNat % 2 ^ 2).testBit k
  rw [Nat.testBit_mod_two_pow]
  by_cases hk : k < 2
  · rw [if_pos (by omega), Nat.add_sub_cancel_left]
  · simp [hk]

/-! ## Words and their fields -/

/-- A word is its fields and its reserved bits. -/
theorem eq_of_fields {e e' : Eflags} (hget : ∀ f, e'.get f = e.get f) (hiopl : e'.iopl = e.iopl)
    (hreserved : ∀ k, Reserved k → e'.word.toNat.testBit k = e.word.toNat.testBit k) : e' = e := by
  apply eq_of_testBit
  intro k
  by_cases hr : Reserved k
  · exact hreserved k hr
  by_cases hlevel : 12 ≤ k ∧ k < 14
  · obtain ⟨j, rfl⟩ := Nat.exists_eq_add_of_le hlevel.1
    have hj : j < 2 := by omega
    have hbit := congrArg (fun w : UInt32 => w.toNat.testBit j) hiopl
    simpa [testBit_iopl, hj] using hbit
  have hout : k ∉ [1, 3, 5, 12, 13] ∧ ¬ (15 ≤ k ∧ k ≤ 31) := by
    simp only [Reserved, List.mem_cons, List.not_mem_nil, or_false] at hr ⊢
    omega
  by_cases hlt : k < 15
  · obtain ⟨f, rfl⟩ := Flag.exists_bit hlt hout.1
    rw [← get_eq_testBit, ← get_eq_testBit, hget]
  · rw [testBit_of_le (by omega), testBit_of_le (by omega)]

/-! ## Rows of settings -/

inductive Field where
  | flag (f : Flag)
  | iopl
  deriving DecidableEq

/-- A write to one field. -/
inductive Setting where
  | flag (f : Flag) (on : Bool)
  | iopl (level : UInt32)

namespace Setting

def field : Setting → Field
  | flag f _ => .flag f
  | iopl _ => .iopl

/-- What is written to a flag. -/
def on? (f : Flag) : Setting → Option Bool
  | flag g on => if g = f then some on else none
  | iopl _ => none

/-- What is written to the privilege level. -/
def level? : Setting → Option UInt32
  | flag _ _ => none
  | iopl level => some level

end Setting

def assign (e : Eflags) : Setting → Eflags
  | .flag f on => e.set f on
  | .iopl level => e.setIopl level

def assignAll (e : Eflags) (ss : List Setting) : Eflags :=
  ss.foldl assign e

theorem get_assign (e : Eflags) (s : Setting) (f : Flag) :
    (e.assign s).get f = (s.on? f).getD (e.get f) := by
  cases s with
  | flag g on =>
    rw [assign, get_set, Setting.on?]
    by_cases h : g = f
    · simp [h]
    · simp [h, Ne.symm h]
  | iopl level => exact get_setIopl e level f

theorem iopl_assign (e : Eflags) (s : Setting) :
    (e.assign s).iopl = s.level?.elim e.iopl (· % 4) := by
  cases s with
  | flag f on => exact iopl_set e f on
  | iopl level => exact iopl_setIopl e level

theorem testBit_assign (e : Eflags) (s : Setting) (hk : Reserved k) :
    (e.assign s).word.toNat.testBit k = e.word.toNat.testBit k := by
  cases s with
  | flag f on =>
    have hne : k ≠ f.bit.toNat := fun h => f.not_reserved (h ▸ hk)
    rw [assign, testBit_set, if_neg hne]
  | iopl level =>
    have hout : ¬ (12 ≤ k ∧ k < 14) := by
      simp only [Reserved, List.mem_cons, List.not_mem_nil, or_false] at hk
      omega
    rw [assign, testBit_setIopl, if_neg hout]

/-! ## After a row of settings -/

theorem assignAll_concat (e : Eflags) (ss : List Setting) (s : Setting) :
    e.assignAll (ss ++ [s]) = (e.assignAll ss).assign s :=
  List.foldl_concat ..

theorem get_assignAll (e : Eflags) (ss : List Setting) (f : Flag) :
    (e.assignAll ss).get f = (ss.filterMap (·.on? f)).getLast?.getD (e.get f) := by
  -- by induction on the last setting, which decides if it is one of the flag
  induction ss using List.reverseRecOn with
  | nil => rfl
  | append_singleton ss s ih =>
    rw [assignAll_concat, get_assign, ih, List.filterMap_append, List.getLast?_append]
    cases h : s.on? f <;> simp [h]

theorem iopl_assignAll (e : Eflags) (ss : List Setting) :
    (e.assignAll ss).iopl = (ss.filterMap (·.level?)).getLast?.elim e.iopl (· % 4) := by
  induction ss using List.reverseRecOn with
  | nil => rfl
  | append_singleton ss s ih =>
    rw [assignAll_concat, iopl_assign, ih, List.filterMap_append, List.getLast?_append]
    cases h : s.level? <;> simp [h]

theorem testBit_assignAll (e : Eflags) (ss : List Setting) (hk : Reserved k) :
    (e.assignAll ss).word.toNat.testBit k = e.word.toNat.testBit k := by
  induction ss using List.reverseRecOn with
  | nil => rfl
  | append_singleton ss s ih => rw [assignAll_concat, testBit_assign _ _ hk, ih]

/-- Settings of different fields commute. -/
theorem assign_comm {s t : Setting} (e : Eflags) (h : s.field ≠ t.field) :
    (e.assign s).assign t = (e.assign t).assign s := by
  apply eq_of_fields
  · intro f
    simp only [get_assign]
    cases s <;> cases t <;> simp only [Setting.on?, Option.getD_none]
    rename_i g _ g' _
    have hne : g ≠ g' := fun heq => h (congrArg Field.flag heq)
    split_ifs with h₁ h₂ <;> first | rfl | exact absurd (h₂.trans h₁.symm) hne
  · simp only [iopl_assign]
    cases s <;> cases t <;> first | rfl | exact absurd rfl h
  · intro k hk
    simp only [testBit_assign _ _ hk]

/-- After a row of settings, each flag is what it was last set to, the privilege level is the last level modulo
4, and what was never set is as it was before, like all bits that belong to no field. Settings of different
fields commute, and a word is its fields and its reserved bits. -/
theorem assignAll_fields (e : Eflags) (ss : List Setting) :
    (∀ f, (e.assignAll ss).get f = (ss.filterMap (·.on? f)).getLast?.getD (e.get f)) ∧
    (e.assignAll ss).iopl = (ss.filterMap (·.level?)).getLast?.elim e.iopl (· % 4) ∧
    (∀ k, Reserved k → (e.assignAll ss).word.toNat.testBit k = e.word.toNat.testBit k) ∧
    (∀ s t : Setting, s.field ≠ t.field → (e.assign s).assign t = (e.assign t).assign s) ∧
    (∀ e' : Eflags, (∀ f, e'.get f = e.get f) → e'.iopl = e.iopl →
      (∀ k, Reserved k → e'.word.toNat.testBit k = e.word.toNat.testBit k) → e' = e) := by
  refine ⟨get_assignAll e ss, iopl_assignAll e ss, fun k hk => testBit_assignAll e ss hk, ?_, ?_⟩
  · exact fun s t h => e.assign_comm h
  · exact fun e' hget hiopl hreserved => eq_of_fields hget hiopl hreserved

/-- Six is the level 2, and setting it leaves the flags on both sides alone. -/
theorem assignAll_fields_level :
    let e : Eflags := ⟨0xFFFFFFFF⟩
    let level : Setting := .iopl 6
    let nested : Setting := .flag .nestedTask true
    let ss : List Setting := [.iopl 3, .flag .nestedTask false, level, nested, .flag .overflow false]
    (e.assignAll ss).get .nestedTask = true ∧ (e.assignAll ss).get .overflow = false ∧
    (e.assignAll ss).get .carry = true ∧ (e.assignAll ss).iopl = 2 ∧
    Reserved 15 ∧ (e.assignAll ss).word.toNat.testBit 15 = true ∧
    level.field ≠ nested.field ∧ (e.assign level).assign nested = (e.assign nested).assign level ∧
    e.assignAll ss = ⟨0xFFFFE7FF⟩ := by
  intro e level nested ss
  obtain ⟨hget, hiopl, hreserved, hcomm, -⟩ := e.assignAll_fields ss
  have hne : level.field ≠ nested.field := by decide
  have hflags : ∀ f, (e.assignAll ss).get f = (⟨0xFFFFE7FF⟩ : Eflags).get f := fun f => by
    cases f <;> decide +kernel
  have hbits : ∀ k < 32, Reserved k →
      (e.assignAll ss).word.toNat.testBit k = (0xFFFFE7FF : UInt32).toNat.testBit k := by decide +kernel
  have hword : e.assignAll ss = ⟨0xFFFFE7FF⟩ := by
    refine (assignAll_fields ⟨0xFFFFE7FF⟩ []).2.2.2.2 _ hflags (by decide +kernel) fun k hk => hbits k ?_ hk
    simp only [Reserved, List.mem_cons, List.not_mem_nil, or_false] at hk
    omega
  exact ⟨hget .nestedTask, hget .overflow, (hget .carry).trans (by decide +kernel),
    hiopl.trans (by decide +kernel), by decide, (hreserved 15 (by decide)).trans (by decide +kernel), hne,
    hcomm level nested hne, hword⟩

end Eflags

end Monitor386
