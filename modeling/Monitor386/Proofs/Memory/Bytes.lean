import Mathlib
import Monitor386.Memory.Basic
import Monitor386.Proofs.LittleEndian

/-!
# The bytes of the memory

`Holds` says which bytes are found from an address on. What is fetched is the number that they make:
`fetch_eq_ok`, with `fetch_byte` and `fetch_word` for the two widths that instructions use.
-/

namespace Monitor386.Memory

variable {m : Memory} {addr : UInt32} {width : Nat} {x : UInt32} {b : UInt8} {bs : List UInt8}

/-- The memory has these bytes from an address on, all of them inside. -/
def Holds (m : Memory) (addr : UInt32) (bs : List UInt8) : Prop :=
  addr.toNat + bs.length ≤ m.capacity ∧ m.store.slice addr.toNat bs.length = bs

instance : Decidable (m.Holds addr bs) :=
  inferInstanceAs (Decidable (_ ∧ _))

/-- In a memory that ends before the addresses do, one address is after the other. -/
theorem holds_cons (hcap : m.capacity < UInt32.size) :
    m.Holds addr (b :: bs) ↔ m.Holds addr [b] ∧ m.Holds (addr + 1) bs := by
  have hnext (h : addr.toNat + 1 ≤ m.capacity) : (addr + 1).toNat = addr.toNat + 1 := by
    rw [UInt32.toNat_add]
    exact Nat.mod_eq_of_lt (Nat.lt_of_le_of_lt h hcap)
  simp only [Holds, List.length_cons, List.length_nil, Store.slice, List.cons.injEq, and_true]
  constructor
  · rintro ⟨hle, hb, hbs⟩
    have hin : addr.toNat + 1 ≤ m.capacity := by omega
    rw [hnext hin]
    exact ⟨⟨hin, hb⟩, by omega, hbs⟩
  · rintro ⟨⟨hin, hb⟩, hle, hbs⟩
    rw [hnext hin] at hle hbs
    exact ⟨by omega, hb, hbs⟩

theorem fetch_eq (hwidth : validWidth width) :
    m.fetch addr width = if addr.toNat + width ≤ m.capacity then .ok (m.peek addr.toNat width)
      else .error (.outOfBound addr) := by
  simp only [fetch, read, violation?, hwidth, ↓reduceIte, Space.physicalOf, Space.page,
    Space.segment, contains]
  by_cases hin : addr.toNat + width ≤ m.capacity <;> simp [hin]

theorem fetch_eq_ok (hwidth : validWidth width) :
    m.fetch addr width = .ok x ↔
      ∃ bs, bs.length = width ∧ m.Holds addr bs ∧ x = UInt32.ofNat (LittleEndian.number bs) := by
  rw [fetch_eq hwidth]
  constructor
  · intro h
    split at h
    next hin =>
      cases h
      refine ⟨m.store.slice addr.toNat width, Store.length_slice .., ⟨?_, ?_⟩, rfl⟩
      · rwa [Store.length_slice]
      · rw [Store.length_slice]
    next => cases h
  · rintro ⟨bs, rfl, ⟨hin, hbs⟩, rfl⟩
    rw [if_pos hin, peek, hbs]

theorem fetch_byte : m.fetch addr 1 = .ok x ↔ ∃ b, m.Holds addr [b] ∧ x = b.toUInt32 := by
  have hnumber (b : UInt8) : UInt32.ofNat (LittleEndian.number [b]) = b.toUInt32 := by
    simp [LittleEndian.number]
  rw [fetch_eq_ok rfl]
  constructor
  · rintro ⟨bs, hlen, hm, rfl⟩
    obtain ⟨b, rfl⟩ := List.length_eq_one_iff.mp hlen
    exact ⟨b, hm, hnumber b⟩
  · rintro ⟨b, hm, rfl⟩
    exact ⟨[b], rfl, hm, (hnumber b).symm⟩

theorem fetch_word : m.fetch addr 4 = .ok x ↔ m.Holds addr (LittleEndian.spread 4 x.toNat) := by
  rw [fetch_eq_ok rfl]
  constructor
  · rintro ⟨bs, hlen, hm, rfl⟩
    have hlt : LittleEndian.number bs < UInt32.size := by
      have := LittleEndian.number_lt bs
      rwa [hlen] at this
    rw [UInt32.toNat_ofNat_of_lt' hlt, ← hlen, LittleEndian.spread_number]
    exact hm
  · intro hm
    refine ⟨_, LittleEndian.length_spread .., hm, ?_⟩
    rw [LittleEndian.number_spread, show 256 ^ 4 = 2 ^ 32 from rfl, Nat.mod_eq_of_lt x.toNat_lt,
      UInt32.ofNat_toNat]

end Monitor386.Memory
