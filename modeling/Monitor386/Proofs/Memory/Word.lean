import Mathlib
import Monitor386.Proofs.Memory.Bytes
import Monitor386.Proofs.Memory.Row

/-!
# Words of the memory

* `write_word`: when a word can be written, and the memory after it (`withWord`).
* `read_withWord`, `get_withWord`: a word that was written is read again, and the other bytes are as
  before.
* `AgreesOutside`: two memories of one size differ at most in a range of bytes. A word outside the
  range is read from both alike: `AgreesOutside.read`.
-/

namespace Monitor386

/-- What is written is found again. -/
theorem Store.slice_splice (s : Store) (offset : Nat) (bs : List UInt8) :
    (s.splice offset bs).slice offset bs.length = bs := by
  rw [slice_eq_map]
  apply List.ext_getElem
  · simp
  · intro i h₁ h₂
    simp [get_splice, h₂]

theorem Store.slice_congr {s s' : Store} {offset n : Nat}
    (h : ∀ j, offset ≤ j → j < offset + n → s'.get j = s.get j) :
    s'.slice offset n = s.slice offset n := by
  rw [slice_eq_map, slice_eq_map]
  refine List.map_congr_left fun i hi => h _ (by omega) ?_
  have := List.mem_range.mp hi
  omega

namespace Memory

variable {m m' m₁ m₂ : Memory} {addr x : UInt32} {bs : List UInt8} {j lo hi lo' hi' : Nat}

/-! ## Writing a word -/

/-- The memory with a word written at an address. -/
def withWord (m : Memory) (addr x : UInt32) : Memory :=
  { m with store := m.store.splice addr.toNat (LittleEndian.spread 4 x.toNat) }

@[simp] theorem capacity_withWord (m : Memory) (addr x : UInt32) :
    (m.withWord addr x).capacity = m.capacity := rfl

theorem write_word : m.write .program addr 4 x = .ok m' ↔
    addr.toNat + 4 ≤ m.capacity ∧ m' = m.withWord addr x := by
  unfold write violation?
  rw [physicalOf_eq]
  by_cases hin : addr.toNat + 4 ≤ m.capacity
  · simp [validWidth, contains, hin, withWord, eq_comm]
  · simp [validWidth, contains, hin]

theorem get_withWord (h : j < addr.toNat ∨ addr.toNat + 4 ≤ j) :
    (m.withWord addr x).store.get j = m.store.get j := by
  unfold withWord
  rw [Store.get_splice]
  split_ifs with hj
  · rw [List.getElem?_eq_none]
    · rfl
    · rw [LittleEndian.length_spread]
      omega
  · rfl

theorem read_word : m.read .program addr 4 = .ok x ↔
    m.Holds addr (LittleEndian.spread 4 x.toNat) :=
  fetch_word

/-- A word that was written is read again. -/
theorem read_withWord (h : addr.toNat + 4 ≤ m.capacity) :
    (m.withWord addr x).read .program addr 4 = .ok x := by
  rw [read_word]
  exact ⟨by rwa [LittleEndian.length_spread], Store.slice_splice ..⟩

/-! ## Memories that differ in a range -/

/-- The memories have one size, and one content but for the bytes from `lo` up to `hi`. -/
structure AgreesOutside (lo hi : Nat) (m m' : Memory) : Prop where
  capacity : m'.capacity = m.capacity
  get : ∀ j, j < lo ∨ hi ≤ j → m'.store.get j = m.store.get j

theorem AgreesOutside.refl (lo hi : Nat) (m : Memory) : AgreesOutside lo hi m m :=
  ⟨rfl, fun _ _ => rfl⟩

theorem AgreesOutside.trans (h₁ : AgreesOutside lo hi m m₁) (h₂ : AgreesOutside lo hi m₁ m₂) :
    AgreesOutside lo hi m m₂ :=
  ⟨h₂.capacity.trans h₁.capacity, fun j hj => (h₂.get j hj).trans (h₁.get j hj)⟩

theorem AgreesOutside.mono (h : AgreesOutside lo hi m m') (hlo : lo' ≤ lo) (hhi : hi ≤ hi') :
    AgreesOutside lo' hi' m m' :=
  ⟨h.capacity, fun j hj => h.get j (by omega)⟩

theorem agreesOutside_withWord (m : Memory) (addr x : UInt32) :
    AgreesOutside addr.toNat (addr.toNat + 4) m (m.withWord addr x) :=
  ⟨rfl, fun _ hj => get_withWord hj⟩

/-- A word outside the range is read alike. -/
theorem AgreesOutside.read (h : AgreesOutside lo hi m m')
    (hout : addr.toNat + 4 ≤ lo ∨ hi ≤ addr.toNat) (hx : m.read .program addr 4 = .ok x) :
    m'.read .program addr 4 = .ok x := by
  rw [read_word] at hx ⊢
  obtain ⟨hin, hslice⟩ := hx
  refine ⟨h.capacity ▸ hin, ?_⟩
  rw [← hslice, LittleEndian.length_spread, Store.length_slice]
  apply Store.slice_congr
  intro j hj₁ hj₂
  exact h.get j (by omega)

end Memory

end Monitor386
