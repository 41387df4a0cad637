import Mathlib
import Monitor386.Proofs.Memory.Row

/-!
# Dumps

A dump shows consecutive words, as many as are asked for and as the memory has. `Memory.wordAt` is a word
of it, in terms of the row of bytes.

* `checkedRead_word`: where a word can be inspected, and which one it is.
* `words_toList`: the words of a dump, in a memory that ends before the addresses do.
* `toNat_add_words`: the address after a dump, which is the first that it does not show.
-/

namespace Monitor386.Memory

variable {m : Memory} {addr : UInt32} {n : Nat}

/-- The word at an offset, with the offset as its address. -/
def wordAt (m : Memory) (offset : Nat) : UInt32 × UInt32 :=
  (UInt32.ofNat offset, UInt32.ofNat (m.row.number offset 4))

/-- A word can be inspected if the memory has all its bytes. -/
theorem checkedRead_word (m : Memory) (addr : UInt32) :
    m.checkedRead addr 4 =
      if addr.toNat + 4 ≤ m.capacity then some (m.wordAt addr.toNat).2 else none := by
  rw [checkedRead_eq_row, Row.read]
  split
  next h =>
    have hnone : m.row.refusal? addr 4 = none :=
      Row.refusal?_eq_none.mpr ⟨by decide, by rwa [length_row]⟩
    rw [hnone]
    rfl
  next h =>
    rw [Row.refusal?_of_lt (by decide) (by rw [length_row]; omega)]
    rfl

theorem checkedRead_ofNat (hcap : m.capacity < UInt32.size) {offset : Nat}
    (h : offset + 4 ≤ m.capacity) :
    m.checkedRead (UInt32.ofNat offset) 4 = some (m.wordAt offset).2 := by
  have htoNat : (UInt32.ofNat offset).toNat = offset := UInt32.toNat_ofNat_of_lt' (by omega)
  rw [checkedRead_word, htoNat, if_pos h]

theorem wordsFrom_toList (hcap : m.capacity < UInt32.size) (words : Array (UInt32 × UInt32))
    (addr n : Nat) :
    (m.wordsFrom words addr n).toList = words.toList ++
      (List.range (min n ((m.capacity - addr) / 4))).map fun i => m.wordAt (addr + 4 * i) := by
  -- each word moves the rest of the dump by four bytes
  induction n generalizing words addr with
  | zero => simp [wordsFrom]
  | succ n ih =>
    rw [wordsFrom]
    by_cases hin : addr + 4 ≤ m.capacity
    · have hcount : min (n + 1) ((m.capacity - addr) / 4) =
          min n ((m.capacity - (addr + 4)) / 4) + 1 := by omega
      have hlt : addr < UInt32.size := by omega
      rw [if_pos hlt, checkedRead_ofNat hcap hin, ih, hcount, List.range_succ_eq_map, List.map_cons,
        List.map_map, Array.toList_push, List.append_assoc]
      refine congrArg (words.toList ++ m.wordAt addr :: ·) (List.map_congr_left fun i _ => ?_)
      rw [Function.comp_apply, Nat.mul_succ, Nat.add_assoc, Nat.add_comm 4]
    · have hcount : min (n + 1) ((m.capacity - addr) / 4) = 0 := by omega
      rw [hcount, List.range_zero, List.map_nil, List.append_nil]
      split
      next hlt =>
        have htoNat : (UInt32.ofNat addr).toNat = addr := UInt32.toNat_ofNat_of_lt' hlt
        rw [checkedRead_word, htoNat, if_neg hin]
      next => rfl

/-- A dump shows as many words as are asked for, or up to the end of the memory. -/
theorem words_toList (hcap : m.capacity < UInt32.size) (addr : UInt32) (n : Nat) :
    (m.words addr n).toList = (List.range (min n ((m.capacity - addr.toNat) / 4))).map fun i =>
      m.wordAt (addr.toNat + 4 * i) := by
  rw [words, wordsFrom_toList hcap, Array.toList_empty, List.nil_append]

theorem size_words (hcap : m.capacity < UInt32.size) (addr : UInt32) (n : Nat) :
    (m.words addr n).size = min n ((m.capacity - addr.toNat) / 4) := by
  rw [← Array.length_toList, words_toList hcap, List.length_map, List.length_range]

theorem words_getElem? (hcap : m.capacity < UInt32.size) {i : Nat} {w : UInt32 × UInt32}
    (h : (m.words addr n)[i]? = some w) :
    w = m.wordAt (addr.toNat + 4 * i) ∧ addr.toNat + 4 * i + 4 ≤ m.capacity := by
  rw [← Array.getElem?_toList, words_toList hcap, List.getElem?_map, Option.map_eq_some_iff] at h
  obtain ⟨j, hj, rfl⟩ := h
  obtain ⟨hlt, rfl⟩ := List.getElem?_eq_some_iff.mp hj
  rw [List.length_range] at hlt
  rw [List.getElem_range]
  exact ⟨rfl, by omega⟩

/-- The words of a series, up to the one after a dump, do not wrap around. -/
theorem toNat_add_words (hcap : m.capacity < UInt32.size) {i : Nat}
    (h : i ≤ (m.words addr n).size) :
    (addr + 4 * UInt32.ofNat i).toNat = addr.toNat + 4 * i := by
  have haddr := addr.toNat_lt
  rw [size_words hcap] at h
  rw [UInt32.toNat_add, UInt32.toNat_mul, UInt32.toNat_ofNat']
  show (addr.toNat + 4 * (i % 2 ^ 32) % 2 ^ 32) % 2 ^ 32 = addr.toNat + 4 * i
  have hsize : UInt32.size = 2 ^ 32 := rfl
  omega

end Monitor386.Memory
