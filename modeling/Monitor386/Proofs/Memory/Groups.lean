import Mathlib
import Monitor386.Machine.Report
import Monitor386.Proofs.LittleEndian
import Monitor386.Proofs.Memory.Bytes
import Monitor386.Proofs.Memory.Word
import Monitor386.Proofs.Text.Digits

/-!
# Bytes that are shown one by one

A step line shows the bytes of an instruction as groups of two digits. Each byte is looked up by its own
address, and addresses go around, so that the byte after the last address is the first of the memory.

* `byteGroups_eq`: the groups of a step line are those of `Memory.bytes?`.
* `Text.groups_inj`: the groups tell the bytes.
* `bytes?_of_holds`, `holds_of_bytes?`: the bytes one by one, and the bytes as they are fetched.
* `byte?_withWord`: a byte after a word was written.
-/

namespace Monitor386

/-! ## Groups -/

namespace Text

/-- The group of a byte, or of a byte that is not there. -/
def byteGroup : Option UInt8 → String
  | some b => hexByte b ++ " "
  | none => "?? "

/-- The groups of bytes, one after the other. -/
def groups (bytes : List (Option UInt8)) : String :=
  String.join (bytes.map byteGroup)

theorem toList_hexByte (b : UInt8) :
    ∃ k, (hexByte b).toList = List.replicate k '0' ++ Nat.toDigits 16 b.toNat ∧
      (hexByte b).toList.length = 2 := by
  have hdigits : (Nat.toDigits 16 b.toNat).length ≤ 2 :=
    Nat.toDigits_length 16 b.toNat 2 (by decide) b.toNat_lt
  have hchars : (hexByte b).toList =
      List.replicate (2 - (Nat.toDigits 16 b.toNat).length) '0' ++ Nat.toDigits 16 b.toNat := by
    simp [hexByte, alignRight, hex]
  refine ⟨_, hchars, ?_⟩
  rw [hchars, List.length_append, List.length_replicate]
  omega

theorem hexByte_inj {b b' : UInt8} (h : (hexByte b).toList = (hexByte b').toList) : b = b' := by
  have hvalue (b : UInt8) : value 16 (hexByte b).toList = b.toNat := by
    obtain ⟨k, hchars, -⟩ := toList_hexByte b
    rw [hchars, value_zeros, value_toDigits (by decide) (by decide)]
  rw [← UInt8.toNat_inj, ← hvalue b, ← hvalue b', h]

theorem isHexDigit_of_mem_hexByte {b : UInt8} {c : Char} (h : c ∈ (hexByte b).toList) :
    isHexDigit c = true := by
  obtain ⟨k, hchars, -⟩ := toList_hexByte b
  rw [hchars, List.mem_append] at h
  rcases h with h | h
  · rw [List.eq_of_mem_replicate h]
    rfl
  · exact isHexDigit_of_mem_toDigits h

theorem length_byteGroup (b : Option UInt8) : (byteGroup b).toList.length = 3 := by
  cases b with
  | none => rfl
  | some b =>
    obtain ⟨-, -, hlen⟩ := toList_hexByte b
    rw [byteGroup, String.toList_append, List.length_append, hlen]
    rfl

theorem byteGroup_inj {b b' : Option UInt8} (h : (byteGroup b).toList = (byteGroup b').toList) :
    b = b' := by
  have hmark (b : UInt8) : (byteGroup (some b)).toList ≠ (byteGroup none).toList := by
    intro h
    have hmem : '?' ∈ (hexByte b).toList := by
      rw [byteGroup, String.toList_append] at h
      obtain ⟨hdigits, -⟩ : (hexByte b).toList = ['?', '?'] ∧ " ".toList = [' '] :=
        List.append_inj' h rfl
      rw [hdigits]
      exact List.mem_cons_self
    exact absurd (isHexDigit_of_mem_hexByte hmem) (by decide)
  cases b with
  | none =>
    cases b' with
    | none => rfl
    | some b' => exact absurd h.symm (hmark b')
  | some b =>
    cases b' with
    | none => exact absurd h (hmark b)
    | some b' =>
      rw [byteGroup, byteGroup, String.toList_append, String.toList_append] at h
      rw [hexByte_inj (List.append_inj' h rfl).1]

theorem length_groups (bytes : List (Option UInt8)) :
    (groups bytes).toList.length = 3 * bytes.length := by
  induction bytes with
  | nil => rfl
  | cons b bytes ih =>
    rw [groups, List.map_cons, String.join_cons, String.toList_append, List.length_append,
      length_byteGroup, ← groups, ih, List.length_cons]
    omega

/-- The groups tell the bytes. -/
theorem groups_inj {bytes bytes' : List (Option UInt8)} (hlen : bytes.length = bytes'.length)
    (h : (groups bytes).toList = (groups bytes').toList) : bytes = bytes' := by
  induction bytes generalizing bytes' with
  | nil => exact (List.eq_nil_of_length_eq_zero hlen.symm).symm
  | cons b bytes ih =>
    obtain ⟨b', bytes', rfl⟩ := List.exists_cons_of_length_eq_add_one hlen.symm
    simp only [groups, List.map_cons, String.join_cons, String.toList_append] at h
    obtain ⟨hb, hbytes⟩ := List.append_inj h (by rw [length_byteGroup, length_byteGroup])
    rw [byteGroup_inj hb, ih (Nat.succ.inj hlen) hbytes]

end Text

/-! ## Bytes -/

namespace Memory

variable {m : Memory} {addr x : UInt32} {bs : List UInt8}

/-- The byte at an address, if it is inside. -/
def byte? (m : Memory) (addr : UInt32) : Option UInt8 :=
  if addr.toNat < m.capacity then some (m.store.get addr.toNat) else none

/-- The bytes at `n` addresses, each looked up by itself. -/
def bytes? (m : Memory) (addr : UInt32) (n : Nat) : List (Option UInt8) :=
  (List.range n).map fun k => m.byte? (addr + UInt32.ofNat k)

theorem checkedRead_byte (m : Memory) (addr : UInt32) :
    (m.checkedRead addr 1).map UInt32.toUInt8 = m.byte? addr := by
  unfold checkedRead byte? contains
  rw [physicalOf_eq]
  by_cases hin : addr.toNat < m.capacity
  · simp [validWidth, hin, Nat.succ_le_of_lt hin, peek, Store.slice, LittleEndian.number]
  · have hout : ¬ addr.toNat + 1 ≤ m.capacity := by omega
    simp [hin, hout]

/-- The groups of a step line. -/
theorem byteGroups_eq (m : Memory) (start length : UInt32) :
    m.byteGroups start length = Text.groups (m.bytes? start length.toNat) := by
  unfold byteGroups Text.groups bytes? String.join
  rw [List.map_map, List.foldl_map]
  refine congrArg (fun f => List.foldl f "" (List.range length.toNat)) ?_
  funext line k
  refine congrArg (line ++ ·) ?_
  show _ = Text.byteGroup (m.byte? (start + UInt32.ofNat k))
  rw [← checkedRead_byte]
  cases m.checkedRead (start + UInt32.ofNat k) 1 <;> rfl

theorem bytes?_succ (m : Memory) (addr : UInt32) (n : Nat) :
    m.bytes? addr (n + 1) = m.byte? addr :: m.bytes? (addr + 1) n := by
  unfold bytes?
  rw [List.range_succ_eq_map, List.map_cons, List.map_map]
  have hzero : addr + UInt32.ofNat 0 = addr := by
    rw [← UInt32.toNat_inj]
    simp
  rw [hzero]
  refine congrArg _ (List.map_congr_left fun k _ => ?_)
  rw [Function.comp_apply, UInt32.add_assoc, ← UInt32.ofNat_one, ← UInt32.ofNat_add, Nat.add_comm]

@[simp] theorem length_bytes? (m : Memory) (addr : UInt32) (n : Nat) :
    (m.bytes? addr n).length = n := by
  rw [bytes?, List.length_map, List.length_range]

theorem getElem?_bytes? {n k : Nat} (h : k < n) :
    (m.bytes? addr n)[k]? = some (m.byte? (addr + UInt32.ofNat k)) := by
  simp [bytes?, h]

theorem byte?_eq_some {b : UInt8} : m.byte? addr = some b ↔ m.Holds addr [b] := by
  unfold byte? Holds
  by_cases hin : addr.toNat < m.capacity
  · simp [hin, Nat.succ_le_of_lt hin, Store.slice]
  · have hout : ¬ addr.toNat + 1 ≤ m.capacity := by omega
    simp [hin, hout]

/-- Bytes that stand at consecutive addresses are those that are shown, if they do not run over the last
address. -/
theorem bytes?_of_holds (h : m.Holds addr bs) (hend : addr.toNat + bs.length ≤ UInt32.size) :
    m.bytes? addr bs.length = bs.map some := by
  obtain ⟨hin, hbs⟩ := h
  rw [← hbs, Store.slice_eq_map, List.map_map, List.length_map, List.length_range]
  refine List.map_congr_left fun k hk => ?_
  have hk := List.mem_range.mp hk
  have haddr : (addr + UInt32.ofNat k).toNat = addr.toNat + k := by
    have hsize : UInt32.size = 2 ^ 32 := rfl
    rw [UInt32.toNat_add, UInt32.toNat_ofNat']
    omega
  rw [byte?, haddr, if_pos (by omega), Function.comp_apply]

theorem holds_of_bytes? (hcap : m.capacity < UInt32.size) (hin : addr.toNat ≤ m.capacity)
    (h : m.bytes? addr bs.length = bs.map some) : m.Holds addr bs := by
  induction bs generalizing addr with
  | nil => exact ⟨hin, rfl⟩
  | cons b bs ih =>
    rw [List.length_cons, bytes?_succ, List.map_cons, List.cons.injEq] at h
    have hb := byte?_eq_some.mp h.1
    have hnext : (addr + 1).toNat ≤ m.capacity := by
      rw [UInt32.toNat_add]
      exact (Nat.mod_le _ _).trans hb.1
    exact (holds_cons hcap).mpr ⟨hb, ih hnext h.2⟩

/-! ## After a word was written -/

variable {a : UInt32}

theorem byte?_withWord {k : Nat} {b : UInt8} (hin : addr.toNat + 4 ≤ m.capacity)
    (hb : (LittleEndian.spread 4 x.toNat)[k]? = some b) (ha : a.toNat = addr.toNat + k) :
    (m.withWord addr x).byte? a = some b := by
  have hk : k < 4 := by
    obtain ⟨hk, -⟩ := List.getElem?_eq_some_iff.mp hb
    rwa [LittleEndian.length_spread] at hk
  rw [byte?, if_pos (by rw [capacity_withWord]; omega), withWord, Store.get_splice, if_pos (by omega),
    ha, Nat.add_sub_cancel_left, hb, Option.getD_some]

theorem byte?_withWord_of_ne (ha : ∀ k < 4, a.toNat ≠ addr.toNat + k) :
    (m.withWord addr x).byte? a = m.byte? a := by
  have hout : a.toNat < addr.toNat ∨ addr.toNat + 4 ≤ a.toNat := by
    by_contra hmem
    exact ha (a.toNat - addr.toNat) (by omega) (by omega)
  rw [byte?, byte?, get_withWord hout, capacity_withWord]

end Memory

end Monitor386
