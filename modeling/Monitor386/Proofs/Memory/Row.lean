import Mathlib
import Monitor386.Memory.Basic
import Monitor386.Proofs.Failure
import Monitor386.Proofs.LittleEndian

/-!
# The memory as a row of bytes

A `Row` is an array of bytes and nothing else: it has one kind of address, and its accesses say which
bytes they take or replace. `Memory.row` reads the row off a memory.

* `row_splice`, `number_slice`: writing bytes to the store, and reading a number from it, in terms of
  the row.
* `read_cases`, `write_cases`: an access of a proper width is made, or leaves the memory and aborts.
* `Op.run_row`: an access to the memory is the access to its row, whatever kind of address it has.
* `runAll_eq_row`: every history of accesses has the replies, the bytes and the abort of the row's, the
  capacity stays, and the accesses that abort are those that leave the memory or have a wrong width.
-/

namespace Monitor386

/-! ## Accesses -/

namespace Memory

/-- An access to the memory. -/
inductive Op where
  | read (space : Space) (addr : UInt32) (width : Nat)
  | fetch (addr : UInt32) (width : Nat)
  | checkedRead (addr : UInt32) (width : Nat)
  | write (space : Space) (addr : UInt32) (width : Nat) (x : UInt32)
  | load (addr : UInt32) (bytes : List UInt8)
  | reset

/-- What an access returns. -/
inductive Reply where
  | value (x : UInt32)
  | checked (x : Option UInt32)
  | done
  deriving DecidableEq

def Op.run (m : Memory) : Op → Except Abort (Reply × Memory)
  | read space addr width => do pure (.value (← m.read space addr width), m)
  | fetch addr width => do pure (.value (← m.fetch addr width), m)
  | checkedRead addr width => pure (.checked (m.checkedRead addr width), m)
  | write space addr width x => do pure (.done, ← m.write space addr width x)
  | load addr bytes => do pure (.done, ← m.load addr bytes)
  | reset => pure (.done, m.reset)

/-- The accesses of a history, with their replies. -/
def runAll (m : Memory) : List Op → Except Abort (List Reply × Memory)
  | [] => pure ([], m)
  | op :: ops => do
    let (reply, m) ← op.run m
    let (replies, m) ← m.runAll ops
    pure (reply :: replies, m)

end Memory

/-! ## Rows -/

/-- The bytes of a memory, in the order of their addresses. -/
@[ext]
structure Row where
  bytes : List UInt8
  deriving DecidableEq

namespace Row

/-- A row of `n` zeros. -/
def zeros (n : Nat) : Row := ⟨List.replicate n 0⟩

/-- The number in `width` bytes from an offset on: each byte counts 256 times the one before it. -/
def number (r : Row) (offset width : Nat) : Nat :=
  ∑ i ∈ Finset.range width, (r.bytes.getD (offset + i) 0).toNat * 256 ^ i

/-- The low bytes of a word, the lowest first. -/
def lowBytes (width : Nat) (x : UInt32) : List UInt8 :=
  (List.range width).map fun i => UInt8.ofNat (x.toNat / 256 ^ i)

/-- Replaces the bytes from an offset on. -/
def put (r : Row) (offset : Nat) (bs : List UInt8) : Row :=
  ⟨r.bytes.take offset ++ bs ++ r.bytes.drop (offset + bs.length)⟩

/-- Why an access is refused, if it is: it has a wrong width, or it does not end inside. -/
def refusal? (r : Row) (addr : UInt32) (width : Nat) : Option Abort :=
  if width ∉ [1, 2, 4] then some (.badWidth width)
  else if r.bytes.length < addr.toNat + width then some (.outOfBound addr)
  else none

def read (r : Row) (addr : UInt32) (width : Nat) : Except Abort UInt32 :=
  (r.refusal? addr width).elim (.ok (UInt32.ofNat (r.number addr.toNat width))) .error

def write (r : Row) (addr : UInt32) (width : Nat) (x : UInt32) : Except Abort Row :=
  (r.refusal? addr width).elim (.ok (r.put addr.toNat (lowBytes width x))) .error

def load (r : Row) (addr : UInt32) (bs : List UInt8) : Except Abort Row :=
  if r.bytes.length < addr.toNat + bs.length then
    .error (.imageTooLarge bs.length addr r.bytes.length)
  else .ok (r.put addr.toNat bs)

/-- An access to a row. The kind of its address makes no difference. -/
def run (r : Row) : Memory.Op → Except Abort (Memory.Reply × Row)
  | .read _ addr width | .fetch addr width => (r.read addr width).map fun x => (.value x, r)
  | .checkedRead addr width => .ok (.checked (r.read addr width).toOption, r)
  | .write _ addr width x => (r.write addr width x).map fun r => (.done, r)
  | .load addr bs => (r.load addr bs).map fun r => (.done, r)
  | .reset => .ok (.done, zeros r.bytes.length)

def runAll (r : Row) : List Memory.Op → Except Abort (List Memory.Reply × Row)
  | [] => .ok ([], r)
  | op :: ops => do
    let (reply, r) ← r.run op
    let (replies, r) ← r.runAll ops
    pure (reply :: replies, r)

theorem refusal?_eq_none {r : Row} {addr : UInt32} {width : Nat} :
    r.refusal? addr width = none ↔ width ∈ [1, 2, 4] ∧ addr.toNat + width ≤ r.bytes.length := by
  rw [refusal?]
  split_ifs <;> simp_all

theorem refusal?_of_lt {r : Row} {addr : UInt32} {width : Nat} (hwidth : width ∈ [1, 2, 4])
    (h : r.bytes.length < addr.toNat + width) : r.refusal? addr width = some (.outOfBound addr) := by
  rw [refusal?, if_neg (not_not.mpr hwidth), if_pos h]

theorem number_lt (r : Row) (offset width : Nat) : r.number offset width < 256 ^ width := by
  induction width with
  | zero => simp [number]
  | succ width ih =>
    have hb := (r.bytes.getD (offset + width) 0).toNat_lt
    rw [number, Finset.sum_range_succ, ← number, Nat.pow_succ]
    nlinarith

end Row

theorem Store.slice_eq_map (s : Store) (offset n : Nat) :
    s.slice offset n = (List.range n).map fun i => s.get (offset + i) := by
  induction n generalizing offset with
  | zero => rfl
  | succ n ih =>
    rw [Store.slice, ih, List.range_succ_eq_map, List.map_cons, List.map_map]
    refine congrArg _ (List.map_congr_left fun i _ => ?_)
    rw [Function.comp_apply, Nat.succ_eq_add_one, Nat.add_comm i 1, Nat.add_assoc]

namespace Memory

/-- The row of a memory. -/
def row (m : Memory) : Row :=
  ⟨(List.range m.capacity).map m.store.get⟩

variable {m m' : Memory} {addr : UInt32} {offset width : Nat} {bs : List UInt8}

@[simp] theorem length_row (m : Memory) : m.row.bytes.length = m.capacity := by
  rw [row, List.length_map, List.length_range]

theorem row_getElem? (m : Memory) (i : Nat) :
    m.row.bytes[i]? = if i < m.capacity then some (m.store.get i) else none := by
  rw [row, List.getElem?_map]
  split
  next h => rw [List.getElem?_range h, Option.map_some]
  next h => rw [List.getElem?_eq_none (by rwa [List.length_range, ← not_lt]), Option.map_none]

theorem row_empty (capacity : Nat) : (⟨capacity, .empty⟩ : Memory).row = .zeros capacity := by
  have hzero : Store.empty.get = fun _ => 0 := funext Store.get_empty
  rw [row, hzero, List.map_const', List.length_range, Row.zeros]

/-! ## Bytes and numbers -/

/-- A number that is read inside the memory is the number in the row. -/
theorem number_slice (h : offset + width ≤ m.capacity) :
    LittleEndian.number (m.store.slice offset width) = m.row.number offset width := by
  rw [LittleEndian.number_eq_sum, Store.length_slice, Row.number]
  refine Finset.sum_congr rfl fun i hi => ?_
  have hi : i < width := Finset.mem_range.mp hi
  have hin : offset + i < m.capacity := by omega
  rw [List.getD_eq_getElem?_getD, List.getD_eq_getElem?_getD, row_getElem?, if_pos hin,
    Store.slice_eq_map, List.getElem?_map, List.getElem?_range hi]
  rfl

/-- Bytes that are written inside the memory replace those of the row. -/
theorem row_splice (h : offset + bs.length ≤ m.capacity) :
    ({ m with store := m.store.splice offset bs } : Memory).row = m.row.put offset bs := by
  have hlen : (m.row.bytes.take offset).length = offset := by
    rw [List.length_take, length_row]
    omega
  refine Row.ext (List.ext_getElem? fun j => ?_)
  rw [row_getElem?, Store.get_splice, Row.put, List.append_assoc]
  -- before the bytes that are written, among them, and behind them
  obtain hj | hj := lt_or_ge j offset
  · rw [if_neg hj.not_ge, List.getElem?_append_left (by omega), List.getElem?_take_of_lt hj,
      row_getElem?]
  rw [if_pos hj, List.getElem?_append_right (by omega), hlen]
  obtain hj' | hj' := lt_or_ge (j - offset) bs.length
  · rw [List.getElem?_append_left hj', List.getElem?_eq_getElem hj', Option.getD_some, if_pos]
    simp only
    omega
  · have hback : offset + bs.length + (j - offset - bs.length) = j := by omega
    rw [List.getElem?_append_right hj', List.getElem?_eq_none hj', Option.getD_none,
      List.getElem?_drop, hback, row_getElem?]

/-! ## One access -/

theorem violation?_eq (m : Memory) (addr : UInt32) (width : Nat) :
    m.violation? addr width = m.row.refusal? addr width := by
  have hwidth : validWidth width = true ↔ width ∈ [1, 2, 4] := by
    simp [validWidth, or_assoc]
  simp only [violation?, Row.refusal?, hwidth, contains, length_row, decide_eq_true_eq]
  split_ifs <;> grind

theorem physicalOf_eq (space : Space) (addr : UInt32) : space.physicalOf addr = addr := by
  cases space <;> rfl

/-- What is read, in any address space, is read from the row. -/
theorem read_eq_row (m : Memory) (space : Space) (addr : UInt32) (width : Nat) :
    m.read space addr width = m.row.read addr width := by
  rw [read, physicalOf_eq, Row.read, violation?_eq]
  cases h : m.row.refusal? addr width with
  | some a => rfl
  | none =>
    have hin := (Row.refusal?_eq_none.mp h).2
    rw [length_row] at hin
    rw [Option.elim_none, ← number_slice hin]
    rfl

theorem checkedRead_eq_row (m : Memory) (addr : UInt32) (width : Nat) :
    m.checkedRead addr width = (m.row.read addr width).toOption := by
  rw [← read_eq_row m .program, checkedRead, read, violation?]
  cases validWidth width <;> cases m.contains (Space.program.physicalOf addr) width <;> rfl

theorem write_row (m : Memory) (space : Space) (addr : UInt32) (width : Nat) (x : UInt32) :
    (m.write space addr width x).map row = m.row.write addr width x := by
  rw [write, physicalOf_eq, Row.write, violation?_eq]
  cases h : m.row.refusal? addr width with
  | some a => rfl
  | none =>
    have hin := (Row.refusal?_eq_none.mp h).2
    rw [length_row] at hin
    have hbytes : LittleEndian.spread width x.toNat = Row.lowBytes width x :=
      LittleEndian.spread_eq_map width x.toNat
    rw [Option.elim_none, ← hbytes, ← row_splice (by rwa [LittleEndian.length_spread])]
    rfl

theorem load_row (m : Memory) (addr : UInt32) (bs : List UInt8) :
    (m.load addr bs).map row = m.row.load addr bs := by
  rw [load, physicalOf_eq, Row.load, length_row]
  by_cases hin : addr.toNat + bs.length ≤ m.capacity
  · rw [if_pos (by simpa [contains] using hin), if_neg hin.not_gt, ← row_splice hin]
    rfl
  · rw [if_neg (by simpa [contains] using hin), if_pos (not_le.mp hin)]
    rfl

theorem reset_row (m : Memory) : m.reset.row = .zeros m.capacity :=
  row_empty m.capacity

/-- An access to the memory is the access to its row. -/
theorem Op.run_row (m : Memory) (op : Op) :
    (op.run m).map (Prod.map id row) = m.row.run op := by
  cases op with
  | read space addr width =>
    rw [Op.run, Row.run, ← read_eq_row m space]
    cases m.read space addr width <;> rfl
  | fetch addr width =>
    rw [Op.run, Row.run, ← read_eq_row m .program, Memory.fetch]
    cases m.read .program addr width <;> rfl
  | checkedRead addr width =>
    rw [Op.run, Row.run, ← checkedRead_eq_row]
    rfl
  | write space addr width x =>
    rw [Op.run, Row.run, ← write_row m space]
    cases m.write space addr width x <;> rfl
  | load addr bs =>
    rw [Op.run, Row.run, ← load_row]
    cases m.load addr bs <;> rfl
  | reset =>
    rw [Row.run, length_row, ← reset_row]
    rfl

/-! ## Histories -/

theorem runAll_row (m : Memory) (ops : List Op) :
    (m.runAll ops).map (Prod.map id row) = m.row.runAll ops := by
  induction ops generalizing m with
  | nil => rfl
  | cons op ops ih =>
    rw [runAll, Row.runAll, ← Op.run_row]
    cases op.run m with
    | error a => rfl
    | ok r =>
      obtain ⟨reply, m'⟩ := r
      simp only [Except.map, bind, Except.bind, Prod.map, id, ← ih m']
      cases m'.runAll ops <;> rfl

theorem write_capacity {space : Space} {x : UInt32} (h : m.write space addr width x = .ok m') :
    m'.capacity = m.capacity := by
  rw [write, physicalOf_eq] at h
  split at h
  · cases h
  · cases h
    rfl

theorem load_capacity (h : m.load addr bs = .ok m') : m'.capacity = m.capacity := by
  rw [load, physicalOf_eq] at h
  split at h
  · cases h
    rfl
  · cases h

theorem Op.run_capacity {op : Op} {reply : Reply} (h : op.run m = .ok (reply, m')) :
    m'.capacity = m.capacity := by
  cases op with
  | read | fetch =>
    obtain ⟨x, -, h⟩ := bind_eq_ok.mp h
    cases h
    rfl
  | write =>
    obtain ⟨m₁, hw, h⟩ := bind_eq_ok.mp h
    cases h
    exact write_capacity hw
  | load =>
    obtain ⟨m₁, hl, h⟩ := bind_eq_ok.mp h
    cases h
    exact load_capacity hl
  | checkedRead | reset =>
    cases h
    rfl

theorem runAll_capacity {ops : List Op} {replies : List Reply}
    (h : m.runAll ops = .ok (replies, m')) : m'.capacity = m.capacity := by
  induction ops generalizing m replies with
  | nil =>
    cases h
    rfl
  | cons op ops ih =>
    obtain ⟨⟨reply, m₁⟩, hop, h⟩ := bind_eq_ok.mp h
    obtain ⟨⟨replies, m₂⟩, hops, h⟩ := bind_eq_ok.mp h
    cases h
    exact (ih hops).trans (Op.run_capacity hop)

/-! ## Where accesses are possible -/

/-- The accesses of this width at this address concern the bytes of the row from there on: all ways to
read give the number in them, and a write replaces them by the low bytes of the word. -/
structure Accessible (m : Memory) (addr : UInt32) (width : Nat) : Prop where
  read : ∃ x : UInt32, x.toNat = m.row.number addr.toNat width ∧
    (∀ space, m.read space addr width = .ok x) ∧ m.fetch addr width = .ok x ∧
    m.checkedRead addr width = some x
  write : ∀ space x, ∃ m', m.write space addr width x = .ok m' ∧
    m'.row = m.row.put addr.toNat (Row.lowBytes width x)

/-- The accesses of this width at this address abort, and an inspection finds nothing. -/
structure Inaccessible (m : Memory) (addr : UInt32) (width : Nat) : Prop where
  read : ∀ space, ∃ a, m.read space addr width = .error a
  fetch : ∃ a, m.fetch addr width = .error a
  checkedRead : m.checkedRead addr width = none
  write : ∀ space x, ∃ a, m.write space addr width x = .error a

theorem accessible_of_fits (hwidth : width ∈ [1, 2, 4])
    (hin : addr.toNat + width ≤ m.capacity) : m.Accessible addr width := by
  have hfits : m.row.refusal? addr width = none :=
    Row.refusal?_eq_none.mpr ⟨hwidth, by rwa [length_row]⟩
  have hread : m.row.read addr width = .ok (UInt32.ofNat (m.row.number addr.toNat width)) := by
    rw [Row.read, hfits, Option.elim_none]
  refine ⟨⟨UInt32.ofNat (m.row.number addr.toNat width), ?_, fun space => ?_, ?_, ?_⟩,
    fun space x => ?_⟩
  · -- at most four bytes make a word
    have hlt := m.row.number_lt addr.toNat width
    have hword : 256 ^ width ≤ 256 ^ 4 := Nat.pow_le_pow_right (by decide) (by grind)
    exact UInt32.toNat_ofNat_of_lt' (hlt.trans_le hword)
  · rw [read_eq_row, hread]
  · rw [fetch, read_eq_row, hread]
  · rw [checkedRead_eq_row, hread]
    rfl
  · have hwrite := m.write_row space addr width x
    rw [Row.write, hfits, Option.elim_none] at hwrite
    cases hm : m.write space addr width x with
    | error a =>
      rw [hm] at hwrite
      cases hwrite
    | ok m' =>
      rw [hm] at hwrite
      exact ⟨m', rfl, Except.ok.inj hwrite⟩

theorem inaccessible_of_not_fits (h : ¬ (width ∈ [1, 2, 4] ∧ addr.toNat + width ≤ m.capacity)) :
    m.Inaccessible addr width := by
  obtain ⟨a, ha⟩ : ∃ a, m.row.refusal? addr width = some a := by
    rw [← Option.ne_none_iff_exists', ne_eq, Row.refusal?_eq_none, length_row]
    exact h
  have hread : m.row.read addr width = .error a := by rw [Row.read, ha, Option.elim_some]
  refine ⟨fun space => ⟨a, ?_⟩, ⟨a, ?_⟩, ?_, fun space x => ⟨a, ?_⟩⟩
  · rw [read_eq_row, hread]
  · rw [fetch, read_eq_row, hread]
  · rw [checkedRead_eq_row, hread]
    rfl
  · rw [write, physicalOf_eq, violation?_eq, ha]

/-- A read of a proper width has a value, or it leaves the memory and aborts for this reason. -/
theorem read_cases (m : Memory) (space : Space) (addr : UInt32) (width : Nat)
    (hwidth : width ∈ [1, 2, 4]) :
    addr.toNat + width ≤ m.capacity ∧ (∃ x, m.read space addr width = .ok x) ∨
    m.capacity < addr.toNat + width ∧ m.read space addr width = .error (.outOfBound addr) := by
  obtain hin | hout := le_or_gt (addr.toNat + width) m.capacity
  · obtain ⟨x, -, hread, -⟩ := (accessible_of_fits hwidth hin).read
    exact .inl ⟨hin, x, hread space⟩
  · refine .inr ⟨hout, ?_⟩
    rw [read_eq_row, Row.read, Row.refusal?_of_lt hwidth (by rwa [length_row]), Option.elim_some]

theorem write_cases (m : Memory) (space : Space) (addr : UInt32) (width : Nat) (x : UInt32)
    (hwidth : width ∈ [1, 2, 4]) :
    addr.toNat + width ≤ m.capacity ∧
      (∃ m', m.write space addr width x = .ok m' ∧ m'.capacity = m.capacity) ∨
    m.capacity < addr.toNat + width ∧ m.write space addr width x = .error (.outOfBound addr) := by
  obtain hin | hout := le_or_gt (addr.toNat + width) m.capacity
  · obtain ⟨m', hwrite, -⟩ := (accessible_of_fits hwidth hin).write space x
    exact .inl ⟨hin, m', hwrite, write_capacity hwrite⟩
  · refine .inr ⟨hout, ?_⟩
    rw [write, physicalOf_eq, violation?_eq, Row.refusal?_of_lt hwidth (by rwa [length_row])]

theorem load_eq_error_iff : (∃ a, m.load addr bs = .error a) ↔ m.capacity < addr.toNat + bs.length := by
  have hin : m.contains addr bs.length = true ↔ addr.toNat + bs.length ≤ m.capacity := by
    simp [contains]
  rw [load, physicalOf_eq]
  split
  next h => simpa using hin.mp h
  next h => simpa using hin.not.mp h

/-- A memory is a row of bytes. Every history of accesses has the replies, the bytes and the abort of
the row's, in every address space. The capacity stays what it was, and with it the addresses where
accesses are possible. -/
theorem runAll_eq_row (capacity : Nat) (ops : List Op) :
    (runAll ⟨capacity, .empty⟩ ops).map (Prod.map id row) = (Row.zeros capacity).runAll ops ∧
    ∀ replies m, runAll ⟨capacity, .empty⟩ ops = .ok (replies, m) →
      m.capacity = capacity ∧
      (∀ addr width, width ∈ [1, 2, 4] ∧ addr.toNat + width ≤ capacity → m.Accessible addr width) ∧
      (∀ addr width, ¬ (width ∈ [1, 2, 4] ∧ addr.toNat + width ≤ capacity) →
        m.Inaccessible addr width) ∧
      ∀ addr bs, (∃ a, m.load addr bs = .error a) ↔ capacity < addr.toNat + bs.length := by
  refine ⟨?_, fun replies m h => ?_⟩
  · rw [runAll_row, row_empty]
  · obtain rfl : m.capacity = capacity := runAll_capacity h
    exact ⟨rfl, fun _ _ hfits => accessible_of_fits hfits.1 hfits.2,
      fun _ _ => inaccessible_of_not_fits, fun _ _ => load_eq_error_iff⟩

/-- A word that is partly overwritten, and is read together with a byte before it; the last address is
not enough for a word. -/
theorem runAll_eq_row_overlap :
    let ops : List Op := [.load 1 [7, 8], .reset, .write .program 3 4 0xAABBCCDD,
      .write .physical 4 2 0x1122, .read .linear 2 4]
    ∃ replies m, runAll ⟨8, .empty⟩ ops = .ok (replies, m) ∧
      replies = [.done, .done, .done, .done, .value 0x1122DD00] ∧
      m.row = ⟨[0, 0, 0, 0xDD, 0x22, 0x11, 0xAA, 0]⟩ ∧
      m.checkedRead 4 4 = some 0x00AA1122 ∧ m.checkedRead 5 4 = none ∧
      ∃ a, m.load 7 [1, 2] = .error a := by
  intro ops
  obtain ⟨hrun, haccess⟩ := runAll_eq_row 8 ops
  have hrow : (Row.zeros 8).runAll ops = .ok
      ([.done, .done, .done, .done, .value 0x1122DD00], ⟨[0, 0, 0, 0xDD, 0x22, 0x11, 0xAA, 0]⟩) :=
    eq_ok_of_toOption (by decide +kernel)
  rw [hrow] at hrun
  cases hm : runAll ⟨8, .empty⟩ ops with
  | error a =>
    rw [hm] at hrun
    cases hrun
  | ok r =>
    obtain ⟨replies, m⟩ := r
    rw [hm] at hrun
    obtain ⟨rfl, hbytes⟩ := Prod.ext_iff.mp (Except.ok.inj hrun)
    have hbytes : m.row = _ := hbytes
    obtain ⟨-, hin, hout, hload⟩ := haccess _ m hm
    obtain ⟨x, hx, -, -, hchecked⟩ := (hin 4 4 (by decide)).read
    obtain rfl : x = 0x00AA1122 := by
      rw [← UInt32.toNat_inj, hx, hbytes]
      decide
    exact ⟨_, m, rfl, rfl, hbytes, hchecked, (hout 5 4 (by decide)).checkedRead,
      (hload 7 [1, 2]).mpr (by decide)⟩

end Memory

end Monitor386
