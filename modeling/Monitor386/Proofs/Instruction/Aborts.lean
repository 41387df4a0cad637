import Mathlib
import Monitor386.Proofs.Instruction.Accesses

/-!
# When an instruction aborts

The accesses of an instruction, in their order, as the bytes of the memory and the stack pointer tell
them: `Cpu.accesses`. Opcodes are listed here by number, apart from the table that decoding looks them up
in.

* `operandWidth?_eq`, `Listed.dataAddress?_eq`: what follows an opcode, and where its word of data is.
* `firstOutside?_eq_some`: the first access that leaves the memory is the one where the instruction aborts.
* `Cpu.execute_error`: a decoded instruction aborts for the memory alone, whatever processor executes it.
* `exec_aborts_iff`: when an instruction aborts, and at which address.
-/

namespace Monitor386

/-- An access to the memory: so many bytes from an address on. -/
structure Access where
  addr : UInt32
  width : Nat
  deriving DecidableEq, Repr

/-- The access stays inside the memory. -/
def Access.Fits (m : Memory) (x : Access) : Prop :=
  x.addr.toNat + x.width ≤ m.capacity

instance (m : Memory) (x : Access) : Decidable (x.Fits m) :=
  inferInstanceAs (Decidable (_ ≤ _))

/-! ## The accesses of an instruction -/

/-- Number of bytes that are read after an opcode, if any: a displacement or a pair of registers is a
byte, and all other operands are words. -/
def operandWidth? (opcode : UInt8) : Option Nat :=
  if opcode ∈ [0x74, 0x75, 0x89, 0x8B, 0xEB] then some 1
  else if opcode ∈ [0x05, 0x2D, 0x3D, 0xA1, 0xA3, 0xE8, 0xE9] ∨ 0xB8 ≤ opcode ∧ opcode ≤ 0xBF then
    some 4
  else none

/-- The places of a word of data. -/
inductive DataPlace where
  /-- The address that the operand gives. -/
  | absolute
  /-- Under the top of the stack, where a word is pushed. -/
  | underTop
  /-- The top of the stack, from where a word is popped. -/
  | top

/-- The place of the word of data of an opcode, if it has one. -/
def dataPlace? (opcode : UInt8) : Option DataPlace :=
  if opcode ∈ [0xA1, 0xA3] then some .absolute
  else if opcode = 0xE8 ∨ 0x50 ≤ opcode ∧ opcode ≤ 0x57 then some .underTop
  else if opcode = 0xC3 ∨ 0x58 ≤ opcode ∧ opcode ≤ 0x5F then some .top
  else none

namespace Cpu

/-- The address of a place, for the instruction at an address. -/
def addressOf (c : Cpu) (eip : UInt32) : DataPlace → UInt32
  | .absolute => c.memory.peek (eip + 1).toNat 4
  | .underTop => c.registers.get Registers.esp .full - 4
  | .top => c.registers.get Registers.esp .full

/-- The accesses of the instruction at an address, in their order: the opcode, what follows it, and
the word of data. -/
def accesses (c : Cpu) (eip : UInt32) : List Access :=
  let opcode := c.memory.store.get eip.toNat
  ⟨eip, 1⟩ :: (((operandWidth? opcode).map fun width => ⟨eip + 1, width⟩).toList ++
    ((dataPlace? opcode).map fun place => ⟨c.addressOf eip place, 4⟩).toList)

/-- The first access that leaves the memory, if any does. -/
def firstOutside? (c : Cpu) (eip : UInt32) : Option Access :=
  (c.accesses eip).find? fun x => ¬ x.Fits c.memory

end Cpu

variable {m : Memory} {c : Cpu} {eip : UInt32} {opcode : UInt8} {form : Form} {operation : Operation}
  {i : Instruction} {a : Abort} {bs : List UInt8} {x : Access}

/-! ## Opcodes -/

/-- What holds of the opcodes by number holds of all. -/
theorem forall_opcode {P : UInt8 → Prop} (h : ∀ n < 256, P (UInt8.ofNat n)) (opcode : UInt8) :
    P opcode := by
  rw [← opcode.ofNat_toNat]
  exact h _ opcode.toNat_lt

theorem operandWidth?_eq (opcode : UInt8) :
    operandWidth? opcode = (form? opcode).bind Form.operandWidth? := by
  revert opcode
  exact forall_opcode (by decide +kernel)

/-- An opcode that is not in the table has no data. -/
theorem dataPlace?_isNone (opcode : UInt8) (h : (form? opcode).isNone) :
    (dataPlace? opcode).isNone := by
  revert opcode
  exact forall_opcode (by decide +kernel)

/-- The operation of an opcode has its word of data at the place of the opcode. -/
theorem Listed.dataAddress?_eq (h : Listed opcode form) (htakes : form.Takes bs operation)
    (hbs : c.memory.Holds (eip + 1) bs) :
    c.dataAddress? operation = (dataPlace? opcode).map (c.addressOf eip) := by
  cases h with
  | plain h | byte h =>
    cases htakes
    fin_cases h <;> rfl
  | register r h =>
    cases htakes
    fin_cases h <;> fin_cases r <;> rfl
  | moveImmediate r =>
    cases htakes
    fin_cases r <;> rfl
  | moveToLower | moveToUpper =>
    cases htakes
    rfl
  | word h =>
    cases htakes with
    | word w =>
      have hw : w = c.addressOf eip .absolute := by
        have hfetch := Memory.fetch_word.mpr hbs
        rw [Memory.fetch_eq rfl, if_pos (by simpa using hbs.1)] at hfetch
        exact (Except.ok.inj hfetch).symm
      -- the operand of a load and of a store is the address
      fin_cases h <;> first | rfl | exact congrArg some hw

/-! ## The first access outside -/

theorem fetch_opcode (h : eip.toNat + 1 ≤ m.capacity) :
    ∃ x, m.fetch eip 1 = .ok x ∧ x.toUInt8 = m.store.get eip.toNat := by
  have hholds : m.Holds eip [m.store.get eip.toNat] := ⟨h, rfl⟩
  exact ⟨_, Memory.fetch_byte.mpr ⟨_, hholds, rfl⟩, UInt8.toUInt8_toUInt32 _⟩

/-- The fetches of decoding, as the opcode tells them. -/
theorem fetches_iff {addr : UInt32} {width : Nat} : Fetches m eip addr width ↔
    addr = eip ∧ width = 1 ∨ eip.toNat + 1 ≤ m.capacity ∧ addr = eip + 1 ∧
      operandWidth? (m.store.get eip.toNat) = some width := by
  constructor
  · intro h
    cases h with
    | opcode => exact .inl ⟨rfl, rfl⟩
    | @operand y form width hy hform hwidth =>
      obtain ⟨b, hb, rfl⟩ := Memory.fetch_byte.mp hy
      have hget : m.store.get eip.toNat = b := List.head_eq_of_cons_eq hb.2
      rw [UInt8.toUInt8_toUInt32] at hform
      refine .inr ⟨hb.1, rfl, ?_⟩
      rw [hget, operandWidth?_eq, hform]
      exact hwidth
  · rintro (⟨rfl, rfl⟩ | ⟨hin, rfl, hwidth⟩)
    · exact .opcode
    · obtain ⟨y, hy, hopcode⟩ := fetch_opcode hin
      rw [operandWidth?_eq, ← hopcode] at hwidth
      obtain ⟨form, hform, hwidth⟩ := Option.bind_eq_some_iff.mp hwidth
      exact .operand hy hform hwidth

/-- Decoding succeeds just where all its fetches stay inside. -/
theorem decode_isOk_iff : (∃ r, decode m eip = .ok r) ↔
    eip.toNat + 1 ≤ m.capacity ∧ ∀ width, operandWidth? (m.store.get eip.toNat) = some width →
      (eip + 1).toNat + width ≤ m.capacity := by
  constructor
  · rintro ⟨r, hr⟩
    have hin {addr : UInt32} {width : Nat} (h : Fetches m eip addr width) :
        addr.toNat + width ≤ m.capacity := by
      by_contra hout
      cases hr.symm.trans (h.decode_eq (not_le.mp hout))
    have hop := hin .opcode
    exact ⟨hop, fun width hwidth => hin (fetches_iff.mpr (.inr ⟨hop, rfl, hwidth⟩))⟩
  · rintro ⟨hop, hoperand⟩
    cases h : decode m eip with
    | ok r => exact ⟨r, rfl⟩
    | error a =>
      obtain ⟨addr, width, hfetch, hout, -⟩ := exists_fetches_of_decode h
      obtain ⟨rfl, rfl⟩ | ⟨-, rfl, hwidth⟩ := fetches_iff.mp hfetch
      · exact absurd hop hout.not_ge
      · exact absurd (hoperand width hwidth) hout.not_ge

/-- What was decoded has its word of data at the place of its opcode; a fault has none. -/
theorem dataAddress?_of_decode {r : Except Fault Instruction} (h : decode c.memory eip = .ok r) :
    (dataPlace? (c.memory.store.get eip.toNat)).map (c.addressOf eip) =
      r.toOption.bind fun i => c.dataAddress? i.operation := by
  have hget {b : UInt8} (hb : c.memory.Holds eip [b]) : c.memory.store.get eip.toNat = b :=
    List.head_eq_of_cons_eq hb.2
  cases finds_of_decode h with
  | instruction hform htakes hop hbs =>
    rw [hget hop]
    exact ((form?_eq_some.mp hform).dataAddress?_eq htakes hbs).symm
  | invalid hform hop =>
    rw [hget hop, Option.isNone_iff_eq_none.mp (dataPlace?_isNone _ (by rw [hform]; rfl))]
    rfl
  | unsupported hform hop =>
    rw [hget hop]
    obtain rfl | rfl := (form?_eq_some.mp hform).of_registers <;> rfl

/-- The accesses of an instruction, each with what must have succeeded before it. -/
theorem accesses_iff : Accesses c eip x.addr x.width ↔
    x = ⟨eip, 1⟩ ∨
    (⟨eip, 1⟩ : Access).Fits c.memory ∧ (operandWidth? (c.memory.store.get eip.toNat)).map
      (Access.mk (eip + 1)) = some x ∨
    (∃ r, decode c.memory eip = .ok r) ∧ (dataPlace? (c.memory.store.get eip.toNat)).map
      (fun place => ⟨c.addressOf eip place, 4⟩) = some x := by
  obtain ⟨addr, width⟩ := x
  constructor
  · intro h
    cases h with
    | fetch h =>
      obtain ⟨rfl, rfl⟩ | ⟨hin, rfl, hwidth⟩ := fetches_iff.mp h
      · exact .inl rfl
      · exact .inr (.inl ⟨hin, by rw [hwidth]; rfl⟩)
    | data hdecode haddr =>
      obtain ⟨place, hplace, rfl⟩ :=
        Option.map_eq_some_iff.mp ((dataAddress?_of_decode hdecode).trans haddr)
      exact .inr (.inr ⟨⟨_, hdecode⟩, by rw [hplace]; rfl⟩)
  · rintro (h | ⟨hin, h⟩ | ⟨⟨r, hdecode⟩, h⟩)
    · cases h
      exact .fetch .opcode
    · obtain ⟨width', hwidth, heq⟩ := Option.map_eq_some_iff.mp h
      cases heq
      exact .fetch (fetches_iff.mpr (.inr ⟨hin, rfl, hwidth⟩))
    · obtain ⟨place, hplace, heq⟩ := Option.map_eq_some_iff.mp h
      cases heq
      have hdata := dataAddress?_of_decode hdecode
      rw [hplace] at hdata
      -- a place of data is known only of an instruction that was decoded
      obtain ⟨i, hi, haddr⟩ := Option.bind_eq_some_iff.mp hdata.symm
      cases eq_ok_of_toOption hi
      exact .data hdecode haddr

/-- The first of some stages, of which only the first is sure to be there. -/
theorem find?_stages {α : Type} {p : α → Bool} {a x : α} {o d : Option α} :
    (a :: (o.toList ++ d.toList)).find? p = some x ↔
      (x = a ∨ p a = false ∧ o = some x ∨
        (p a = false ∧ ∀ y, o = some y → p y = false) ∧ d = some x) ∧ p x = true := by
  rw [List.find?_cons, List.find?_append]
  cases o <;> cases d <;> grind

/-- The first access outside is the one that fails after all before it succeeded. -/
theorem firstOutside?_eq_some :
    c.firstOutside? eip = some x ↔ Accesses c eip x.addr x.width ∧ ¬ x.Fits c.memory := by
  have hfits (y : Access) : decide (¬ y.Fits c.memory) = false ↔ y.Fits c.memory := by
    rw [decide_eq_false_iff_not, not_not]
  have hoperand : (∀ y, (operandWidth? (c.memory.store.get eip.toNat)).map (Access.mk (eip + 1)) =
      some y → y.Fits c.memory) ↔ ∀ width, operandWidth? (c.memory.store.get eip.toNat) = some width →
        (eip + 1).toNat + width ≤ c.memory.capacity := by
    simp [Option.map_eq_some_iff, Access.Fits]
  rw [accesses_iff, decode_isOk_iff, Cpu.firstOutside?, Cpu.accesses, find?_stages,
    decide_eq_true_eq]
  simp only [hfits, hoperand]
  rfl

/-- There is a first access outside if there is one at all. -/
theorem exists_outside_iff :
    (∃ x, c.firstOutside? eip = some x) ↔ ∃ x ∈ c.accesses eip, ¬ x.Fits c.memory := by
  rw [← Option.isSome_iff_exists, Cpu.firstOutside?, List.find?_isSome]
  simp only [decide_eq_true_eq]

/-! ## Instructions -/

/-- An instruction that names registers which exist aborts for its word of data alone. -/
theorem Cpu.execute_error (hregs : i.operation.RegistersExist) (h : c.execute i = .error a) :
    ∃ addr, c.dataAddress? i.operation = some addr ∧ c.memory.capacity < addr.toNat + 4 ∧
      a = .outOfBound addr := by
  obtain heffect | ⟨_, -, h⟩ := bind_eq_error.mp h
  · exact exists_data_of_effect hregs heffect
  · cases h

/-- The disassembly has a name for every register that exists. -/
theorem Instruction.registerText_eq {r : Nat} (h : r < 8) :
    ∃ hr : r < RegisterName.full.length, registerText r = "%" ++ RegisterName.full[r] := by
  have hr : r < RegisterName.full.length := h
  exact ⟨hr, by rw [registerText, List.getD_eq_getElem _ _ hr]⟩

namespace I386Table

/-- An instruction aborts just if one of its accesses leaves the memory, and it does so at the first of
them. A register that does not exist, a wrong width and a register without a name are never the
reason, whatever was decoded and wherever it is executed. -/
theorem exec_aborts_iff (c : Cpu) (eip : UInt32) :
    (∀ a, exec c eip = .error a ↔ ∃ x, c.firstOutside? eip = some x ∧ a = .outOfBound x.addr) ∧
    ((∃ a, exec c eip = .error a) ↔ ∃ x ∈ c.accesses eip, ¬ x.Fits c.memory) ∧
    ∀ m eip' i, decode m eip' = .ok (.ok i) →
      (∀ (c' : Cpu) (a : Abort), c'.execute i = .error a → ∃ addr, a = .outOfBound addr) ∧
      ∀ r ∈ i.operation.registers, ∃ h : r < RegisterName.full.length,
        Instruction.registerText r = "%" ++ RegisterName.full[r] := by
  have hexec (a : Abort) : exec c eip = .error a ↔
      ∃ x, c.firstOutside? eip = some x ∧ a = .outOfBound x.addr := by
    simp only [exec_eq_error_iff, firstOutside?_eq_some, Access.Fits, not_le]
    constructor
    · rintro ⟨addr, width, haccess, hout, rfl⟩
      exact ⟨⟨addr, width⟩, ⟨haccess, hout⟩, rfl⟩
    · rintro ⟨x, ⟨haccess, hout⟩, rfl⟩
      exact ⟨x.addr, x.width, haccess, hout, rfl⟩
  refine ⟨hexec, ?_, fun m eip' i h => ?_⟩
  · simp only [hexec, ← exists_outside_iff]
    exact ⟨fun ⟨_, x, hx, _⟩ => ⟨x, hx⟩, fun ⟨x, hx⟩ => ⟨_, x, hx, rfl⟩⟩
  · have hregs := registersExist_of_decode h
    refine ⟨fun c' a ha => ?_, fun r hr => Instruction.registerText_eq (hregs r hr)⟩
    obtain ⟨addr, -, -, rfl⟩ := Cpu.execute_error hregs ha
    exact ⟨addr, rfl⟩

/-- A load from behind the end of the memory, and a call on its last byte. The stack of the call is outside,
too, but its operand comes first. -/
theorem exec_aborts_iff_last_byte :
    let c : Cpu := ⟨Registers.initial.set Registers.esp .full 2,
      ⟨6, Store.empty.splice 0 [0xA1, 4, 0, 0, 0, 0xE8]⟩, .empty⟩
    exec c 0 = .error (.outOfBound 4) ∧ exec c 5 = .error (.outOfBound 6) ∧
      c.accesses 5 = [⟨5, 1⟩, ⟨6, 4⟩, ⟨0xFFFFFFFE, 4⟩] ∧
      decode c.memory 0 = .ok (.ok ⟨0, 0xA1, 5, .load 0 4⟩) ∧
      ∀ (c' : Cpu) (a : Abort), c'.execute ⟨0, 0xA1, 5, .load 0 4⟩ = .error a →
        ∃ addr, a = .outOfBound addr := by
  intro c
  obtain ⟨hload, -, hdecoded⟩ := exec_aborts_iff c 0
  obtain ⟨hcall, -, -⟩ := exec_aborts_iff c 5
  have hdecode : decode c.memory 0 = .ok (.ok ⟨0, 0xA1, 5, .load 0 4⟩) :=
    (Decodes.instruction rfl (.intro (.word (by simp [wordCodes])) (.word 4)) (by decide +kernel)).decode_eq
      (by decide +kernel)
  exact ⟨(hload _).mpr ⟨⟨4, 4⟩, by decide +kernel, rfl⟩, (hcall _).mpr ⟨⟨6, 4⟩, by decide +kernel, rfl⟩,
    by decide +kernel, hdecode, (hdecoded _ _ _ hdecode).1⟩

end I386Table

end Monitor386
