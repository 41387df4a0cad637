import Mathlib
import Monitor386.Proofs.Instruction.Decoding

/-!
# Decoding place by place

`FlatInstruction.Encodes` is the instruction set as the decoder fills it in: the bytes of every form, and the
value of every place of the record. The decoder gives a record just where its bytes stand.

* `FlatInstruction.encodes_iff`: these are the encodings of the instructions, with zeros in the places that
  an operation does not have.
* `decodeFlat_iff_encodes`: a record is decoded just where its encoding stands, the places without use are
  zero, and each of the two faults occurs just where there is no encoding.
-/

namespace Monitor386

variable {m : Memory} {eip : UInt32} {f : FlatInstruction} {i : Instruction} {bs : List UInt8}

namespace FlatInstruction

/-- The bytes of an instruction, form by form. A place that is not mentioned is zero. -/
inductive Encodes : FlatInstruction → List UInt8 → Prop where
  | plain {eip : UInt32} {opcode : UInt8} {mnemonic : Mnemonic} :
      (opcode, mnemonic) ∈ [(0x90, .nop), (0xC3, .ret), (0xCC, .breakpoint), (0xD6, .finish)] →
      Encodes { eip, opcode, mnemonic, length := 1 } [opcode]
  /-- The three low bits of the opcode name the register that is written. -/
  | written {eip : UInt32} {opcode : UInt8} {mnemonic : Mnemonic} (r : Fin 8) :
      (opcode, mnemonic) ∈ [(0x40, .inc), (0x48, .dec), (0x58, .pop)] →
      Encodes { eip, opcode := opcode + UInt8.ofNat r, mnemonic, length := 1, dst := r }
        [opcode + UInt8.ofNat r]
  | push {eip : UInt32} (r : Fin 8) :
      Encodes { eip, opcode := 0x50 + UInt8.ofNat r, mnemonic := .push, length := 1, src := r }
        [0x50 + UInt8.ofNat r]
  | moveImmediate {eip : UInt32} (r : Fin 8) (w : UInt32) :
      Encodes
        { eip, opcode := 0xB8 + UInt8.ofNat r, mnemonic := .moveImmediate, length := 5, dst := r, imm := w }
        ((0xB8 + UInt8.ofNat r) :: LittleEndian.spread 4 w.toNat)
  /-- The register is the accumulator, register 0. -/
  | accumulator {eip : UInt32} {opcode : UInt8} {mnemonic : Mnemonic} (w : UInt32) :
      (opcode, mnemonic) ∈ [(0x05, .add), (0x2D, .sub), (0x3D, .compare), (0xA1, .load)] →
      Encodes { eip, opcode, mnemonic, length := 5, dst := 0, imm := w }
        (opcode :: LittleEndian.spread 4 w.toNat)
  | store {eip : UInt32} (w : UInt32) :
      Encodes { eip, opcode := 0xA3, mnemonic := .store, length := 5, src := 0, imm := w }
        (0xA3 :: LittleEndian.spread 4 w.toNat)
  | transfer {eip : UInt32} {opcode : UInt8} {mnemonic : Mnemonic} (w : UInt32) :
      (opcode, mnemonic) ∈ [(0xE8, .call), (0xE9, .jump .always)] →
      Encodes { eip, opcode, mnemonic, length := 5, imm := w }
        (opcode :: LittleEndian.spread 4 w.toNat)
  /-- A displacement of one byte is extended with zeros. -/
  | short {eip : UInt32} {opcode : UInt8} {mnemonic : Mnemonic} (b : UInt8) :
      (opcode, mnemonic) ∈ [(0xEB, .jump .always), (0x74, .jump .zero), (0x75, .jump .nonzero)] →
      Encodes { eip, opcode, mnemonic, length := 2, imm := b.toUInt32 } [opcode, b]
  /-- The lower group of bits names the destination. -/
  | moveToLower {eip : UInt32} (upper lower : Fin 8) :
      Encodes { eip, opcode := 0x89, mnemonic := .move, length := 2, dst := lower, src := upper }
        [0x89, UInt8.ofNat (0xC0 + 8 * upper + lower)]
  /-- The upper group of bits names the destination. -/
  | moveToUpper {eip : UInt32} (upper lower : Fin 8) :
      Encodes { eip, opcode := 0x8B, mnemonic := .move, length := 2, dst := upper, src := lower }
        [0x8B, UInt8.ofNat (0xC0 + 8 * upper + lower)]

theorem Encodes.instruction (h : f.Encodes bs) : Monitor386.Encodes f.instruction bs ∧ f.Clear := by
  rw [← flat_instruction_iff]
  -- the operation of each record is the one in the table of opcodes
  cases h with
  | plain h => fin_cases h <;> exact ⟨.intro (.plain (by simp [plainCodes, operation])) .bare, rfl⟩
  | written r h => fin_cases h <;> exact ⟨.intro (.register r (by simp [registerCodes])) .bare, rfl⟩
  | push r => exact ⟨.intro (.register r (by simp [registerCodes])) .bare, rfl⟩
  | moveImmediate r w => exact ⟨.intro (.moveImmediate r) (.word w), rfl⟩
  | accumulator w h => fin_cases h <;> exact ⟨.intro (.word (by simp [wordCodes])) (.word w), rfl⟩
  | store w => exact ⟨.intro (.word (by simp [wordCodes])) (.word w), rfl⟩
  | transfer w h => fin_cases h <;> exact ⟨.intro (.word (by simp [wordCodes])) (.word w), rfl⟩
  | short b h => fin_cases h <;> exact ⟨.intro (.byte (by simp [byteCodes])) (.byte b), rfl⟩
  | moveToLower upper lower => exact ⟨.intro .moveToLower (.registers upper lower), rfl⟩
  | moveToUpper upper lower => exact ⟨.intro .moveToUpper (.registers upper lower), rfl⟩

theorem encodes_flat (h : Monitor386.Encodes i bs) : i.flat.Encodes bs := by
  obtain @⟨eip, opcode, form, operation, bs, hlisted, htakes⟩ := h
  -- each row of the table is one form, with the operands of its operation in their places
  cases hlisted with
  | plain h =>
    cases htakes
    fin_cases h <;> exact .plain (by simp [Operation.mnemonic])
  | register r h =>
    cases htakes
    fin_cases h
    · exact .written r (by simp [Operation.mnemonic])
    · exact .written r (by simp [Operation.mnemonic])
    · exact .push r
    · exact .written r (by simp [Operation.mnemonic])
  | byte h =>
    cases htakes with
    | byte b => fin_cases h <;> exact .short b (by simp [Operation.mnemonic])
  | word h =>
    cases htakes with
    | word w =>
      fin_cases h
      · exact .accumulator w (by simp [Operation.mnemonic])
      · exact .accumulator w (by simp [Operation.mnemonic])
      · exact .accumulator w (by simp [Operation.mnemonic])
      · exact .accumulator w (by simp [Operation.mnemonic])
      · exact .store w
      · exact .transfer w (by simp [Operation.mnemonic])
      · exact .transfer w (by simp [Operation.mnemonic])
  | moveImmediate r =>
    cases htakes with
    | word w => exact .moveImmediate r w
  | moveToLower =>
    cases htakes with
    | registers upper lower => exact .moveToLower upper lower
  | moveToUpper =>
    cases htakes with
    | registers upper lower => exact .moveToUpper upper lower

/-- The records are those of the instructions, with zeros in the places without use. -/
theorem encodes_iff : f.Encodes bs ↔ Monitor386.Encodes f.instruction bs ∧ f.Clear := by
  refine ⟨Encodes.instruction, fun ⟨h, hclear⟩ => ?_⟩
  rw [← flat_instruction_iff.mpr hclear]
  exact encodes_flat h

end FlatInstruction

/-! ## Decoding -/

theorem decodeFlat_eq_ok :
    decodeFlat m eip = .ok (.ok f) ↔ decode m eip = .ok (.ok f.instruction) ∧ f.Clear := by
  rw [decodeFlat_eq, ← FlatInstruction.flat_instruction_iff]
  constructor
  · intro h
    obtain ⟨r, hr, h⟩ := map_eq_ok.mp h
    obtain ⟨i, rfl, rfl⟩ := map_eq_ok.mp h
    rw [Instruction.instruction_flat]
    exact ⟨hr, rfl⟩
  · rintro ⟨h, hf⟩
    rw [h, Except.map, Except.map, hf]

theorem decodeFlat_eq_fault {fault : Fault} :
    decodeFlat m eip = .ok (.error fault) ↔ decode m eip = .ok (.error fault) := by
  rw [decodeFlat_eq]
  constructor
  · intro h
    obtain ⟨r, hr, h⟩ := map_eq_ok.mp h
    obtain rfl := map_eq_error.mp h
    exact hr
  · intro h
    rw [h]
    rfl

/-- The opcodes of no record are those of no instruction. -/
theorem forall_not_encodes {opcode : UInt8} :
    (∀ i bs, ¬ Encodes i (opcode :: bs)) ↔ ∀ (f : FlatInstruction) bs, ¬ f.Encodes (opcode :: bs) :=
  ⟨fun h _ bs hf => h _ bs hf.instruction.1,
    fun h _ bs hi => h _ bs (FlatInstruction.encodes_flat hi)⟩

/-- Where the memory ends before the addresses do, a record is decoded just if its encoding stands at the
address, and its places without use are zero. The other bytes are refused: those that begin no encoding, and
a move whose operand is not a register. -/
theorem decodeFlat_iff_encodes (hcap : m.capacity < UInt32.size) :
    (∀ f, decodeFlat m eip = .ok (.ok f) ↔ f.eip = eip ∧ ∃ bs, f.Encodes bs ∧ m.Holds eip bs) ∧
    (∀ (f : FlatInstruction) bs, f.Encodes bs →
      f.Clear ∧ f.length.toNat = bs.length ∧ f.instruction.encode = bs) ∧
    (∀ eip' opcode, decodeFlat m eip = .ok (.error (.invalidOpcode eip' opcode)) ↔
      eip' = eip ∧ m.Holds eip [opcode] ∧ ∀ (f : FlatInstruction) bs, ¬ f.Encodes (opcode :: bs)) ∧
    (∀ eip' modrm, decodeFlat m eip = .ok (.error (.unsupportedOperand eip' modrm)) ↔
      eip' = eip ∧ modrm >>> 6 ≠ 0b11 ∧
        ∃ opcode, (opcode = 0x89 ∨ opcode = 0x8B) ∧ m.Holds eip [opcode, modrm]) := by
  obtain ⟨hdecode, hencode, hinvalid, hunsupported⟩ := @decode_iff_encodes m eip hcap
  refine ⟨fun f => ?_, fun f bs h => ?_, fun eip' opcode => ?_, fun eip' modrm => ?_⟩
  · rw [decodeFlat_eq_ok, hdecode]
    constructor
    · rintro ⟨⟨heip, bs, henc, hm⟩, hclear⟩
      exact ⟨heip, bs, FlatInstruction.encodes_iff.mpr ⟨henc, hclear⟩, hm⟩
    · rintro ⟨heip, bs, henc, hm⟩
      obtain ⟨henc, hclear⟩ := henc.instruction
      exact ⟨⟨heip, bs, henc, hm⟩, hclear⟩
  · obtain ⟨henc, hclear⟩ := h.instruction
    obtain ⟨hbytes, hlength⟩ := hencode _ _ henc
    exact ⟨hclear, hlength, hbytes⟩
  · rw [decodeFlat_eq_fault, hinvalid, forall_not_encodes]
  · rw [decodeFlat_eq_fault, hunsupported]

/-- A move between registers and a push, a move to the memory that a register points to, and a byte that
begins no instruction. -/
theorem decodeFlat_iff_encodes_moves :
    let m : Memory := ⟨0x100, Store.empty.splice 0 [0x8B, 0xCA, 0x52, 0x89, 0x0A, 0xF4]⟩
    m.capacity < UInt32.size ∧ decodeFlat m 0 = .ok (.ok ⟨0, 0x8B, .move, 2, 1, 2, 0⟩) ∧
      decodeFlat m 2 = .ok (.ok ⟨2, 0x52, .push, 1, 0, 2, 0⟩) ∧
      decodeFlat m 3 = .ok (.error (.unsupportedOperand 3 0x0A)) ∧
      decodeFlat m 5 = .ok (.error (.invalidOpcode 5 0xF4)) := by
  intro m
  have hcap : m.capacity < UInt32.size := by decide
  have hmove : FlatInstruction.Encodes ⟨0, 0x8B, .move, 2, 1, 2, 0⟩ [0x8B, 0xCA] := .moveToUpper 1 2
  have hpush : FlatInstruction.Encodes ⟨2, 0x52, .push, 1, 0, 2, 0⟩ [0x52] := .push 2
  have hnone : ∀ (f : FlatInstruction) bs, ¬ f.Encodes (0xF4 :: bs) :=
    forall_not_encodes.mp (form?_eq_none.mp rfl)
  obtain ⟨hat0, -, -, -⟩ := @decodeFlat_iff_encodes m 0 hcap
  obtain ⟨hat2, -, -, -⟩ := @decodeFlat_iff_encodes m 2 hcap
  obtain ⟨-, -, -, hat3⟩ := @decodeFlat_iff_encodes m 3 hcap
  obtain ⟨-, -, hat5, -⟩ := @decodeFlat_iff_encodes m 5 hcap
  exact ⟨hcap, (hat0 _).mpr ⟨rfl, _, hmove, by decide +kernel⟩,
    (hat2 _).mpr ⟨rfl, _, hpush, by decide +kernel⟩,
    (hat3 _ _).mpr ⟨rfl, by decide, 0x89, .inl rfl, by decide +kernel⟩,
    (hat5 _ _).mpr ⟨rfl, by decide +kernel, hnone⟩⟩

end Monitor386
