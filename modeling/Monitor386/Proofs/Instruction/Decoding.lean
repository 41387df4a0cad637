import Mathlib
import Monitor386.Proofs.Instruction.Forms
import Monitor386.Proofs.Memory.Bytes

/-!
# Decoding is the inverse of encoding

`Listed` is the table of the opcodes, `Form.Takes` says how the operands are laid out after an opcode,
and `Encodes` puts the two together: the bytes of an instruction. An operation has the operands that
it uses and no others. What the decoder leaves in the places of the others is told in
`Monitor386.Proofs.Instruction.Flattening`.

* `form?_eq_some`: the lookup of an opcode is the table.
* `finds_of_decode`, `decode_eq_ok`: what `decode` reads, form by form.
* `Encodes.encode_eq`: an instruction has one encoding, the one that its opcode names.
* `decode_iff_encodes`: an instruction is decoded just where its encoding stands, and each of the two
  faults just where there is none.
-/

namespace Monitor386

open Memory (holds_cons fetch_byte fetch_word)

/-! ## The instruction set -/

/-- Opcodes that stand alone. -/
def plainCodes : List (UInt8 × Operation) :=
  [(0x90, .nop), (0xC3, .ret), (0xCC, .breakpoint), (0xD6, .finish)]

/-- Opcodes that stand alone, to which the number of a register is added. -/
def registerCodes : List (UInt8 × (Nat → Operation)) :=
  [(0x40, .inc), (0x48, .dec), (0x50, .push), (0x58, .pop)]

/-- Opcodes that a byte follows. -/
def byteCodes : List (UInt8 × (UInt32 → Operation)) :=
  [(0xEB, .jump .always), (0x74, .jump .zero), (0x75, .jump .nonzero)]

/-- Opcodes that a word follows. -/
def wordCodes : List (UInt8 × (UInt32 → Operation)) :=
  [(0x05, .add 0), (0x2D, .sub 0), (0x3D, .compare 0), (0xA1, .load 0), (0xA3, .store 0),
    (0xE8, .call), (0xE9, .jump .always)]

/-- The table of the opcodes. -/
inductive Listed : UInt8 → Form → Prop where
  | plain {opcode : UInt8} {operation : Operation} :
      (opcode, operation) ∈ plainCodes → Listed opcode (.bare operation)
  | register {opcode : UInt8} {operation : Nat → Operation} (r : Fin 8) :
      (opcode, operation) ∈ registerCodes → Listed (opcode + UInt8.ofNat r) (.bare (operation r))
  | byte {opcode : UInt8} {operation : UInt32 → Operation} :
      (opcode, operation) ∈ byteCodes → Listed opcode (.byte operation)
  | word {opcode : UInt8} {operation : UInt32 → Operation} :
      (opcode, operation) ∈ wordCodes → Listed opcode (.word operation)
  | moveImmediate (r : Fin 8) : Listed (0xB8 + UInt8.ofNat r) (.word (.moveImmediate r))
  /-- The lower group names the destination. -/
  | moveToLower : Listed 0x89 (.registers fun upper lower => .move lower upper)
  /-- The upper group names the destination. -/
  | moveToUpper : Listed 0x8B (.registers fun upper lower => .move upper lower)

/-- The operation that a form makes with the bytes after the opcode: a byte is extended with zeros, a
word has its lowest byte first, and two registers are named in a byte whose two top bits are set. -/
inductive Form.Takes : Form → List UInt8 → Operation → Prop where
  | bare {operation : Operation} : Takes (.bare operation) [] operation
  | byte {operation : UInt32 → Operation} (b : UInt8) :
      Takes (.byte operation) [b] (operation b.toUInt32)
  | word {operation : UInt32 → Operation} (w : UInt32) :
      Takes (.word operation) (LittleEndian.spread 4 w.toNat) (operation w)
  | registers {operation : Nat → Nat → Operation} (upper lower : Fin 8) :
      Takes (.registers operation) [UInt8.ofNat (0xC0 + 8 * upper + lower)] (operation upper lower)

/-- The bytes of an instruction: its opcode, and the operands as the opcode has them. -/
inductive Encodes : Instruction → List UInt8 → Prop where
  | intro {eip : UInt32} {opcode : UInt8} {form : Form} {operation : Operation} {bs : List UInt8} :
      Listed opcode form → form.Takes bs operation →
      Encodes ⟨eip, opcode, UInt32.ofNat (bs.length + 1), operation⟩ (opcode :: bs)

variable {m : Memory} {eip : UInt32} {opcode : UInt8} {form : Form} {operation : Operation}
  {i : Instruction} {bs : List UInt8}

/-! ## The table -/

theorem eq_ofNat {k : Nat} (h : opcode.toNat = k) : opcode = UInt8.ofNat k := by
  rw [← h, UInt8.ofNat_toNat]

/-- An opcode that holds a register in its three low bits. -/
theorem eq_add_register {k : Nat} (h : opcode.toNat / 8 = k) :
    ∃ r : Fin 8, opcode.toNat % 8 = r ∧ opcode = UInt8.ofNat (8 * k) + UInt8.ofNat r := by
  refine ⟨⟨opcode.toNat % 8, Nat.mod_lt _ (by decide)⟩, rfl, ?_⟩
  rw [← UInt8.ofNat_add, ← h, Nat.div_add_mod, UInt8.ofNat_toNat]

theorem Listed.form?_eq (h : Listed opcode form) : form? opcode = some form := by
  cases h with
  | plain h => fin_cases h <;> rfl
  | register r h => fin_cases h <;> fin_cases r <;> rfl
  | byte h => fin_cases h <;> rfl
  | word h => fin_cases h <;> rfl
  | moveImmediate r => fin_cases r <;> rfl
  | moveToLower => rfl
  | moveToUpper => rfl

theorem listed_of_form? (h : form? opcode = some form) : Listed opcode form := by
  simp only [form?] at h
  split at h
  case h_6 =>
    -- an opcode without a register
    split at h <;> cases h
    all_goals
      next hop =>
        rw [eq_ofNat hop]
        first
          | exact .plain (by simp [plainCodes])
          | exact .byte (by simp [byteCodes])
          | exact .word (by simp [wordCodes])
          | exact .moveToLower
          | exact .moveToUpper
  all_goals
    next hop =>
      cases h
      obtain ⟨r, hr, hop⟩ := eq_add_register hop
      rw [hr, hop]
      first
        | exact .register r (by simp [registerCodes])
        | exact .moveImmediate r

/-- The lookup of an opcode is the table. -/
theorem form?_eq_some : form? opcode = some form ↔ Listed opcode form :=
  ⟨listed_of_form?, Listed.form?_eq⟩

/-! ## The byte that names two registers -/

theorem topBits_eq {b : UInt8} : b >>> 6 = 0b11 ↔ b.toNat / 64 = 3 := by
  rw [← UInt8.toNat_inj, UInt8.toNat_shiftRight]
  simp [Nat.shiftRight_eq_div_pow]

theorem upper_eq (b : UInt8) : ((b >>> 3) &&& 0x7).toNat = b.toNat / 8 % 8 := by
  rw [UInt8.toNat_and, UInt8.toNat_shiftRight]
  exact (Nat.and_two_pow_sub_one_eq_mod _ 3).trans (by simp [Nat.shiftRight_eq_div_pow])

theorem lower_eq (b : UInt8) : (b &&& 0x7).toNat = b.toNat % 8 := by
  rw [UInt8.toNat_and]
  exact Nat.and_two_pow_sub_one_eq_mod _ 3

/-- The registers that a byte names. -/
theorem takes_registers {b : UInt8} {operation : Nat → Nat → Operation} {o : Operation} :
    (Form.registers operation).Takes [b] o ↔
      b >>> 6 = 0b11 ∧ o = operation ((b >>> 3) &&& 0x7).toNat (b &&& 0x7).toNat := by
  rw [topBits_eq, upper_eq, lower_eq]
  have hb := b.toNat_lt
  constructor
  · intro h
    cases h with
    | registers upper lower =>
      have hvalue : (UInt8.ofNat (0xC0 + 8 * upper + lower)).toNat = 0xC0 + 8 * upper + lower := by
        rw [UInt8.toNat_ofNat']
        omega
      rw [hvalue]
      exact ⟨by omega, by congr 1 <;> omega⟩
  · rintro ⟨htop, rfl⟩
    let upper : Fin 8 := ⟨b.toNat / 8 % 8, Nat.mod_lt _ (by decide)⟩
    let lower : Fin 8 := ⟨b.toNat % 8, Nat.mod_lt _ (by decide)⟩
    have hb' : b = UInt8.ofNat (0xC0 + 8 * upper + lower) := by
      apply eq_ofNat
      simp only [upper, lower]
      omega
    have h : (Form.registers operation).Takes _ (operation upper lower) := .registers upper lower
    rw [← hb'] at h
    exact h

/-! ## What is read -/

theorem Form.Takes.length_eq (h : form.Takes bs operation) :
    UInt32.ofNat (bs.length + 1) = form.length := by
  cases h with
  | word w =>
    rw [LittleEndian.length_spread]
    rfl
  | bare | byte | registers => rfl

/-- What `decode` makes of the bytes at an address. -/
inductive Decodes (m : Memory) (eip : UInt32) : Except Fault Instruction → Prop where
  | instruction {i : Instruction} {bs : List UInt8} :
      i.eip = eip → Encodes i bs → m.Holds eip bs → Decodes m eip (.ok i)
  | invalid {opcode : UInt8} : form? opcode = none → m.Holds eip [opcode] →
      Decodes m eip (.error (.invalidOpcode eip opcode))
  | unsupported {opcode modrm : UInt8} {operation : Nat → Nat → Operation} :
      form? opcode = some (.registers operation) → m.Holds eip [opcode, modrm] →
      modrm >>> 6 ≠ 0b11 → Decodes m eip (.error (.unsupportedOperand eip modrm))

theorem Decodes.of_takes (hcap : m.capacity < UInt32.size) (hform : form? opcode = some form)
    (htakes : form.Takes bs operation) (hop : m.Holds eip [opcode]) (hbs : m.Holds (eip + 1) bs) :
    Decodes m eip (.ok ⟨eip, opcode, form.length, operation⟩) := by
  rw [← htakes.length_eq]
  exact .instruction rfl (.intro (form?_eq_some.mp hform) htakes) ((holds_cons hcap).mpr ⟨hop, hbs⟩)

/-- What `decode` finds at an address, in a memory of any size: an opcode, and what follows it. -/
inductive Finds (m : Memory) (eip : UInt32) : Except Fault Instruction → Prop where
  | instruction {opcode : UInt8} {form : Form} {operation : Operation} {bs : List UInt8} :
      form? opcode = some form → form.Takes bs operation → m.Holds eip [opcode] →
      m.Holds (eip + 1) bs → Finds m eip (.ok ⟨eip, opcode, form.length, operation⟩)
  | invalid {opcode : UInt8} : form? opcode = none → m.Holds eip [opcode] →
      Finds m eip (.error (.invalidOpcode eip opcode))
  | unsupported {opcode modrm : UInt8} {operation : Nat → Nat → Operation} :
      form? opcode = some (.registers operation) → m.Holds eip [opcode] → m.Holds (eip + 1) [modrm] →
      modrm >>> 6 ≠ 0b11 → Finds m eip (.error (.unsupportedOperand eip modrm))

theorem finds_of_decode {r : Except Fault Instruction} (h : decode m eip = .ok r) :
    Finds m eip r := by
  rw [decode_eq_byForm] at h
  obtain ⟨x, hx, h⟩ := bind_eq_ok.mp h
  obtain ⟨opcode, hop, rfl⟩ := fetch_byte.mp hx
  simp only [UInt8.toUInt8_toUInt32] at h
  cases hform : form? opcode with
  | none =>
    rw [hform] at h
    cases h
    exact .invalid hform hop
  | some form =>
    rw [hform] at h
    cases form with
    | bare operation =>
      -- nothing is read, and the row of no bytes stands anywhere inside the memory
      have hin : (eip + 1).toNat ≤ m.capacity := by
        rw [UInt32.toNat_add]
        exact (Nat.mod_le _ _).trans hop.1
      cases h
      exact .instruction hform .bare hop ⟨hin, rfl⟩
    | byte operation =>
      obtain ⟨x, hx, h⟩ := bind_eq_ok.mp h
      obtain ⟨b, hb, rfl⟩ := fetch_byte.mp hx
      cases h
      exact .instruction hform (.byte b) hop hb
    | word operation =>
      obtain ⟨w, hw, h⟩ := bind_eq_ok.mp h
      cases h
      exact .instruction hform (.word w) hop (fetch_word.mp hw)
    | registers operation =>
      obtain ⟨x, hx, h⟩ := bind_eq_ok.mp h
      obtain ⟨modrm, hb, rfl⟩ := fetch_byte.mp hx
      simp only [UInt8.toUInt8_toUInt32] at h
      -- two bits decide whether the byte names registers
      split at h
      next htop =>
        cases h
        exact .instruction hform (takes_registers.mpr ⟨htop, rfl⟩) hop hb
      next htop =>
        cases h
        exact .unsupported hform hop hb htop

theorem decodes_of_decode {r : Except Fault Instruction} (hcap : m.capacity < UInt32.size)
    (h : decode m eip = .ok r) : Decodes m eip r := by
  cases finds_of_decode h with
  | instruction hform htakes hop hbs => exact .of_takes hcap hform htakes hop hbs
  | invalid hform hop => exact .invalid hform hop
  | unsupported hform hop hb htop =>
    exact .unsupported hform ((holds_cons hcap).mpr ⟨hop, hb⟩) htop

theorem Decodes.decode_eq {r : Except Fault Instruction} (hcap : m.capacity < UInt32.size)
    (h : Decodes m eip r) : decode m eip = .ok r := by
  rw [decode_eq_byForm]
  cases h with
  | @invalid opcode hform hop =>
    refine bind_eq_ok.mpr ⟨_, fetch_byte.mpr ⟨opcode, hop, rfl⟩, ?_⟩
    simp only [UInt8.toUInt8_toUInt32, hform]
    rfl
  | @unsupported opcode modrm operation hform hm htop =>
    obtain ⟨hop, hb⟩ := (holds_cons hcap).mp hm
    refine bind_eq_ok.mpr ⟨_, fetch_byte.mpr ⟨opcode, hop, rfl⟩, ?_⟩
    simp only [UInt8.toUInt8_toUInt32, hform]
    refine bind_eq_ok.mpr ⟨_, fetch_byte.mpr ⟨modrm, hb, rfl⟩, ?_⟩
    simp only [UInt8.toUInt8_toUInt32, htop, ↓reduceIte]
    rfl
  | instruction heip henc hm =>
    obtain @⟨eip, opcode, form, operation, bs, hlisted, htakes⟩ := henc
    obtain rfl : eip = _ := heip
    obtain ⟨hop, hbs⟩ := (holds_cons hcap).mp hm
    refine bind_eq_ok.mpr ⟨_, fetch_byte.mpr ⟨opcode, hop, rfl⟩, ?_⟩
    -- behind the opcode, each form is read as it was written
    simp only [UInt8.toUInt8_toUInt32, hlisted.form?_eq, htakes.length_eq]
    cases htakes with
    | bare => rfl
    | byte b => exact bind_eq_ok.mpr ⟨_, fetch_byte.mpr ⟨b, hbs, rfl⟩, rfl⟩
    | word w => exact bind_eq_ok.mpr ⟨w, fetch_word.mpr hbs, rfl⟩
    | @registers operation upper lower =>
      have htakes : (Form.registers operation).Takes _ _ := .registers upper lower
      obtain ⟨htop, hoperation⟩ := takes_registers.mp htakes
      refine bind_eq_ok.mpr ⟨_, fetch_byte.mpr ⟨_, hbs, rfl⟩, ?_⟩
      simp only [UInt8.toUInt8_toUInt32, htop, ↓reduceIte, hoperation]
      rfl

theorem decode_eq_ok {r : Except Fault Instruction} (hcap : m.capacity < UInt32.size) :
    decode m eip = .ok r ↔ Decodes m eip r :=
  ⟨decodes_of_decode hcap, Decodes.decode_eq hcap⟩

/-! ## The encoding -/

theorem registersByte_eq (upper lower : Fin 8) :
    registersByte upper lower = UInt8.ofNat (0xC0 + 8 * upper + lower) := by
  decide +revert

/-- An instruction has one encoding, the one that its opcode names. -/
theorem Encodes.encode_eq (h : Encodes i bs) : i.encode = bs := by
  obtain @⟨eip, opcode, form, operation, bs, hlisted, htakes⟩ := h
  cases hlisted with
  | plain h =>
    cases htakes
    fin_cases h <;> rfl
  | register r h =>
    cases htakes
    fin_cases h <;> rfl
  | byte h =>
    cases htakes with
    | byte b => fin_cases h <;> simp [Instruction.encode]
  | word h =>
    cases htakes with
    | word w => fin_cases h <;> rfl
  | moveImmediate r =>
    cases htakes
    rfl
  | moveToLower | moveToUpper =>
    cases htakes with
    | registers upper lower =>
      rw [← registersByte_eq]
      rfl

theorem Encodes.length_eq (h : Encodes i bs) : i.length.toNat = bs.length := by
  obtain ⟨hlisted, htakes⟩ := h
  rw [htakes.length_eq]
  cases htakes <;> rfl

theorem Form.exists_takes (form : Form) : ∃ bs operation, form.Takes bs operation := by
  cases form with
  | bare operation => exact ⟨_, _, .bare⟩
  | byte operation => exact ⟨_, _, .byte 0⟩
  | word operation => exact ⟨_, _, .word 0⟩
  | registers operation => exact ⟨_, _, .registers 0 0⟩

/-- The opcodes that are not found begin no encoding. -/
theorem form?_eq_none : form? opcode = none ↔ ∀ i bs, ¬ Encodes i (opcode :: bs) := by
  constructor
  · intro hform i bs h
    obtain ⟨hlisted, -⟩ := h
    rw [hlisted.form?_eq] at hform
    cases hform
  · intro h
    cases hform : form? opcode with
    | none => rfl
    | some form =>
      obtain ⟨bs, operation, htakes⟩ := form.exists_takes
      exact absurd (.intro (form?_eq_some.mp hform) htakes) (h ⟨0, _, _, _⟩ bs)

/-- The opcodes that a byte with two registers follows. -/
theorem Listed.of_registers {operation : Nat → Nat → Operation}
    (h : Listed opcode (.registers operation)) : opcode = 0x89 ∨ opcode = 0x8B := by
  cases h with
  | moveToLower => exact .inl rfl
  | moveToUpper => exact .inr rfl

/-! ## Decoding -/

/-- Where the memory ends before the addresses do, an instruction is decoded just if its encoding
stands at the address. The other bytes are refused: those that begin no encoding, and a move whose
operand is not a register. -/
theorem decode_iff_encodes (hcap : m.capacity < UInt32.size) :
    (∀ i, decode m eip = .ok (.ok i) ↔ i.eip = eip ∧ ∃ bs, Encodes i bs ∧ m.Holds eip bs) ∧
    (∀ i bs, Encodes i bs → i.encode = bs ∧ i.length.toNat = bs.length) ∧
    (∀ eip' opcode, decode m eip = .ok (.error (.invalidOpcode eip' opcode)) ↔
      eip' = eip ∧ m.Holds eip [opcode] ∧ ∀ i bs, ¬ Encodes i (opcode :: bs)) ∧
    (∀ eip' modrm, decode m eip = .ok (.error (.unsupportedOperand eip' modrm)) ↔
      eip' = eip ∧ modrm >>> 6 ≠ 0b11 ∧
        ∃ opcode, (opcode = 0x89 ∨ opcode = 0x8B) ∧ m.Holds eip [opcode, modrm]) := by
  simp only [decode_eq_ok hcap, ← form?_eq_none]
  refine ⟨fun i => ⟨?_, ?_⟩, fun i bs h => ⟨h.encode_eq, h.length_eq⟩, fun eip' opcode => ⟨?_, ?_⟩,
    fun eip' modrm => ⟨?_, ?_⟩⟩
  · intro h
    cases h with
    | instruction heip henc hm => exact ⟨heip, _, henc, hm⟩
  · rintro ⟨heip, bs, henc, hm⟩
    exact .instruction heip henc hm
  · intro h
    cases h with
    | invalid hform hop => exact ⟨rfl, hop, hform⟩
  · rintro ⟨rfl, hop, hform⟩
    exact .invalid hform hop
  · intro h
    cases h with
    | unsupported hform hm htop => exact ⟨rfl, htop, _, (form?_eq_some.mp hform).of_registers, hm⟩
  · rintro ⟨rfl, htop, opcode, rfl | rfl, hm⟩
    · exact .unsupported rfl hm htop
    · exact .unsupported rfl hm htop

end Monitor386
