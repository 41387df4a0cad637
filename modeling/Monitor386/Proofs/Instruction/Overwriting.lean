import Mathlib
import Monitor386.Proofs.Instruction.Footprint
import Monitor386.Proofs.Memory.Groups

/-!
# Instructions that write over themselves

An instruction writes at most one word, and nothing keeps it from writing over its own bytes. Whoever looks
at these bytes after the instruction was executed sees what it wrote.

* `Cpu.effect_writes`, `Cpu.effect_memory`: the memory after an instruction, from the state before it.
* `decode_bytes?`: an instruction that is decoded has its bytes at its address.
* `decode_of_bytes?`: the instruction is decoded again from bytes just if these are its own.
* `Cpu.RewritesItself.overlaps`: an instruction can rewrite itself only where its footprint overlaps it.
* `Cpu.bytes?_memoryAfter_iff`: its bytes are the same afterwards just if it does not rewrite itself.
-/

namespace Monitor386

variable {c c' : Cpu} {i : Instruction} {m : Memory} {eip : UInt32}

/-! ## The word that is written -/

namespace Memory

variable {m' : Memory} {addr x : UInt32}

/-- The memory after at most a word was written, inside it. -/
inductive Writes (m : Memory) : Option (UInt32 × UInt32) → Memory → Prop where
  | none : Writes m none m
  | word {addr x : UInt32} : addr.toNat + 4 ≤ m.capacity → Writes m (some (addr, x)) (m.withWord addr x)

theorem Writes.of_eq (h : m' = m) : m.Writes .none m' :=
  h ▸ .none

theorem Writes.of_write (h : m.write .program addr 4 x = .ok m') : m.Writes (some (addr, x)) m' := by
  obtain ⟨hin, rfl⟩ := write_word.mp h
  exact .word hin

end Memory

namespace Cpu

/-- The word that an instruction writes: its address and its value. -/
def written? (c : Cpu) (i : Instruction) : Option (UInt32 × UInt32) :=
  match i.operation with
  | .store src addr => (c.registers.word src).toOption.map fun x => (addr, x)
  | .push src => (c.registers.word src).toOption.map fun x =>
      (c.registers.get Registers.esp .full - 4, x)
  | .call _ => some (c.registers.get Registers.esp .full - 4, i.next)
  | _ => none

/-- The memory after an instruction. -/
def memoryAfter (c : Cpu) (i : Instruction) : Memory :=
  (c.written? i).elim c.memory fun word => c.memory.withWord word.1 word.2

theorem push_writes {x : UInt32} (h : c.push x = .ok c') :
    c.memory.Writes (some (c.registers.get Registers.esp .full - 4, x)) c'.memory := by
  obtain ⟨m, hm, h⟩ := bind_eq_ok.mp h
  cases h
  exact .of_write hm

theorem memory_of_pop {x : UInt32} (h : c.pop = .ok (x, c')) : c'.memory = c.memory := by
  obtain ⟨y, -, h⟩ := bind_eq_ok.mp h
  cases h
  rfl

theorem memory_of_setWord {index : Nat} {x : UInt32} (h : c.setWord index x = .ok c') :
    c'.memory = c.memory := by
  obtain ⟨s, -, rfl⟩ := setWord_eq_ok.mp h
  rfl

theorem memory_of_update {index : Nat} {g : Eflags → UInt32 → UInt32 × Eflags}
    (h : c.update index g = .ok c') : c'.memory = c.memory := by
  obtain ⟨s, -, rfl⟩ := update_eq_ok.mp h
  rfl

/-- An effect writes the word of its instruction, and nothing else, to the memory. -/
theorem effect_writes (h : c.effect i = .ok c') : c.memory.Writes (c.written? i) c'.memory := by
  obtain ⟨eip, opcode, length, operation⟩ := i
  -- three operations write a word: a store, a push and a call
  cases operation with
  | nop | breakpoint | finish =>
    cases h
    exact .none
  | jump condition encoded =>
    cases h
    apply Memory.Writes.of_eq
    split <;> rfl
  | moveImmediate dst value => exact .of_eq (memory_of_setWord h)
  | move dst src | load dst addr =>
    obtain ⟨y, -, h⟩ := bind_eq_ok.mp h
    exact .of_eq (memory_of_setWord h)
  | add dst value | sub dst value | compare dst value | inc dst | dec dst =>
    simp only [effect] at h
    exact .of_eq (memory_of_update h)
  | pop dst =>
    obtain ⟨⟨y, c₁⟩, hpop, h⟩ := bind_eq_ok.mp h
    exact .of_eq ((memory_of_setWord h).trans (memory_of_pop hpop))
  | ret =>
    obtain ⟨⟨y, c₁⟩, hpop, h⟩ := bind_eq_ok.mp h
    cases h
    have hmem : c₁.memory = c.memory := memory_of_pop hpop
    exact .of_eq hmem
  | store src addr =>
    obtain ⟨y, hy, h⟩ := bind_eq_ok.mp h
    obtain ⟨m, hm, h⟩ := bind_eq_ok.mp h
    cases h
    simp only [written?, hy]
    exact .of_write hm
  | push src =>
    obtain ⟨y, hy, h⟩ := bind_eq_ok.mp h
    simp only [written?, hy]
    exact push_writes h
  | call encoded =>
    obtain ⟨c₁, hpush, h⟩ := bind_eq_ok.mp h
    cases h
    have hmem := push_writes hpush
    exact hmem

theorem effect_memory (h : c.effect i = .ok c') : c'.memory = c.memoryAfter i := by
  have hwrites := effect_writes h
  unfold memoryAfter
  generalize c.written? i = word at hwrites ⊢
  generalize c'.memory = m' at hwrites ⊢
  cases hwrites <;> rfl

/-- A word that an effect writes is inside the memory. -/
theorem effect_fits {addr x : UInt32} (h : c.effect i = .ok c')
    (hw : c.written? i = some (addr, x)) : addr.toNat + 4 ≤ c.memory.capacity := by
  have hwrites := effect_writes h
  rw [hw] at hwrites
  generalize c'.memory = m' at hwrites
  cases hwrites with
  | word hin => exact hin

end Cpu

/-! ## The bytes that are decoded -/

/-- A decoded instruction stands in the memory in its encoding: the opcode, and then its operands. -/
theorem encode_of_decode (h : decode m eip = .ok (.ok i)) :
    i.eip = eip ∧ ∃ bs, Encodes i (i.opcode :: bs) ∧ i.encode = i.opcode :: bs ∧
      m.Holds eip [i.opcode] ∧ m.Holds (eip + 1) bs := by
  cases finds_of_decode h with
  | instruction hform htakes hop hbs =>
    have henc : Encodes ⟨eip, _, _, _⟩ _ := .intro (form?_eq_some.mp hform) htakes
    rw [htakes.length_eq] at henc
    exact ⟨rfl, _, henc, henc.encode_eq, hop, hbs⟩

theorem length_encode (h : decode m eip = .ok (.ok i)) : i.encode.length = i.length.toNat := by
  obtain ⟨-, bs, henc, hencode, -, -⟩ := encode_of_decode h
  rw [hencode, henc.length_eq]

/-- The memory has no more bytes than there are addresses, or the instruction at an address does not run
over the last of them. -/
def Memory.Straight (m : Memory) (eip : UInt32) (i : Instruction) : Prop :=
  m.capacity ≤ UInt32.size ∨ eip.toNat + i.length.toNat ≤ UInt32.size

/-- The bytes at the address of a decoded instruction are its own. -/
theorem decode_bytes? (h : decode m eip = .ok (.ok i)) (hstraight : m.Straight eip i) :
    m.bytes? eip i.length.toNat = i.encode.map some := by
  have hlength := length_encode h
  obtain ⟨-, bs, -, hencode, hop, hbs⟩ := encode_of_decode h
  rw [hencode, List.length_cons] at hlength
  have hend : (eip + 1).toNat + bs.length ≤ UInt32.size := by
    rcases hstraight with hcap | hlast
    · exact hbs.1.trans hcap
    · rw [UInt32.toNat_add]
      show (eip.toNat + 1) % 2 ^ 32 + bs.length ≤ UInt32.size
      have hsize : UInt32.size = 2 ^ 32 := rfl
      omega
  rw [← hlength, hencode, Memory.bytes?_succ, Memory.byte?_eq_some.mpr hop,
    Memory.bytes?_of_holds hbs hend]
  rfl

/-- From bytes in the place of an instruction it is decoded again just if they are its own. -/
theorem decode_of_bytes? {m' : Memory} {bytes : List (Option UInt8)} (h : decode m eip = .ok (.ok i))
    (hcap : m'.capacity < UInt32.size) (hbytes : m'.bytes? eip i.length.toNat = bytes) :
    decode m' eip = .ok (.ok i) ↔ bytes = i.encode.map some := by
  constructor
  · intro h'
    rw [← hbytes, decode_bytes? h' (.inl hcap.le)]
  · rintro rfl
    rw [← length_encode h] at hbytes
    obtain ⟨heip, bs, henc, hencode, -, -⟩ := encode_of_decode h
    rw [hencode] at hbytes
    have hfirst : m'.Holds eip [i.opcode] := by
      rw [List.length_cons, Memory.bytes?_succ, List.map_cons, List.cons.injEq] at hbytes
      exact Memory.byte?_eq_some.mp hbytes.1
    have hin : eip.toNat ≤ m'.capacity := Nat.le_of_succ_le hfirst.1
    exact (Decodes.instruction heip henc (Memory.holds_of_bytes? hcap hin hbytes)).decode_eq hcap

/-! ## Writing over itself -/

namespace Cpu

/-- The instruction at the instruction pointer writes over one of its own bytes, and writes another byte
there. -/
def RewritesItself (c : Cpu) (i : Instruction) : Prop :=
  ∃ addr x, c.written? i = some (addr, x) ∧ ∃ (j k : Nat) (b b' : UInt8),
    i.encode[j]? = some b ∧ (LittleEndian.spread 4 x.toNat)[k]? = some b' ∧
      (c.registers.eip + UInt32.ofNat j).toNat = addr.toNat + k ∧ b ≠ b'

/-- The word that is written is in the footprint. -/
theorem footprint_word {addr x : UInt32} (h : c.written? i = some (addr, x)) :
    (c.footprint i.operation).word = some addr := by
  obtain ⟨eip, opcode, length, operation⟩ := i
  cases operation with
  | store src addr' =>
    have h : (c.registers.word src).toOption.map (fun x => (addr', x)) = some (addr, x) := h
    obtain ⟨y, -, h⟩ := Option.map_eq_some_iff.mp h
    cases h
    rfl
  | push src =>
    have h : (c.registers.word src).toOption.map
        (fun x => (c.registers.get Registers.esp .full - 4, x)) = some (addr, x) := h
    obtain ⟨y, -, h⟩ := Option.map_eq_some_iff.mp h
    cases h
    rfl
  | call encoded =>
    cases h
    rfl
  | _ => cases h

/-- An instruction that rewrites itself is overlapped by the word of its footprint. -/
theorem RewritesItself.overlaps (h : c.RewritesItself i) :
    ∃ addr, (c.footprint i.operation).word = some addr ∧ ∃ j < i.encode.length, ∃ k < 4,
      (c.registers.eip + UInt32.ofNat j).toNat = addr.toNat + k := by
  obtain ⟨addr, x, hw, j, k, b, b', hb, hb', haddr, -⟩ := h
  have hj : j < i.encode.length := (List.getElem?_eq_some_iff.mp hb).1
  have hk : k < 4 := LittleEndian.length_spread 4 x.toNat ▸ (List.getElem?_eq_some_iff.mp hb').1
  exact ⟨addr, footprint_word hw, j, hj, k, hk, haddr⟩

/-- After an instruction its bytes are still its own just if it does not rewrite itself. -/
theorem bytes?_memoryAfter_iff (hdecode : decode c.memory c.registers.eip = .ok (.ok i))
    (heffect : c.effect i = .ok c') (hstraight : c.memory.Straight c.registers.eip i) :
    (c.memoryAfter i).bytes? c.registers.eip i.length.toNat = i.encode.map some ↔
      ¬ c.RewritesItself i := by
  have hlength := length_encode hdecode
  have hbefore := decode_bytes? hdecode hstraight
  have hbyte {j : Nat} {b : UInt8} (hb : i.encode[j]? = some b) : j < i.length.toNat :=
    hlength ▸ (List.getElem?_eq_some_iff.mp hb).1
  constructor
  -- a byte that is written over with another value shows in the row
  · rintro hafter ⟨addr, x, hw, j, k, b, b', hb, hb', haddr, hne⟩
    have hj := congrArg (·[j]?) hafter
    simp only [List.getElem?_map, hb, Memory.getElem?_bytes? (hbyte hb), memoryAfter, hw,
      Option.elim_some, Memory.byte?_withWord (effect_fits heffect hw) hb' haddr, Option.map_some,
      Option.some.injEq] at hj
    exact hne hj.symm
  · intro hkeeps
    rw [← hbefore]
    refine List.map_congr_left fun j hj => ?_
    have hj := List.mem_range.mp hj
    unfold memoryAfter
    cases hw : c.written? i with
    | none => rfl
    | some word =>
      obtain ⟨addr, x⟩ := word
      rw [Option.elim_some]
      -- a byte of the instruction is inside the written word, where it has to be equal, or outside
      by_cases hin : ∃ k < 4, (c.registers.eip + UInt32.ofNat j).toNat = addr.toNat + k
      · obtain ⟨k, hk, haddr⟩ := hin
        obtain ⟨b, hb⟩ : ∃ b, i.encode[j]? = some b :=
          ⟨_, List.getElem?_eq_getElem (hlength ▸ hj)⟩
        obtain ⟨b', hb'⟩ : ∃ b', (LittleEndian.spread 4 x.toNat)[k]? = some b' :=
          ⟨_, List.getElem?_eq_getElem (by rwa [LittleEndian.length_spread])⟩
        have hown := congrArg (·[j]?) hbefore
        simp only [Memory.getElem?_bytes? hj, List.getElem?_map, hb, Option.map_some,
          Option.some.injEq] at hown
        rw [Memory.byte?_withWord (effect_fits heffect hw) hb' haddr, hown]
        by_contra hne
        exact hkeeps ⟨addr, x, hw, j, k, b, b', hb, hb', haddr, fun h => hne (by rw [h])⟩
      · exact Memory.byte?_withWord_of_ne fun k hk h => hin ⟨k, hk, h⟩

end Cpu

end Monitor386
