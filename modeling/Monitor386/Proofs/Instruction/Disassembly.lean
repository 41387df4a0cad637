import Mathlib
import Monitor386.Proofs.Instruction.Accesses
import Monitor386.Proofs.Text.Digits
import Monitor386.Proofs.Text.Fitting

/-!
# What a disassembly tells

A disassembly is a word and a row of operands. Several instructions share a word, but then they have operands
of different kinds, and an operand shows its kind: `$` and `%` mark a value and a register, an address starts
with `0x`, and the target of a transfer is bare digits. So the word and the operands can be read off the text,
and the instruction off these, but for the address and the length of its code.

* `Operand.chars_inj`, `row_inj`: a row of operands is read back.
* `Instruction.chars_eq`, `Instruction.operation_read`: the parts of a disassembly, and what they stand for.
* `Instruction.text_eq_iff`: when two instructions have one disassembly.
* `text_printAssembly`: a disassembly is never cut.
* `Cpu.disassembly_identifies`: the text that an instruction leaves tells which instruction it was.
-/

namespace Monitor386

/-! ## Operands -/

/-- An operand as it is written. -/
inductive Operand where
  /-- A word that is used as it is. -/
  | value (x : UInt32)
  /-- The place of a word in the memory. -/
  | address (addr : UInt32)
  | register (index : Nat)
  /-- Where a transfer goes. -/
  | target (addr : UInt32)
  deriving DecidableEq

namespace Operand

/-- The characters of an operand. -/
def chars : Operand → List Char
  | value x => '$' :: (Instruction.hexText x).toList
  | address addr => (Instruction.hexText addr).toList
  | register index => (Instruction.registerText index).toList
  | target addr => Nat.toDigits 16 addr.toNat

/-- True of an operand, unless it is a register that does not exist. -/
def Exists : Operand → Prop
  | register index => index < 8
  | _ => True

end Operand

theorem chars_hexText (x : UInt32) :
    (Instruction.hexText x).toList = '0' :: 'x' :: Nat.toDigits 16 x.toNat := by
  simp only [Instruction.hexText, Text.hex, String.toList_append, String.toList_ofList]
  rfl

theorem chars_registerText (index : Nat) : ∃ name, (Instruction.registerText index).toList = '%' :: name :=
  ⟨_, String.toList_append⟩

theorem registerText_inj : ∀ r < 8, ∀ r' < 8,
    (Instruction.registerText r).toList = (Instruction.registerText r').toList → r = r' := by
  decide

theorem toDigits_word_inj {x y : UInt32} (h : Nat.toDigits 16 x.toNat = Nat.toDigits 16 y.toNat) :
    x = y := by
  have hvalue := congrArg (Text.value 16) h
  rw [Text.value_toDigits (by decide) (by decide), Text.value_toDigits (by decide) (by decide)] at hvalue
  exact UInt32.toNat_inj.mp hvalue

theorem not_mem_toDigits {c : Char} (hc : Text.isHexDigit c = false) (n : Nat) :
    c ∉ Nat.toDigits 16 n := by
  intro h
  rw [Text.isHexDigit_of_mem_toDigits h] at hc
  cases hc

namespace Operand

variable {o o' : Operand}

theorem value_chars (x : UInt32) : (value x).chars = '$' :: '0' :: 'x' :: Nat.toDigits 16 x.toNat := by
  rw [chars, chars_hexText]

theorem address_chars (addr : UInt32) :
    (address addr).chars = '0' :: 'x' :: Nat.toDigits 16 addr.toNat :=
  chars_hexText addr

theorem register_chars (index : Nat) : ∃ name, (register index).chars = '%' :: name :=
  chars_registerText index

/-- The digits of a target are no other operand. -/
theorem target_ne {addr : UInt32} (ho : ∀ addr', o ≠ target addr') : (target addr).chars ≠ o.chars := by
  intro h
  have hdigits (c : Char) (hc : c ∈ o.chars) : Text.isHexDigit c = true :=
    Text.isHexDigit_of_mem_toDigits (h ▸ hc)
  cases o with
  | value x =>
    rw [value_chars] at hdigits
    exact absurd (hdigits '$' (by simp)) (by decide)
  | address addr' =>
    rw [address_chars] at hdigits
    exact absurd (hdigits 'x' (by simp)) (by decide)
  | register index =>
    obtain ⟨name, hname⟩ := register_chars index
    rw [hname] at hdigits
    exact absurd (hdigits '%' (by simp)) (by decide)
  | target addr' => exact ho addr' rfl

/-- An operand is read back. -/
theorem chars_inj (ho : o.Exists) (ho' : o'.Exists) (h : o.chars = o'.chars) : o = o' := by
  -- operands of two kinds differ in the first characters, and those of one kind are read back
  cases o with
  | target addr =>
    cases o' with
    | target addr' => rw [toDigits_word_inj h]
    | _ => exact absurd h (target_ne nofun)
  | value x =>
    cases o' with
    | target addr => exact absurd h.symm (target_ne nofun)
    | value y =>
      simp only [value_chars, List.cons.injEq, true_and] at h
      rw [toDigits_word_inj h]
    | address addr => simp [value_chars, address_chars] at h
    | register index =>
      obtain ⟨name, hname⟩ := register_chars index
      simp [value_chars, hname] at h
  | address addr =>
    cases o' with
    | target addr => exact absurd h.symm (target_ne nofun)
    | value x => simp [value_chars, address_chars] at h
    | address addr' =>
      simp only [address_chars, List.cons.injEq, true_and] at h
      rw [toDigits_word_inj h]
    | register index =>
      obtain ⟨name, hname⟩ := register_chars index
      simp [address_chars, hname] at h
  | register index =>
    obtain ⟨name, hname⟩ := register_chars index
    cases o' with
    | target addr => exact absurd h.symm (target_ne nofun)
    | value x => simp [value_chars, hname] at h
    | address addr => simp [address_chars, hname] at h
    | register index' => rw [registerText_inj index ho index' ho' h]

/-- Operands are written without commas. -/
theorem not_mem_chars (ho : o.Exists) : ',' ∉ o.chars := by
  have hdigits := not_mem_toDigits (c := ',') (by decide)
  cases o with
  | value x =>
    rw [value_chars]
    simpa using hdigits x.toNat
  | address addr =>
    rw [address_chars]
    simpa using hdigits addr.toNat
  | register index =>
    have hnames : ∀ r < 8, ',' ∉ (Instruction.registerText r).toList := by decide
    exact hnames index ho
  | target addr => exact hdigits addr.toNat

end Operand

/-- A text is read up to the first mark, and from there. -/
theorem eq_of_append_mark {c : Char} {u u' v v' : List Char} (hu : c ∉ u) (hu' : c ∉ u')
    (h : u ++ c :: v = u' ++ c :: v') : u = u' ∧ v = v' := by
  obtain ⟨w, rfl, hw⟩ | ⟨w, rfl, hw⟩ := List.append_eq_append_iff.mp h
  · cases w with
    | nil => simpa using hw
    | cons d w =>
      obtain ⟨rfl, -⟩ := List.cons.inj hw
      exact absurd (by simp) hu'
  · cases w with
    | nil => simpa [eq_comm] using hw
    | cons d w =>
      obtain ⟨rfl, -⟩ := List.cons.inj hw
      exact absurd (by simp) hu

/-- The operands after the first one. -/
def moreOperands (os : List Operand) : List Char :=
  os.flatMap fun o => ',' :: o.chars

/-- A row of operands, as it follows a word. -/
def operandRow : List Operand → List Char
  | [] => []
  | o :: os => ' ' :: (o.chars ++ moreOperands os)

theorem moreOperands_inj {o o' : Operand} {os os' : List Operand} (hos : ∀ x ∈ o :: os, x.Exists)
    (hos' : ∀ x ∈ o' :: os', x.Exists)
    (h : o.chars ++ moreOperands os = o'.chars ++ moreOperands os') : o :: os = o' :: os' := by
  induction os generalizing o o' os' with
  | nil =>
    obtain ⟨ho, -⟩ := List.forall_mem_cons.mp hos
    obtain ⟨ho', -⟩ := List.forall_mem_cons.mp hos'
    cases os' with
    | nil =>
      simp only [moreOperands, List.flatMap_nil, List.append_nil] at h
      rw [Operand.chars_inj ho ho' h]
    | cons x xs =>
      -- there is a comma on the right, and none on the left
      refine absurd ?_ (Operand.not_mem_chars ho)
      simp only [moreOperands, List.flatMap_nil, List.append_nil, List.flatMap_cons] at h
      simp [h]
  | cons x xs ih =>
    obtain ⟨ho, hxs⟩ := List.forall_mem_cons.mp hos
    obtain ⟨ho', hos'⟩ := List.forall_mem_cons.mp hos'
    cases os' with
    | nil =>
      refine absurd ?_ (Operand.not_mem_chars ho')
      simp only [moreOperands, List.flatMap_nil, List.append_nil, List.flatMap_cons] at h
      simp [← h]
    | cons x' xs' =>
      have hcomma (y : Operand) (ys : List Operand) :
          moreOperands (y :: ys) = ',' :: (y.chars ++ moreOperands ys) := rfl
      rw [hcomma, hcomma] at h
      obtain ⟨hchars, h⟩ :=
        eq_of_append_mark (Operand.not_mem_chars ho) (Operand.not_mem_chars ho') h
      rw [Operand.chars_inj ho ho' hchars, ih hxs hos' h]

/-! ## The parts of a disassembly -/

/-- The word of a disassembly. The four kinds of move have the same. -/
def Mnemonic.word : Mnemonic → String
  | nop => "nop"
  | moveImmediate | move | load | store => "mov"
  | push => "push"
  | pop => "pop"
  | add => "add"
  | sub => "sub"
  | compare => "cmp"
  | inc => "inc"
  | dec => "dec"
  | call => "call"
  | ret => "ret"
  | jump .always => "jmp"
  | jump .zero => "je"
  | jump .nonzero => "jne"
  | breakpoint => "int3"
  | finish => "nemu trap"

namespace Instruction

variable {i i' : Instruction}

/-- Where a transfer goes that shows it. -/
def destination? (i : Instruction) : Option UInt32 :=
  match i.operation with
  | .call x | .jump _ x => some (i.target x)
  | _ => none

/-- The operands in the order in which they are written. -/
def operands (i : Instruction) : List Operand :=
  match i.operation with
  | .moveImmediate dst x | .add dst x | .sub dst x | .compare dst x => [.value x, .register dst]
  | .move dst src => [.register src, .register dst]
  | .load dst addr => [.address addr, .register dst]
  | .store src addr => [.register src, .address addr]
  | .push r | .pop r | .inc r | .dec r => [.register r]
  | .call x | .jump _ x => [.target (i.target x)]
  | .nop | .ret | .breakpoint | .finish => []

/-- A disassembly is a word and a row of operands. -/
theorem chars_eq (i : Instruction) :
    i.text.toList = i.operation.mnemonic.word.toList ++ operandRow i.operands := by
  obtain ⟨eip, opcode, length, operation⟩ := i
  cases operation with
  | jump condition x =>
    cases condition <;>
      simp [text, operands, operandRow, moreOperands, Operand.chars, Operation.mnemonic, Mnemonic.word,
        conditionText, Text.hex]
  | _ =>
    simp [text, operands, operandRow, moreOperands, Operand.chars, Operation.mnemonic, Mnemonic.word,
      Text.hex]

/-- The words that stand alone. One of them has a blank inside. -/
def bareWords : List String :=
  ["nop", "ret", "int3", "nemu trap"]

/-- The words that operands follow. -/
def operandWords : List String :=
  ["mov", "push", "pop", "add", "sub", "cmp", "inc", "dec", "call", "jmp", "je", "jne"]

/-- Operands follow some words, and others never. -/
theorem word_cases (i : Instruction) :
    i.operands = [] ∧ i.operation.mnemonic.word ∈ bareWords ∨
      (∃ o os, i.operands = o :: os) ∧ i.operation.mnemonic.word ∈ operandWords := by
  obtain ⟨eip, opcode, length, operation⟩ := i
  cases operation with
  | nop | ret | breakpoint | finish =>
    exact .inl ⟨rfl, by simp [Operation.mnemonic, Mnemonic.word, bareWords]⟩
  | jump condition x =>
    refine .inr ⟨⟨_, _, rfl⟩, ?_⟩
    cases condition <;> simp [Operation.mnemonic, Mnemonic.word, operandWords]
  | _ => exact .inr ⟨⟨_, _, rfl⟩, by simp [Operation.mnemonic, Mnemonic.word, operandWords]⟩

/-- No blank is inside a word that operands follow. -/
theorem not_mem_word : ∀ word ∈ operandWords, ' ' ∉ word.toList := by decide

/-- A word that stands alone is not a word that operands follow, and a blank. -/
theorem bare_ne : ∀ word ∈ operandWords, ∀ bare ∈ bareWords,
    ¬ word.toList ++ [' '] <+: bare.toList := by decide

/-- The operands of an instruction can be written. -/
theorem operands_exist (h : i.operation.RegistersExist) : ∀ o ∈ i.operands, o.Exists := by
  obtain ⟨eip, opcode, length, operation⟩ := i
  cases operation <;>
    simp_all [operands, Operand.Exists, Operation.RegistersExist, Operation.registers]

/-- The word and the operands are read back. -/
theorem parts_of_text (hi : i.operation.RegistersExist) (hi' : i'.operation.RegistersExist)
    (h : i.text = i'.text) :
    i.operation.mnemonic.word = i'.operation.mnemonic.word ∧ i.operands = i'.operands := by
  have hos := operands_exist hi
  have hos' := operands_exist hi'
  have h := congrArg String.toList h
  rw [chars_eq, chars_eq] at h
  obtain ⟨hnil, hword⟩ | ⟨⟨o, os, hcons⟩, hword⟩ := i.word_cases
  · obtain ⟨hnil', hword'⟩ | ⟨⟨o', os', hcons'⟩, hword'⟩ := i'.word_cases
    · rw [hnil, hnil', operandRow, List.append_nil, List.append_nil] at h
      exact ⟨String.toList_inj.mp h, hnil.trans hnil'.symm⟩
    · rw [hnil, hcons', operandRow, operandRow, List.append_nil] at h
      refine absurd ⟨o'.chars ++ moreOperands os', ?_⟩ (bare_ne _ hword' _ hword)
      rw [h, List.append_assoc]
      rfl
  · obtain ⟨hnil', hword'⟩ | ⟨⟨o', os', hcons'⟩, hword'⟩ := i'.word_cases
    · rw [hcons, hnil', operandRow, operandRow, List.append_nil] at h
      refine absurd ⟨o.chars ++ moreOperands os, ?_⟩ (bare_ne _ hword _ hword')
      rw [← h, List.append_assoc]
      rfl
    · rw [hcons, hcons', operandRow, operandRow] at h
      obtain ⟨hchars, h⟩ := eq_of_append_mark (not_mem_word _ hword) (not_mem_word _ hword') h
      rw [hcons, hcons']
      exact ⟨String.toList_inj.mp hchars, moreOperands_inj (hcons ▸ hos) (hcons' ▸ hos') h⟩

/-! ## Which instruction it is -/

/-- What the parts of a disassembly stand for. A transfer has its target in the place of a displacement. -/
def operationOf (word : String) : List Operand → Option Operation
  | [] => [("nop", .nop), ("ret", .ret), ("int3", .breakpoint), ("nemu trap", .finish)].lookup word
  | [.register r] => [("push", .push r), ("pop", .pop r), ("inc", .inc r), ("dec", .dec r)].lookup word
  | [.target x] => [("call", .call x), ("jmp", .jump .always x), ("je", .jump .zero x),
      ("jne", .jump .nonzero x)].lookup word
  | [.value x, .register r] => [("mov", .moveImmediate r x), ("add", .add r x), ("sub", .sub r x),
      ("cmp", .compare r x)].lookup word
  | [.register src, .register dst] => [("mov", .move dst src)].lookup word
  | [.address addr, .register r] => [("mov", .load r addr)].lookup word
  | [.register r, .address addr] => [("mov", .store r addr)].lookup word
  | _ => none

/-- The operation, with the target of a transfer in the place of its displacement. -/
def resolved (i : Instruction) : Operation :=
  match i.operation with
  | .call x => .call (i.target x)
  | .jump condition x => .jump condition (i.target x)
  | operation => operation

theorem operationOf_parts (i : Instruction) :
    operationOf i.operation.mnemonic.word i.operands = some i.resolved := by
  obtain ⟨eip, opcode, length, operation⟩ := i
  cases operation with
  | jump condition x => cases condition <;> rfl
  | _ => rfl

theorem mnemonic_resolved (i : Instruction) : i.resolved.mnemonic = i.operation.mnemonic := by
  obtain ⟨eip, opcode, length, operation⟩ := i
  cases operation <;> rfl

theorem resolved_of_destination (h : i.destination? = none) : i.resolved = i.operation := by
  obtain ⟨eip, opcode, length, operation⟩ := i
  cases operation with
  | call | jump => cases h
  | _ => rfl

theorem destination_of_resolved (h : i.resolved = i'.resolved) : i.destination? = i'.destination? := by
  have hread (i : Instruction) : i.destination? =
      match i.resolved with
      | .call x | .jump _ x => some x
      | _ => none := by
    obtain ⟨eip, opcode, length, operation⟩ := i
    cases operation <;> rfl
  rw [hread i, hread i', h]

/-- A transfer shows its target, and nothing else. -/
theorem operands_of_destination {addr : UInt32} (h : i.destination? = some addr) :
    i.operands = [.target addr] := by
  obtain ⟨eip, opcode, length, operation⟩ := i
  cases operation with
  | call | jump =>
    cases h
    rfl
  | _ => cases h

/-- The operands of other instructions are those of the operation. -/
theorem operands_of_operation (h : i.destination? = none) (ho : i.operation = i'.operation) :
    i.operands = i'.operands := by
  obtain ⟨eip, opcode, length, operation⟩ := i
  obtain ⟨eip', opcode', length', operation'⟩ := i'
  cases ho
  cases operation with
  | call | jump => cases h
  | _ => rfl

/-- Two instructions have one disassembly just if they are of one kind and have the same operands, where
the operand of a transfer is its target. -/
theorem text_eq_iff (hi : i.operation.RegistersExist) (hi' : i'.operation.RegistersExist) :
    i.text = i'.text ↔ i.operation.mnemonic = i'.operation.mnemonic ∧
      i.destination? = i'.destination? ∧ (i.destination? = none → i.operation = i'.operation) := by
  constructor
  · intro h
    obtain ⟨hword, hoperands⟩ := parts_of_text hi hi' h
    have hresolved : i.resolved = i'.resolved := by
      rw [← Option.some.injEq, ← operationOf_parts, ← operationOf_parts, hword, hoperands]
    have hdestination := destination_of_resolved hresolved
    refine ⟨?_, hdestination, fun hnone => ?_⟩
    · rw [← mnemonic_resolved, hresolved, mnemonic_resolved]
    · rw [← resolved_of_destination hnone, hresolved, resolved_of_destination (hdestination ▸ hnone)]
  · rintro ⟨hmnemonic, hdestination, hoperation⟩
    have hoperands : i.operands = i'.operands := by
      cases h : i.destination? with
      | none => exact operands_of_operation h (hoperation h)
      | some addr => rw [operands_of_destination h, operands_of_destination (hdestination ▸ h)]
    rw [← String.toList_inj, chars_eq, chars_eq, hmnemonic, hoperands]

end Instruction

/-! ## The buffer -/

theorem length_registerText (index : Nat) : (Instruction.registerText index).toList.length ≤ 4 := by
  have hnames : ∀ name ∈ RegisterName.full, name.toList.length ≤ 3 := by decide
  have hname : (RegisterName.full.getD index "").toList.length ≤ 3 := by
    rw [List.getD_eq_getElem?_getD]
    cases hget : RegisterName.full[index]? with
    | none => decide
    | some name => exact hnames _ (List.mem_of_getElem? hget)
  rw [Instruction.registerText, String.toList_append, List.length_append]
  show 1 + _ ≤ 4
  omega

theorem length_hex (w : UInt32) : (Text.hex w.toNat).toList.length ≤ 8 := by
  rw [Text.hex, String.toList_ofList]
  exact Nat.toDigits_length 16 w.toNat 8 (by decide) w.toNat_lt

theorem length_hexText (w : UInt32) : (Instruction.hexText w).toList.length ≤ 10 := by
  have hdigits := length_hex w
  rw [Instruction.hexText, String.toList_append, List.length_append]
  show 2 + _ ≤ 10
  omega

theorem length_conditionText (condition : Condition) :
    (Instruction.conditionText condition).toList.length ≤ 3 := by
  cases condition <;> decide

/-- A disassembly has at most 20 characters: a mnemonic, a word with its marks, and a register. -/
theorem length_text (i : Instruction) : i.text.toList.length ≤ 20 := by
  obtain ⟨eip, opcode, length, operation⟩ := i
  cases operation with
  | nop | ret | breakpoint | finish =>
    simp only [Instruction.text]
    decide
  | _ =>
    -- the length is a sum, and each operand in it has its bound
    simp only [Instruction.text, String.toList_append, List.length_append, String.reduceToList,
      List.length_cons, List.length_nil]
    grind [length_registerText, length_hexText, length_hex, length_conditionText]

/-- A disassembly is never cut. -/
theorem text_printAssembly (c : Cpu) (i : Instruction) : (c.printAssembly i.text).assembly.text = i.text := by
  have hchars : (c.printAssembly i.text).assembly.chars = i.text.toList := by
    apply Text.chars_fill_of_length
    have hlength := length_text i
    unfold assemblyCapacity
    omega
  rw [Text.Bounded.text, hchars, String.ofList_toList]

theorem text_execute {c d : Cpu} {i : Instruction} {trap : Option Trap} (h : c.execute i = .ok (d, trap)) :
    d.assembly.text = i.text := by
  obtain ⟨c', -, h⟩ := bind_eq_ok.mp h
  cases h
  exact text_printAssembly c' i

/-- The text that an instruction leaves is its whole disassembly, and it tells the instruction, but for
where and how it is encoded: two instructions that leave one text are of one kind, and they have the same
target if they are transfers that show it, and the same operands if not. -/
theorem Cpu.disassembly_identifies {m m' : Memory} {eip eip' : UInt32} {i i' : Instruction}
    {c c' d d' : Cpu} {trap trap' : Option Trap} (hi : decode m eip = .ok (.ok i))
    (hi' : decode m' eip' = .ok (.ok i')) (hd : c.execute i = .ok (d, trap))
    (hd' : c'.execute i' = .ok (d', trap')) :
    d.assembly.text = i.text ∧
      (d.assembly.text = d'.assembly.text ↔
        i.operation.mnemonic = i'.operation.mnemonic ∧ i.destination? = i'.destination? ∧
          (i.destination? = none → i.operation = i'.operation)) := by
  have htext := text_execute hd
  rw [htext, text_execute hd']
  exact ⟨rfl, Instruction.text_eq_iff (registersExist_of_decode hi) (registersExist_of_decode hi')⟩

/-- A short and a long jump from one place to another are different operations with one disassembly. -/
theorem Cpu.disassembly_identifies_jumps :
    let short : Memory := ⟨16, Store.empty.splice 0 [0xEB, 0x03]⟩
    let long : Memory := ⟨16, Store.empty.splice 0 [0xE9, 0x00, 0x00, 0x00, 0x00]⟩
    let i : Instruction := ⟨0, 0xEB, 2, .jump .always 3⟩
    let i' : Instruction := ⟨0, 0xE9, 5, .jump .always 0⟩
    ∃ d d', decode short 0 = .ok (.ok i) ∧ decode long 0 = .ok (.ok i') ∧
      (⟨.initial, short, .empty⟩ : Cpu).execute i = .ok (d, none) ∧
      (⟨.initial, long, .empty⟩ : Cpu).execute i' = .ok (d', none) ∧
      d.assembly.text = "jmp 5" ∧ d.assembly.text = d'.assembly.text ∧ i.operation ≠ i'.operation := by
  intro short long i i'
  have hshort : decode short 0 = .ok (.ok i) := by
    have hread : (decode short 0).toOption.bind Except.toOption = some i := by decide +kernel
    obtain ⟨r, hr, hi⟩ := Option.bind_eq_some_iff.mp hread
    rw [eq_ok_of_toOption hr, eq_ok_of_toOption hi]
  have hlong : decode long 0 = .ok (.ok i') := by
    have hread : (decode long 0).toOption.bind Except.toOption = some i' := by decide +kernel
    obtain ⟨r, hr, hi⟩ := Option.bind_eq_some_iff.mp hread
    rw [eq_ok_of_toOption hr, eq_ok_of_toOption hi]
  obtain ⟨d, hd⟩ : ∃ d, (⟨.initial, short, .empty⟩ : Cpu).execute i = .ok (d, none) := ⟨_, rfl⟩
  obtain ⟨d', hd'⟩ : ∃ d', (⟨.initial, long, .empty⟩ : Cpu).execute i' = .ok (d', none) := ⟨_, rfl⟩
  obtain ⟨htext, hsame⟩ := disassembly_identifies hshort hlong hd hd'
  have hjump : i.text = "jmp 5" := by decide +kernel
  exact ⟨d, d', hshort, hlong, hd, hd', htext.trans hjump, hsame.mpr ⟨rfl, by decide, nofun⟩,
    by decide⟩

end Monitor386
