import Mathlib
import Monitor386.Proofs.Failure
import Monitor386.Proofs.Registers.Views
import Monitor386.Session

/-!
# The registers by name

The register file is ten cells of 32 bits, and each name stands for a field of one of them:
`registerFields` lists the names, `Named` is the look-up in either case of the letters.

* `ofString?_eq_some`: the names that are found are those of the list, with their fields.
* `read?_named`: what is read by a name are the bits of its field.
* `write?_named`: what is written by a name replaces the bits of its field, and no others.
* `named_fields`: when a name can be written, and what another name reads then.
-/

namespace Monitor386

/-! ## Fields -/

/-- The words that the register file is made of. -/
inductive Cell where
  | general (slot : Fin 8)
  | eip
  | eflags
  deriving DecidableEq, Repr

/-- The bits of a cell from `low` on, `width` of them. -/
structure Field where
  cell : Cell
  low : Nat
  width : Nat
  deriving DecidableEq, Repr

/-- The bit of a cell belongs to the field. -/
def Field.Covers (f : Field) (cell : Cell) (k : Nat) : Prop :=
  cell = f.cell ∧ f.low ≤ k ∧ k < f.low + f.width

instance (f : Field) (cell : Cell) (k : Nat) : Decidable (f.Covers cell k) :=
  inferInstanceAs (Decidable (_ ∧ _))

/-- The fields have a bit in common. -/
def Field.Overlaps (f g : Field) : Prop :=
  ∃ k < g.width, f.Covers g.cell (g.low + k)

/-- The names of the general registers, in order: for the word, for its low half, and for the two bytes
of the half, the lower one first, if they have names. -/
def generalNames : List (String × String × Option (String × String)) :=
  [("eax", "ax", some ("al", "ah")), ("ecx", "cx", some ("cl", "ch")),
    ("edx", "dx", some ("dl", "dh")), ("ebx", "bx", some ("bl", "bh")),
    ("esp", "sp", none), ("ebp", "bp", none), ("esi", "si", none), ("edi", "di", none)]

/-- What the names of a general register stand for. -/
def generalFields (slot : Fin 8) (word half : String) (bytes : Option (String × String)) :
    List (String × Field) :=
  (word, ⟨.general slot, 0, 32⟩) :: (half, ⟨.general slot, 0, 16⟩) ::
    bytes.elim [] fun (low, high) => [(low, ⟨.general slot, 0, 8⟩), (high, ⟨.general slot, 8, 8⟩)]

/-- The names of the registers, with their fields. -/
def registerFields : List (String × Field) :=
  ((List.finRange 8).zip generalNames).flatMap
      (fun (slot, word, half, bytes) => generalFields slot word half bytes) ++
    [("eip", ⟨.eip, 0, 32⟩), ("eflags", ⟨.eflags, 0, 32⟩)]

example : registerFields.map Prod.fst =
    ["eax", "ax", "al", "ah", "ecx", "cx", "cl", "ch", "edx", "dx", "dl", "dh", "ebx", "bx", "bl", "bh",
      "esp", "sp", "ebp", "bp", "esi", "si", "edi", "di", "eip", "eflags"] := by
  decide +kernel

/-- The strings differ at most in the case of ASCII letters. -/
def SameLetters (s t : String) : Prop :=
  s.toList.map Char.toLower = t.toList.map Char.toLower

instance (s t : String) : Decidable (SameLetters s t) :=
  inferInstanceAs (Decidable (_ = _))

/-- The string is the name of a register with this field. -/
def Named (name : String) (f : Field) : Prop :=
  ∃ row ∈ registerFields, SameLetters name row.1 ∧ row.2 = f

instance (name : String) (f : Field) : Decidable (Named name f) :=
  inferInstanceAs (Decidable (∃ row ∈ registerFields, _))

variable {name other : String} {f g : Field} {n : RegisterName} {r r' : Registers}
  {x v : UInt32}

/-! ## Looking names up -/

namespace RegisterName

/-- The field of a register. -/
def field : RegisterName → Field
  | general slot view => ⟨.general slot, view.offset.toNat, view.width⟩
  | eip => ⟨.eip, 0, 32⟩
  | eflags => ⟨.eflags, 0, 32⟩

theorem find?_eq_some {names : List String} {i : Fin 8} (hlen : names.length = 8)
    (h : find? names name = some i) : names[i]? = some name := by
  simp only [find?] at h
  split at h
  next hi =>
    cases h
    exact List.getElem?_idxOf (List.idxOf_lt_length_iff.mp (by rwa [hlen]))
  next => cases h

theorem ofString?_congr (h : SameLetters name other) : ofString? name = ofString? other := by
  unfold SameLetters at h
  rw [ofString?, h, ← ofString?]

/-- Each name of the list is found, with its field. -/
theorem ofString?_row : ∀ row ∈ registerFields, (ofString? row.1).map field = some row.2 := by
  decide +kernel

theorem sameLetters_row {row : String × Field} (hrow : row ∈ registerFields)
    (h : String.ofList (name.toList.map Char.toLower) = row.1) : SameLetters name row.1 := by
  have hlower : ∀ row ∈ registerFields, row.1.toList.map Char.toLower = row.1.toList := by
    decide +kernel
  rw [SameLetters, hlower row hrow, ← h, String.toList_ofList]

/-- What is found is in the list. -/
theorem named_of_ofString? (h : ofString? name = some n) : Named name n.field := by
  generalize hlower : String.ofList (name.toList.map Char.toLower) = lower
  suffices hmem : (lower, n.field) ∈ registerFields from
    ⟨_, hmem, sameLetters_row hmem hlower, rfl⟩
  -- the lists are searched in this order, and each entry found is checked
  simp only [ofString?, hlower] at h
  split at h
  next heip =>
    cases h
    rw [heip]
    decide
  split at h
  next heflags =>
    cases h
    rw [heflags]
    decide
  split at h
  next i hi =>
    have hname := find?_eq_some rfl hi
    cases h
    fin_cases i <;> cases hname <;> decide
  split at h
  next i hi =>
    have hname := find?_eq_some rfl hi
    cases h
    fin_cases i <;> cases hname <;> decide
  obtain ⟨i, hi, rfl⟩ := Option.map_eq_some_iff.mp h
  have hname := find?_eq_some rfl hi
  fin_cases i <;> cases hname <;> decide

theorem ofString?_eq_some : (∃ n, ofString? name = some n ∧ n.field = f) ↔ Named name f := by
  constructor
  · rintro ⟨n, hn, rfl⟩
    exact named_of_ofString? hn
  · rintro ⟨row, hrow, hname, rfl⟩
    rw [ofString?_congr hname]
    exact Option.map_eq_some_iff.mp (ofString?_row row hrow)

end RegisterName

/-! ## Bits of the cells -/

namespace Registers

/-- The word in a cell. -/
def content (r : Registers) : Cell → UInt32
  | .general slot => r.get slot .full
  | .eip => r.eip
  | .eflags => r.eflags.word

theorem testBit_readName (r : Registers) (n : RegisterName) (k : Nat) :
    (r.readName n).toNat.testBit k =
      (decide (k < n.field.width) && (r.content n.field.cell).toNat.testBit (n.field.low + k)) := by
  have hword (w : UInt32) : w.toNat.testBit k = (decide (k < 32) && w.toNat.testBit (0 + k)) := by
    by_cases hk : k < 32
    · simp [hk]
    · simp [hk, testBit_of_le (not_lt.mp hk)]
  cases n with
  | general slot view =>
    rw [readName, get_eq_read]
    exact view.testBit_read _ k
  | eip => exact hword _
  | eflags => exact hword _

theorem testBit_writeName (r : Registers) (v : UInt32) (n : RegisterName) (cell : Cell) (k : Nat) :
    ((r.writeName v n).content cell).toNat.testBit k =
      if n.field.Covers cell k then v.toNat.testBit (k - n.field.low)
      else (r.content cell).toNat.testBit k := by
  -- the two registers without narrower views are written as a whole
  have hword (w : UInt32) : v.toNat.testBit k =
      if 0 ≤ k ∧ k < 0 + 32 then v.toNat.testBit (k - 0) else w.toNat.testBit k := by
    by_cases hk : k < 32
    · simp [hk]
    · simp [hk, testBit_of_le (not_lt.mp hk)]
  cases n with
  | general slot view =>
    cases cell with
    | general slot' =>
      rw [writeName, content, get_set]
      by_cases hslot : slot' = slot
      -- in the register itself the view decides which bits are written
      · rw [if_pos hslot, hslot, View.read_full, View.testBit_write]
        simp only [Field.Covers, RegisterName.field, true_and, content]
      · rw [if_neg hslot]
        simp [Field.Covers, RegisterName.field, hslot, content]
    | eip | eflags =>
      simp only [Field.Covers, RegisterName.field, reduceCtorEq, false_and, ↓reduceIte]
      rfl
  | eip =>
    cases cell with
    | eip =>
      simp only [Field.Covers, RegisterName.field, true_and]
      exact hword r.eip
    | general | eflags =>
      simp only [Field.Covers, RegisterName.field, reduceCtorEq, false_and, ↓reduceIte]
      rfl
  | eflags =>
    cases cell with
    | eflags =>
      simp only [Field.Covers, RegisterName.field, true_and]
      exact hword r.eflags.word
    | general | eip =>
      simp only [Field.Covers, RegisterName.field, reduceCtorEq, false_and, ↓reduceIte]
      rfl

/-! ## Reading and writing by name -/

theorem read?_isSome_iff : (r.read? name).isSome ↔ ∃ f, Named name f := by
  rw [read?, Option.isSome_map, Option.isSome_iff_exists]
  constructor
  · rintro ⟨n, hn⟩
    exact ⟨n.field, RegisterName.named_of_ofString? hn⟩
  · rintro ⟨f, hf⟩
    obtain ⟨n, hn, -⟩ := RegisterName.ofString?_eq_some.mpr hf
    exact ⟨n, hn⟩

theorem write?_isOk_iff : (∃ r', r.write? name v = .ok r') ↔ (r.read? name).isSome := by
  rw [write?, read?]
  cases RegisterName.ofString? name <;> simp

theorem write?_error {e : UnknownRegister} (h : r.write? name v = .error e) : e = ⟨name⟩ := by
  unfold write? at h
  split at h
  · cases h
  · cases h
    rfl

/-- What is read by a name are the bits of its field. -/
theorem read?_named (r : Registers) (hf : Named name f) :
    ∃ x, r.read? name = some x ∧ ∀ k, x.toNat.testBit k =
      (decide (k < f.width) && (r.content f.cell).toNat.testBit (f.low + k)) := by
  obtain ⟨n, hn, rfl⟩ := RegisterName.ofString?_eq_some.mpr hf
  exact ⟨r.readName n, by rw [read?, hn]; rfl, r.testBit_readName n⟩

/-- What is written by a name replaces the bits of its field, and no others. -/
theorem write?_named (r : Registers) (v : UInt32) (hf : Named name f) :
    ∃ r', r.write? name v = .ok r' ∧ ∀ cell k, (r'.content cell).toNat.testBit k =
      if f.Covers cell k then v.toNat.testBit (k - f.low)
      else (r.content cell).toNat.testBit k := by
  obtain ⟨n, hn, rfl⟩ := RegisterName.ofString?_eq_some.mpr hf
  exact ⟨r.writeName v n, by rw [write?, hn], r.testBit_writeName v n⟩

/-! ## One name after another -/

/-- What one name reads after another was written: the bits of the field that was written are those of
the new value, and the rest are as before. -/
theorem read?_write? (hf : Named name f) (hg : Named other g) (hw : r.write? name v = .ok r') :
    ∃ x x', r.read? other = some x ∧ r'.read? other = some x' ∧
      ∀ k, x'.toNat.testBit k =
        if k < g.width ∧ f.Covers g.cell (g.low + k) then v.toNat.testBit (g.low + k - f.low)
        else x.toNat.testBit k := by
  obtain ⟨x, hx, hbits⟩ := r.read?_named hg
  obtain ⟨x', hx', hbits'⟩ := r'.read?_named hg
  obtain ⟨r₁, hr₁, hcontent⟩ := r.write?_named v hf
  obtain rfl : r₁ = r' := Except.ok.inj (hr₁.symm.trans hw)
  refine ⟨x, x', hx, hx', fun k => ?_⟩
  rw [hbits', hcontent, hbits]
  by_cases hk : k < g.width
  · simp [hk]
  · simp [hk]

/-- A name reads the low bits of what was written by it. -/
theorem read?_written (hf : Named name f) (hw : r.write? name v = .ok r') :
    ∃ x, r'.read? name = some x ∧ x.toNat = v.toNat % 2 ^ f.width := by
  obtain ⟨x, hx, hbits⟩ := r'.read?_named hf
  obtain ⟨r₁, hr₁, hcontent⟩ := r.write?_named v hf
  obtain rfl : r₁ = r' := Except.ok.inj (hr₁.symm.trans hw)
  refine ⟨x, hx, Nat.eq_of_testBit_eq fun k => ?_⟩
  rw [hbits, hcontent, Nat.testBit_mod_two_pow]
  by_cases hk : k < f.width
  · have hcovers : f.Covers f.cell (f.low + k) := ⟨rfl, by omega, by omega⟩
    rw [if_pos hcovers, Nat.add_sub_cancel_left]
  · simp [hk]

/-! ## By number -/

/-- The registers that are read and written by number are those of a list of names. -/
def Numbered (names : List String) (read : Registers → Nat → Except Abort UInt32)
    (write : Registers → Nat → UInt32 → Except Abort Registers) : Prop :=
  ∀ (r : Registers) (x : UInt32) (i : Fin 8), ∃ name, names[i]? = some name ∧
    (∃ y, read r i = .ok y ∧ r.read? name = some y) ∧
    ∃ r', write r i x = .ok r' ∧ r.write? name x = .ok r'

/-- The number of a register leads to the view that its name stands for. -/
theorem numbered_of_views {names : List String} {read : Registers → Nat → Except Abort UInt32}
    {write : Registers → Nat → UInt32 → Except Abort Registers} (place : Fin 8 → Fin 8 × View)
    (hnames : ∀ i : Fin 8, names[i]?.bind RegisterName.ofString? =
      some (.general (place i).1 (place i).2))
    (hread : ∀ (r : Registers) (i : Fin 8), read r i = .ok (r.get (place i).1 (place i).2))
    (hwrite : ∀ (r : Registers) (i : Fin 8) x,
      write r i x = .ok (r.set (place i).1 (place i).2 x)) :
    Numbered names read write := by
  intro r x i
  obtain ⟨name, hname, hlookup⟩ := Option.bind_eq_some_iff.mp (hnames i)
  refine ⟨name, hname, ⟨_, hread r i, ?_⟩, _, hwrite r i x, ?_⟩
  · rw [read?, hlookup]
    rfl
  · rw [write?, hlookup]
    rfl

theorem numbered_full : Numbered RegisterName.full word setWord :=
  numbered_of_views (fun i => (i, .full)) (by decide +kernel)
    (fun r i => by rw [word, slot_eq_ok.mpr rfl]; rfl) (fun r i x => by rw [setWord, slot_eq_ok.mpr rfl]; rfl)

theorem numbered_half : Numbered RegisterName.half half setHalf :=
  numbered_of_views (fun i => (i, .half)) (by decide +kernel)
    (fun r i => by rw [half, slot_eq_ok.mpr rfl]; rfl) (fun r i x => by rw [setHalf, slot_eq_ok.mpr rfl]; rfl)

theorem numbered_byte : Numbered RegisterName.byte byte setByte :=
  numbered_of_views RegisterName.ofByte (by decide +kernel)
    (fun r i => by rw [byte, slot_eq_ok.mpr rfl]; rfl) (fun r i x => by rw [setByte, slot_eq_ok.mpr rfl]; rfl)

/-! ## The register file -/

/-- The register file by its names. A name can be written just if it can be read, which is so for the
names of the list in either case of their letters; another name is refused as it was given, and nothing
changes. What was written replaces the bits of its field: it is read again, cut to the width, by its own
name, and any other name reads the new bits where the two fields overlap, and its old ones elsewhere. The
numbers of the registers lead to the same views. -/
theorem named_fields (r : Registers) (name : String) (v : UInt32) :
    ((∃ r', r.write? name v = .ok r') ↔ (r.read? name).isSome) ∧
    ((r.read? name).isSome ↔ ∃ f, Named name f) ∧
    ((∀ f, ¬ Named name f) → r.write? name v = .error ⟨name⟩ ∧
      ∀ (τ : Type) (s : Session τ), s.machine.cpu.registers = r →
        s.setRegister name v = (.error ⟨name⟩, s)) ∧
    (∀ f, Named name f → ∃ r', r.write? name v = .ok r' ∧
      (∃ x, r'.read? name = some x ∧ x.toNat = v.toNat % 2 ^ f.width) ∧
      ∀ other g, Named other g → ∃ x x', r.read? other = some x ∧ r'.read? other = some x' ∧
        (∀ k, x.toNat.testBit k =
          (decide (k < g.width) && (r.content g.cell).toNat.testBit (g.low + k))) ∧
        (∀ k, x'.toNat.testBit k =
          if k < g.width ∧ f.Covers g.cell (g.low + k) then v.toNat.testBit (g.low + k - f.low)
          else x.toNat.testBit k) ∧
        (¬ f.Overlaps g → x' = x)) ∧
    Numbered RegisterName.full word setWord ∧ Numbered RegisterName.half half setHalf ∧
    Numbered RegisterName.byte byte setByte := by
  refine ⟨write?_isOk_iff, read?_isSome_iff, fun hno => ?_, fun f hf => ?_, numbered_full, numbered_half,
    numbered_byte⟩
  · have herror : r.write? name v = .error ⟨name⟩ := by
      cases hw : r.write? name v with
      | error e => rw [write?_error hw]
      | ok r' =>
        obtain ⟨f, hf⟩ := read?_isSome_iff.mp (write?_isOk_iff.mp ⟨r', hw⟩)
        exact absurd hf (hno f)
    refine ⟨herror, fun τ s hs => ?_⟩
    subst hs
    have hset : s.machine.setRegister name v = .error ⟨name⟩ := bind_eq_error.mpr (.inl herror)
    rw [Session.setRegister, hset]
  · obtain ⟨r', hw, -⟩ := r.write?_named v hf
    refine ⟨r', hw, read?_written hf hw, fun other g hg => ?_⟩
    obtain ⟨x, x', hx, hx', hbits⟩ := read?_write? hf hg hw
    obtain ⟨y, hy, hview⟩ := r.read?_named hg
    obtain rfl : x = y := Option.some.inj (hx.symm.trans hy)
    refine ⟨x, x', hx, hx', hview, hbits, fun hdisjoint => ?_⟩
    rw [← UInt32.toNat_inj]
    refine Nat.eq_of_testBit_eq fun k => ?_
    rw [hbits, if_neg fun hk => hdisjoint ⟨k, hk⟩]

/-- The high byte of a register is written, by a name in capitals and with a value that is too large: the
word has the new byte, and the low byte is as before. -/
theorem named_fields_high_byte :
    let r := Registers.initial.set eax .full 0x11223344
    Named "AH" ⟨.general 0, 8, 8⟩ ∧ Named "eAx" ⟨.general 0, 0, 32⟩ ∧ Named "al" ⟨.general 0, 0, 8⟩ ∧
      (∀ f, ¬ Named "r8" f) ∧ r.write? "r8" 1 = .error ⟨"r8"⟩ ∧
      ∃ r' x, r.write? "AH" 0x5AB = .ok r' ∧ r'.read? "AH" = some x ∧ x.toNat = 0x5AB % 2 ^ 8 ∧
        r'.read? "eAx" = some 0x1122AB44 ∧ r'.read? "al" = r.read? "al" := by
  intro r
  have hhigh : Named "AH" ⟨.general 0, 8, 8⟩ := by decide +kernel
  have hword : Named "eAx" ⟨.general 0, 0, 32⟩ := by decide +kernel
  have hlow : Named "al" ⟨.general 0, 0, 8⟩ := by decide +kernel
  have hno : ∀ f, ¬ Named "r8" f := by
    rintro f ⟨row, hrow, hletters, -⟩
    have hnone : ∀ row ∈ registerFields, ¬ SameLetters "r8" row.1 := by decide +kernel
    exact hnone row hrow hletters
  obtain ⟨-, -, hrefused, -⟩ := named_fields r "r8" 1
  obtain ⟨-, -, -, hwritten, -⟩ := named_fields r "AH" 0x5AB
  obtain ⟨r', hw, ⟨x, hx, hvalue⟩, hother⟩ := hwritten _ hhigh
  obtain ⟨y, y', hy, hy', -, -, hsame⟩ := hother _ _ hlow
  have hdisjoint : ¬ (⟨.general 0, 8, 8⟩ : Field).Overlaps ⟨.general 0, 0, 8⟩ := by
    rintro ⟨k, hk, -, hle, -⟩
    simp only at hk hle
    omega
  have heax : (r.write? "AH" 0x5AB).toOption.bind (·.read? "eAx") = some 0x1122AB44 := by
    decide +kernel
  rw [hw] at heax
  exact ⟨hhigh, hword, hlow, hno, (hrefused hno).1, r', x, hw, hx, hvalue, heax,
    by rw [hy', hsame hdisjoint, hy]⟩

end Registers

end Monitor386
