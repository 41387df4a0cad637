import Monitor386.Abort
import Monitor386.Registers.Eflags
import Monitor386.Registers.View

/-!
# The register file

Eight general registers, the instruction pointer and the flags. A register is addressed by its
number, as instructions do, or by its assembler name in either case: each of the eight has a name
for the whole word and one for its low half, and the low bytes of the first four have two more.
-/

namespace Monitor386

/-- Programs are loaded and entered here. -/
def entryPoint : UInt32 := 0x100000

structure Registers where
  general : Vector UInt32 8
  eip : UInt32
  eflags : Eflags
  deriving DecidableEq, Repr

/-- What a register name refers to. -/
inductive RegisterName where
  | general (slot : Fin 8) (view : View)
  | eip
  | eflags
  deriving DecidableEq, Repr

/-- No register has this name. -/
structure UnknownRegister where
  name : String
  deriving DecidableEq, Repr

def UnknownRegister.message (e : UnknownRegister) : String :=
  "unknown register '" ++ e.name ++ "'"

namespace RegisterName

/-- Names of the general registers as words, by number. -/
def full : List String := ["eax", "ecx", "edx", "ebx", "esp", "ebp", "esi", "edi"]

/-- Names of their low halves, by number. -/
def half : List String := ["ax", "cx", "dx", "bx", "sp", "bp", "si", "di"]

/-- Names of the byte registers, by number. -/
def byte : List String := ["al", "cl", "dl", "bl", "ah", "ch", "dh", "bh"]

/-- The byte register with a number: the low bytes of the first four registers come first, then
their high bytes. -/
def ofByte (i : Fin 8) : Fin 8 × View :=
  (⟨i.val % 4, by omega⟩, if i.val < 4 then .lowByte else .highByte)

/-- Position of a name in a list of eight. -/
def find? (names : List String) (name : String) : Option (Fin 8) :=
  let i := names.idxOf name
  if h : i < 8 then some ⟨i, h⟩ else none

/-- The register with a name, in any case of its letters. -/
def ofString? (name : String) : Option RegisterName :=
  let name := String.ofList (name.toList.map Char.toLower)
  if name = "eip" then some .eip
  else if name = "eflags" then some .eflags
  else match find? full name with
    | some i => some (.general i .full)
    | none => match find? half name with
      | some i => some (.general i .half)
      | none => (find? byte name).map fun i => .general (ofByte i).1 (ofByte i).2

end RegisterName

namespace Registers

/-- The registers at power-on. -/
def initial : Registers :=
  ⟨Vector.replicate 8 0, entryPoint, .initial⟩

instance : Inhabited Registers := ⟨initial⟩

/-- The stack pointer is general register 4. -/
def esp : Fin 8 := 4

/-- The accumulator is general register 0. -/
def eax : Fin 8 := 0

/-- A view of a general register. -/
def get (r : Registers) (slot : Fin 8) (view : View) : UInt32 :=
  view.read r.general[slot]

def set (r : Registers) (slot : Fin 8) (view : View) (x : UInt32) : Registers :=
  { r with general := r.general.set slot (view.write r.general[slot] x) }

/-! ## By name -/

def readName (r : Registers) : RegisterName → UInt32
  | .general slot view => r.get slot view
  | .eip => r.eip
  | .eflags => r.eflags.word

/-- A narrow register takes the low bits of the word. -/
def writeName (r : Registers) (x : UInt32) : RegisterName → Registers
  | .general slot view => r.set slot view x
  | .eip => { r with eip := x }
  | .eflags => { r with eflags := ⟨x⟩ }

/-- Value of the register with a name. -/
def read? (r : Registers) (name : String) : Option UInt32 :=
  (RegisterName.ofString? name).map r.readName

/-- Writes the register with a name. -/
def write? (r : Registers) (name : String) (x : UInt32) : Except UnknownRegister Registers :=
  match RegisterName.ofString? name with
  | some n => .ok (r.writeName x n)
  | none => .error ⟨name⟩

/-! ## By number -/

/-- A number of a general register. -/
def slot (index : Nat) : Except Abort (Fin 8) :=
  if h : index < 8 then .ok ⟨index, h⟩ else .error (.noRegister index)

def word (r : Registers) (index : Nat) : Except Abort UInt32 := do
  pure (r.get (← slot index) .full)

def setWord (r : Registers) (index : Nat) (x : UInt32) : Except Abort Registers := do
  pure (r.set (← slot index) .full x)

def half (r : Registers) (index : Nat) : Except Abort UInt32 := do
  pure (r.get (← slot index) .half)

def setHalf (r : Registers) (index : Nat) (x : UInt32) : Except Abort Registers := do
  pure (r.set (← slot index) .half x)

def byte (r : Registers) (index : Nat) : Except Abort UInt32 := do
  let (slot, view) := RegisterName.ofByte (← slot index)
  pure (r.get slot view)

def setByte (r : Registers) (index : Nat) (x : UInt32) : Except Abort Registers := do
  let (slot, view) := RegisterName.ofByte (← slot index)
  pure (r.set slot view x)

end Registers

end Monitor386
