import Mathlib
import Monitor386.Proofs.Expr.Literals
import Monitor386.Proofs.Failure
import Monitor386.Proofs.Memory.Dump
import Monitor386.Proofs.Shell.Logging

/-!
# Examining memory

A dump shows the words of a series of addresses, up to the first that cannot be read. `wordLine` is the
line of a word, `inaccessibleLine` the one below a dump that the memory cuts short.

* `eval_deref_inside`, `eval_deref_outside`: the value of a star and a numeral.
* `examineLines_eq`, `exists_inaccessibleLine`: the lines of a dump, and when the last one is there.
* `answer_examine`: a dump and the lines that the monitor prints for it.
-/

namespace Monitor386

variable {τ : Type}

/-! ## Dereferences -/

namespace Machine

variable {m : Machine τ} {addr : UInt32} {text : List Char}

/-- A star and a numeral have the word at its address as their value, if the memory has it. -/
theorem eval_deref_inside (h : Expr.Numeral addr text)
    (hin : addr.toNat + 4 ≤ m.cpu.memory.capacity) :
    m.eval ('*' :: text) = .ok (m.cpu.memory.wordAt addr.toNat).2 := by
  rw [eval, h.eval_deref]
  show (m.cpu.memory.checkedRead addr 4).elim _ _ = _
  rw [Memory.checkedRead_word, if_pos hin]
  rfl

theorem eval_deref_outside (h : Expr.Numeral addr text)
    (hout : m.cpu.memory.capacity < addr.toNat + 4) :
    m.eval ('*' :: text) = .error (.badAddress addr) := by
  rw [eval, h.eval_deref]
  show (m.cpu.memory.checkedRead addr 4).elim _ _ = _
  rw [Memory.checkedRead_word, if_neg (by omega)]
  rfl

end Machine

namespace Shell

/-! ## Lines -/

/-- The line of a word and its address. -/
def wordLine (w : UInt32 × UInt32) : String :=
  Text.hexWord w.1 ++ ":  " ++ Text.hexWord w.2

/-- The line below a dump that does not show the word at an address. -/
def inaccessibleLine (addr : UInt32) : String :=
  "Cannot access memory at address " ++ Text.hexWord addr

theorem examineLines_eq (addr : UInt32) (n : Nat) (words : Array (UInt32 × UInt32)) :
    examineLines addr n words = words.toList.map wordLine ++
      if words.size < n then [inaccessibleLine (addr + 4 * UInt32.ofNat words.size)] else [] := by
  have hlines : examineLines addr n words =
      if words.size < n then
        words.toList.map wordLine ++ [inaccessibleLine (addr + 4 * UInt32.ofNat words.size)]
      else words.toList.map wordLine := rfl
  rw [hlines]
  split_ifs
  · rfl
  · rw [List.append_nil]

/-- The line of a word starts with its address. -/
theorem wordLine_ne_inaccessibleLine (w : UInt32 × UInt32) (addr : UInt32) :
    wordLine w ≠ inaccessibleLine addr := by
  obtain ⟨k, hchars⟩ := Text.toList_hexWord w.1
  have hword : (wordLine w).toList.head? = some '0' := by
    rw [wordLine, String.toList_append, String.toList_append, hchars]
    rfl
  have hstart (rest : String) :
      ("Cannot access memory at address " ++ rest).toList.head? = some 'C' := by
    simp [String.toList_append]
  have hline : (inaccessibleLine addr).toList.head? = some 'C' := hstart _
  intro h
  rw [h, hline] at hword
  exact absurd hword (by decide)

theorem exists_inaccessibleLine {words : List (UInt32 × UInt32)} {last : UInt32} {p : Prop}
    [Decidable p] :
    (∃ a, inaccessibleLine a ∈ words.map wordLine ++ if p then [inaccessibleLine last] else []) ↔
      p := by
  constructor
  · rintro ⟨a, ha⟩
    by_contra hp
    rw [if_neg hp, List.append_nil, List.mem_map] at ha
    obtain ⟨w, -, hw⟩ := ha
    exact wordLine_ne_inaccessibleLine w a hw
  · intro hp
    rw [if_pos hp]
    exact ⟨last, List.mem_append_right _ (List.mem_singleton_self _)⟩

/-! ## Dumps -/

variable [InstructionTable τ] {s : Session τ} {line e : List Char} {n : Nat} {addr : UInt32}

/-- The answer to a command for a dump leaves the machine as it is. -/
theorem answer_of_examine (patience : Nat) (hparse : parse line = .ok (some (.examine n e)))
    (haddr : s.machine.eval e = .ok addr) :
    ∃ s', answer patience s line =
      .ok (examineLines addr n (s.machine.examine addr n), true, s') ∧ s'.machine = s.machine := by
  refine ⟨{ s with log := s.log.addTexts .debug (Expr.records e) }, ?_, rfl⟩
  rw [answer, hparse]
  exact bind_eq_ok.mpr ⟨_, Session.eval_of_value haddr, rfl⟩

/-- A dump shows as many words as it is asked for, or as the memory has from the address on: these are
the words of consecutive addresses, and the values of dereferences of the addresses. The monitor prints
a line for each, and one more just if words are missing. That line names the first address of the series
that cannot be dereferenced. -/
theorem answer_examine (patience : Nat) (s : Session τ) (addr : UInt32) (n : Nat)
    (hcap : s.machine.cpu.memory.capacity < UInt32.size) :
    let m := s.machine
    let words := m.examine addr n
    let last := addr + 4 * UInt32.ofNat words.size
    words.size = min n ((m.cpu.memory.capacity - addr.toNat) / 4) ∧
    (∀ i w, words[i]? = some w →
      w.1 = addr + 4 * UInt32.ofNat i ∧ w.1.toNat = addr.toNat + 4 * i ∧
      w.2 = UInt32.ofNat (m.cpu.memory.row.number (addr.toNat + 4 * i) 4) ∧
      ∀ text, Expr.Numeral w.1 text → m.eval ('*' :: text) = .ok w.2) ∧
    (words.size < n → ∀ text, Expr.Numeral last text →
      m.eval ('*' :: text) = .error (.badAddress last)) ∧
    ∀ line e, parse line = .ok (some (.examine n e)) → m.eval e = .ok addr →
      ∃ lines s', answer patience s line = .ok (lines, true, s') ∧ s'.machine = m ∧
        lines = words.toList.map wordLine ++
          (if words.size < n then [inaccessibleLine last] else []) ∧
        ((∃ a, inaccessibleLine a ∈ lines) ↔ words.size < n) := by
  intro m words last
  have hsize : words.size = min n ((m.cpu.memory.capacity - addr.toNat) / 4) :=
    Memory.size_words hcap addr n
  refine ⟨hsize, fun i w hw => ?_, fun hlt text htext => ?_, fun line e hparse haddr => ?_⟩
  · obtain ⟨rfl, hin⟩ := Memory.words_getElem? hcap hw
    have hi : i < words.size := (Array.getElem?_eq_some_iff.mp hw).1
    have htoNat : (UInt32.ofNat (addr.toNat + 4 * i)).toNat = addr.toNat + 4 * i :=
      UInt32.toNat_ofNat_of_lt' (by omega)
    refine ⟨UInt32.toNat_inj.mp ?_, htoNat, rfl, fun text htext => ?_⟩
    · exact htoNat.trans (Memory.toNat_add_words hcap hi.le).symm
    · have hvalue := Machine.eval_deref_inside (m := m) htext (htoNat.symm ▸ hin)
      rw [hvalue]
      exact congrArg (fun offset => Except.ok (m.cpu.memory.wordAt offset).2) htoNat
  · have hlast : last.toNat = addr.toNat + 4 * words.size := Memory.toNat_add_words hcap le_rfl
    exact Machine.eval_deref_outside htext (by omega)
  · obtain ⟨s', hanswer, hmachine⟩ := answer_of_examine patience hparse haddr
    exact ⟨_, s', hanswer, hmachine, examineLines_eq addr n words, by
      rw [examineLines_eq]
      exact exists_inaccessibleLine⟩

/-- A dump of five words near the end of a memory of eleven bytes. -/
theorem answer_examine_short :
    let memory : Memory := ⟨11, Store.empty.splice 4 [0x78, 0x56, 0x34, 0x12]⟩
    let s : Session I386Table := ⟨{ cpu := ⟨.initial, memory, .empty⟩, table := {} }, ⟨none, #[]⟩⟩
    let line := "x 5 0x4".toList
    let e := "0x4".toList
    s.machine.cpu.memory.capacity < UInt32.size ∧ parse line = .ok (some (.examine 5 e)) ∧
    s.machine.eval e = .ok 4 ∧ (s.machine.examine 4 5).size < 5 ∧ Expr.Numeral 8 ['8'] ∧
    s.machine.eval "*8".toList = .error (.badAddress 8) ∧
    ∃ s', answer 0 s line = .ok
      (["0x00000004:  0x12345678", "Cannot access memory at address 0x00000008"], true, s') := by
  intro memory s line e
  have hcap : s.machine.cpu.memory.capacity < UInt32.size := by decide
  have hparse : parse line = .ok (some (.examine 5 e)) := by
    exact eq_ok_of_toOption (by decide +kernel)
  have haddr : s.machine.eval e = .ok 4 := eq_ok_of_toOption (by decide +kernel)
  have hshort : (s.machine.examine 4 5).size < 5 := by decide +kernel
  have hnumeral : Expr.Numeral 8 ['8'] := .decimal (by decide) (by decide)
  obtain ⟨-, -, hlast, hlines⟩ := answer_examine 0 s 4 5 hcap
  have hoff : 4 + 4 * UInt32.ofNat (s.machine.examine 4 5).size = 8 := by decide +kernel
  obtain ⟨lines, s', hanswer, -, hshown, -⟩ := hlines line e hparse haddr
  have hprinted : lines =
      ["0x00000004:  0x12345678", "Cannot access memory at address 0x00000008"] := by
    rw [hshown]
    decide +kernel
  rw [hoff] at hlast
  exact ⟨hcap, hparse, haddr, hshort, hnumeral, hlast hshort _ hnumeral, s', hprinted ▸ hanswer⟩

end Shell

end Monitor386
