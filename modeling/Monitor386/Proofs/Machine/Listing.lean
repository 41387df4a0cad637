import Mathlib
import Monitor386.Proofs.Instruction.Disassembly
import Monitor386.Proofs.Instruction.Overwriting
import Monitor386.Proofs.Machine.Recording
import Monitor386.Proofs.Machine.Transfers

/-!
# The lines of a run

A run lists the instructions that it completes, each with its address, its bytes and its disassembly. The
disassembly is that of the instruction as it was decoded, but the bytes are looked up after it was executed.
They are the bytes that were decoded, unless the instruction writes over itself.

* `Instruction.line_inj`: the line of an instruction tells the bytes beside it.
* `Machine.step_completed`: what a step does that completes an instruction.
* `Machine.recorded`, `Session.exec_lines`: what the line of each instruction of a run shows.
-/

namespace Monitor386

/-! ## Lines -/

section

variable {i : Instruction}

/-- The line of an instruction beside bytes that are shown for it. -/
def Instruction.line (i : Instruction) (bytes : List (Option UInt8)) : String :=
  Text.alignRight 8 ' ' (Text.hex i.eip.toNat) ++ ":   " ++
    Text.alignLeft 24 (Text.groups bytes) ++ i.text

/-- The line of an instruction tells the bytes beside it. -/
theorem Instruction.line_inj {bytes bytes' : List (Option UInt8)}
    (hlen : bytes.length = bytes'.length) : i.line bytes = i.line bytes' ↔ bytes = bytes' := by
  refine ⟨fun h => Text.groups_inj hlen ?_, congrArg _⟩
  have hpad : (Text.groups bytes).length = (Text.groups bytes').length := by
    rw [← String.length_toList, ← String.length_toList, Text.length_groups, Text.length_groups, hlen]
  have h := congrArg String.toList h
  simp only [line, Text.alignLeft, String.toList_append, hpad] at h
  exact List.append_cancel_right (List.append_cancel_left (List.append_cancel_right h))

end

/-! ## Steps -/

/-- The bytes that the line of an instruction shows: those in its place after it was executed. -/
def Cpu.shownBytes (c : Cpu) (i : Instruction) : List (Option UInt8) :=
  (c.memoryAfter i).bytes? c.registers.eip i.length.toNat

namespace Machine

variable {m : Machine I386Table} {s : Step I386Table} {level : Level} {i : Instruction}

/-- What a step does that completes an instruction. -/
theorem step_completed {completion : Completion} (hs : m.step = .ok s)
    (hresult : s.result = .ok completion) :
    ∃ i c', decode m.cpu.memory m.cpu.registers.eip = .ok (.ok i) ∧ m.cpu.effect i = .ok c' ∧
      completion = ⟨i.length, i.operation.trap?⟩ ∧
      s.machine.cpu = (c'.printAssembly i.text).goto (c'.registers.eip + i.length) := by
  obtain ⟨call, hcall, h⟩ := bind_eq_ok.mp hs
  obtain ⟨fault, -, hfault, -⟩ | ⟨i, c', hdecode, heffect, -, -⟩ := I386Table.exec_inv hcall
  · simp only [hfault] at h
    cases h
    cases hresult
  · obtain ⟨s', hs', hresult', hcpu⟩ := step_of_complete hdecode (Cpu.complete_of_effect heffect)
    cases hs.symm.trans hs'
    cases hresult.symm.trans hresult'
    exact ⟨i, c', hdecode, heffect, rfl, hcpu⟩

/-- What is recorded of a step that completes an instruction. -/
structure Recorded (m : Machine I386Table) (level : Level) (s : Step I386Table) (i : Instruction) :
    Prop where
  /-- The instruction is the one that was decoded at the instruction pointer. -/
  decoded : decode m.cpu.memory m.cpu.registers.eip = .ok (.ok i)
  /-- There is one line, with the disassembly of this instruction, and with the bytes that are in its
  place after it was executed. -/
  entries : s.entries level = s.records ++ ⟨level, i.line (m.cpu.shownBytes i)⟩ :: s.watchEntries
  /-- The bytes that were decoded are the encoding of the instruction. -/
  own : m.cpu.memory.Straight m.cpu.registers.eip i →
    m.cpu.memory.bytes? m.cpu.registers.eip i.length.toNat = i.encode.map some
  /-- The line shows these just if the instruction does not rewrite itself. -/
  line : m.cpu.memory.Straight m.cpu.registers.eip i →
    (i.line (m.cpu.shownBytes i) = i.line (i.encode.map some) ↔ ¬ m.cpu.RewritesItself i)
  /-- Just then the bytes of the line, put in the place of the instruction, are decoded to it. -/
  again : m.cpu.memory.Straight m.cpu.registers.eip i → ∀ memory : Memory,
    memory.capacity < UInt32.size →
    memory.bytes? m.cpu.registers.eip i.length.toNat = m.cpu.shownBytes i →
    (decode memory m.cpu.registers.eip = .ok (.ok i) ↔ ¬ m.cpu.RewritesItself i)

theorem recorded {completion : Completion} (level : Level) (hs : m.step = .ok s)
    (hresult : s.result = .ok completion) :
    ∃ i, completion = ⟨i.length, i.operation.trap?⟩ ∧ m.Recorded level s i := by
  obtain ⟨i, c', hdecode, heffect, rfl, hcpu⟩ := step_completed hs hresult
  have heip := (encode_of_decode hdecode).1
  have hline : s.machine.cpu.stepLine s.start i.length = i.line (m.cpu.shownBytes i) := by
    have hmemory : s.machine.cpu.memory = m.cpu.memoryAfter i := by
      rw [hcpu, ← Cpu.effect_memory heffect]
      rfl
    have htext : s.machine.cpu.assembly.text = i.text := by
      rw [hcpu]
      exact text_printAssembly c' i
    rw [Cpu.stepLine, Instruction.line, hmemory, htext, Memory.byteGroups_eq, step_start hs, heip,
      Cpu.shownBytes]
  have hsame (hstraight : m.cpu.memory.Straight m.cpu.registers.eip i) :
      m.cpu.shownBytes i = i.encode.map some ↔ ¬ m.cpu.RewritesItself i :=
    Cpu.bytes?_memoryAfter_iff hdecode heffect hstraight
  refine ⟨i, rfl, hdecode, ?_, decode_bytes? hdecode, fun hstraight => ?_,
    fun hstraight memory hcap hbytes => ?_⟩
  · simp only [Step.entries, hresult, hline]
  · have hlen : (m.cpu.shownBytes i).length = (i.encode.map some).length := by
      rw [Cpu.shownBytes, Memory.length_bytes?, List.length_map, length_encode hdecode]
    rw [Instruction.line_inj hlen, hsame hstraight]
  · rw [decode_of_bytes? hdecode hcap hbytes, hsame hstraight]

end Machine

/-! ## Runs -/

namespace Session

/-- The log of a run has a line for each instruction that it completes, at a level that the number of steps
decides, and beside the disassembly of the instruction the line shows the bytes that were decoded, unless
the instruction rewrites itself. -/
theorem exec_lines (s : Session I386Table) (patience n : Nat) :
    let level : Level := if n < 10 then .info else .trace
    let steps := s.machine.trace patience (.ofNat n)
    logAfter (s.exec patience (.ofNat n)) =
        s.log.addAll (s.refusal ++ steps.flatMap (Step.entries level)) ∧
      ∀ before step after, steps = before ++ step :: after →
        ∃ m, s.machine.beginRun.Quiet before m ∧ m.step = .ok step ∧
          step.start = m.cpu.registers.eip ∧
          (∀ fault, step.result = .error fault → step.entries level = step.records) ∧
          ∀ completion, step.result = .ok completion →
            ∃ i, completion = ⟨i.length, i.operation.trap?⟩ ∧ m.Recorded level step i := by
  intro level steps
  have hlevel : (Budget.ofNat n).stepLevel = level := by
    unfold Budget.ofNat level
    split
    next h =>
      subst h
      rfl
    next => rfl
  refine ⟨hlevel ▸ s.exec_log patience (.ofNat n), fun before step after hsplit => ?_⟩
  obtain ⟨m, hq, hs⟩ := Machine.exists_quiet_of_trace hsplit
  refine ⟨m, hq, hs, Machine.step_start hs, fun fault hfault => ?_, fun completion hresult => ?_⟩
  · simp only [Step.entries, hfault, List.append_nil]
  · exact Machine.recorded level hs hresult

/-- The second instruction writes over the first one, which is executed by then, so both lines show what was
decoded. -/
theorem exec_lines_overwriting :
    let image : List UInt8 := [0xB8, 0x78, 0x56, 0x34, 0x12, 0xA3, 0x00, 0x00, 0x10, 0x00]
    ∃ s first second, (create 0x100010 ({} : I386Table) .absent (some .info)).restart image = .ok s ∧
      s.machine.trace 9 (.ofNat 2) = [first, second] ∧
      logAfter (s.exec 9 (.ofNat 2)) = s.log.addAll [
        ⟨.info, "  100000:   b8 78 56 34 12          mov $0x12345678,%eax"⟩,
        ⟨.info, "  100005:   a3 00 00 10 00          mov %eax,0x100000"⟩] ∧
      second.entries .info = second.records ++
        ⟨.info, Instruction.line ⟨0x100005, 0xA3, 5, .store 0 0x100000⟩
          ([0xA3, 0x00, 0x00, 0x10, 0x00].map some)⟩ :: second.watchEntries := by
  intro image
  let prepared : Option (Session I386Table) :=
    ((create 0x100010 ({} : I386Table) .absent (some .info)).restart image).toOption
  have hrun : prepared.map (fun s => (s.refusal, (s.machine.trace 9 (.ofNat 2)).map fun step =>
      (step.entries .info, step.result.toOption))) =
      some ([],
        [([⟨.info, "  100000:   b8 78 56 34 12          mov $0x12345678,%eax"⟩], some ⟨5, none⟩),
          ([⟨.info, "  100005:   a3 00 00 10 00          mov %eax,0x100000"⟩], some ⟨5, none⟩)]) := by
    decide +kernel
  have hstore : (prepared.bind fun s => (s.machine.trace 9 (.ofNat 2)).head?.map fun first =>
      (first.machine.cpu.registers.eip, first.machine.cpu.memory.capacity,
        (decode first.machine.cpu.memory 0x100005).toOption.bind Except.toOption)) =
      some (0x100005, 0x100010, some ⟨0x100005, 0xA3, 5, .store 0 0x100000⟩) := by decide +kernel
  obtain ⟨s, hs, hrun⟩ := Option.map_eq_some_iff.mp hrun
  obtain ⟨hrefusal, hsteps⟩ := Prod.mk.inj hrun
  obtain ⟨first, rest, htrace, hfirst, hsteps⟩ := List.map_eq_cons_iff.mp hsteps
  obtain ⟨second, rest, rfl, hsecond, hsteps⟩ := List.map_eq_cons_iff.mp hsteps
  obtain rfl := List.map_eq_nil_iff.mp hsteps
  obtain ⟨hfirst, -⟩ := Prod.mk.inj hfirst
  obtain ⟨hsecond, hresult⟩ := Prod.mk.inj hsecond
  rw [hs, Option.bind_some, htrace, List.head?_cons, Option.map_some, Option.some.injEq, Prod.mk.injEq,
    Prod.mk.injEq] at hstore
  obtain ⟨heip, hcap, hstore⟩ := hstore
  obtain ⟨r, hr, hstore⟩ := Option.bind_eq_some_iff.mp hstore
  have hdecode := (eq_ok_of_toOption hr).trans (congrArg _ (eq_ok_of_toOption hstore))
  obtain ⟨hlog, hlines⟩ := s.exec_lines 9 2
  obtain ⟨m, hq, hstep, -, -, hcompleted⟩ := hlines [first] second [] htrace
  obtain ⟨i, -, hrecorded⟩ := hcompleted _ (eq_ok_of_toOption hresult)
  -- the second instruction starts in the machine that the first one leaves
  obtain rfl : first.machine = m := by
    cases hq with
    | cons _ _ hq => cases hq; rfl
  have hstored := hrecorded.decoded
  rw [heip, hdecode] at hstored
  cases hstored
  -- the store hits no byte of its own, as the two ranges are apart
  have hkeeps : ¬ first.machine.cpu.RewritesItself ⟨0x100005, 0xA3, 5, .store 0 0x100000⟩ := by
    intro hrewrites
    obtain ⟨addr, hword, j, hj, k, hk, haddr⟩ := hrewrites.overlaps
    cases hword
    rw [heip, UInt32.toNat_add, UInt32.toNat_ofNat'] at haddr
    have hj : j < 5 := hj
    have hstart : (0x100005 : UInt32).toNat = 0x100005 := rfl
    have hstored : (0x100000 : UInt32).toNat = 0x100000 := rfl
    omega
  have hown : Instruction.encode ⟨0x100005, 0xA3, 5, .store 0 0x100000⟩ =
      [0xA3, 0x00, 0x00, 0x10, 0x00] := by decide
  have hline := (hrecorded.line (.inl (by rw [hcap]; decide))).mpr hkeeps
  have hentries := hrecorded.entries
  rw [hline, hown] at hentries
  rw [htrace, hrefusal] at hlog
  have hboth : [first, second].flatMap (Step.entries .info) =
      first.entries .info ++ second.entries .info := by
    rw [List.flatMap_cons, List.flatMap_singleton]
  rw [hfirst, hsecond] at hboth
  exact ⟨s, first, second, eq_ok_of_toOption hs, htrace, hlog.trans (congrArg s.log.addAll hboth),
    hentries⟩

/-- A store to its own first byte, of a register that is zero: the line shows five zeros, from which no
instruction is decoded, beside the disassembly of the store that was decoded from other bytes. -/
theorem self_store_line :
    let image : List UInt8 := [0xA3, 0x00, 0x00, 0x10, 0x00]
    ∃ s outcome s', (create 0x200000 ({} : I386Table) .absent (some .info)).restart image = .ok s ∧
      decode s.machine.cpu.memory 0x100000 = .ok (.ok ⟨0x100000, 0xA3, 5, .store 0 0x100000⟩) ∧
      s.exec 9 (.ofNat 1) = .ok (outcome, s') ∧
      s'.log.records.toList = s.log.records.toList ++
        [⟨.info, "  100000:   00 00 00 00 00          mov %eax,0x100000"⟩] ∧
      s'.machine.cpu.memory.bytes? 0x100000 5 = [some 0, some 0, some 0, some 0, some 0] ∧
      decode s'.machine.cpu.memory 0x100000 = .ok (.error (.invalidOpcode 0x100000 0)) := by
  intro image
  let prepared : Option (Session I386Table) :=
    ((create 0x200000 ({} : I386Table) .absent (some .info)).restart image).toOption
  have hdecode : (prepared.bind fun s =>
      (decode s.machine.cpu.memory 0x100000).toOption.bind Except.toOption) =
      some ⟨0x100000, 0xA3, 5, .store 0 0x100000⟩ := by decide +kernel
  have hrun : (prepared.bind fun s => (s.exec 9 (.ofNat 1)).toOption.map fun r =>
      (decide (r.2.log.records.toList = s.log.records.toList ++
          [⟨.info, "  100000:   00 00 00 00 00          mov %eax,0x100000"⟩]),
        r.2.machine.cpu.memory.bytes? 0x100000 5,
        (decode r.2.machine.cpu.memory 0x100000).toOption)) =
      some (true, [some 0, some 0, some 0, some 0, some 0],
        some (.error (.invalidOpcode 0x100000 0))) := by decide +kernel
  obtain ⟨s, hs, hdecode⟩ := Option.bind_eq_some_iff.mp hdecode
  obtain ⟨r, hr, hdecode⟩ := Option.bind_eq_some_iff.mp hdecode
  rw [hs, Option.bind_some] at hrun
  obtain ⟨⟨outcome, s'⟩, hexec, hrun⟩ := Option.map_eq_some_iff.mp hrun
  obtain ⟨hrecords, hrun⟩ := Prod.mk.inj hrun
  obtain ⟨hbytes, hagain⟩ := Prod.mk.inj hrun
  exact ⟨s, outcome, s', eq_ok_of_toOption hs,
    (eq_ok_of_toOption hr).trans (congrArg _ (eq_ok_of_toOption hdecode)), eq_ok_of_toOption hexec,
    of_decide_eq_true hrecords, hbytes, eq_ok_of_toOption hagain⟩

end Session

end Monitor386
