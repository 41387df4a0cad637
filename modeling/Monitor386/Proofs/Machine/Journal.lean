import Mathlib
import Monitor386.Proofs.Machine.Recording
import Monitor386.Proofs.Machine.Semantics
import Monitor386.Proofs.Memory.Groups

/-!
# The journal of a run

The log of a run is a list of texts. Its journal says of each record where it comes from: from the call of
the table, from the instruction that was completed, or from the watchpoints. The log is what it admits of
the journal.

* `Step.map_record_journal`: without the sources, the journal is what a step reports.
* `lines_journals`: a journal has one line for each step that completes its instruction.
* `Machine.journaled`: what the journal of a step is, given the call of the table.
* `Session.exec_journal`: the journal of a run that returns, whatever is logged of it.
-/

namespace Monitor386

variable {τ : Type}

/-! ## Entries -/

/-- Where a record of a run comes from. -/
inductive Source where
  /-- The table wrote it while it executed the instruction. -/
  | call
  /-- It is the line of an instruction that was completed. -/
  | line
  /-- The expression of a watchpoint was looked at. -/
  | look
  /-- A watchpoint fired. -/
  | hit
  deriving DecidableEq

structure Entry where
  source : Source
  record : Record
  deriving DecidableEq

/-- The line of an instruction: its address, the bytes that are in its place, and a disassembly. -/
def instructionLine (eip : UInt32) (bytes : List (Option UInt8)) (assembly : String) : String :=
  Text.alignRight 8 ' ' (Text.hex eip.toNat) ++ ":   " ++ Text.alignLeft 24 (Text.groups bytes) ++ assembly

theorem stepLine_eq (c : Cpu) (start length : UInt32) :
    c.stepLine start length =
      instructionLine start (c.memory.bytes? start length.toNat) c.assembly.text := by
  rw [Cpu.stepLine, instructionLine, Memory.byteGroups_eq]

namespace Step

/-- The line of a step, if it completes its instruction. -/
def line? (level : Level) (s : Step τ) : Option Entry :=
  match s.result with
  | .error _ => none
  | .ok executed => some ⟨.line, level, s.machine.cpu.stepLine s.start executed.length⟩

/-- What is written of the expressions of the watchpoints after an instruction. -/
def looks (s : Step τ) : List Entry :=
  ((s.machine.pool.scanned s.hit).flatMap Expr.records).map fun text => ⟨.look, .debug, text⟩

/-- What is written of the watchpoints after an instruction. -/
def watchJournal (s : Step τ) : List Entry :=
  s.looks ++ s.hit.toList.map fun hit => ⟨.hit, .info, hit.line s.start⟩

/-- The records of a step in their order, with their sources. -/
def journal (level : Level) (s : Step τ) : List Entry :=
  s.records.map (Entry.mk .call) ++
    (s.line? level).elim [] fun line => line :: s.watchJournal

/-- The journal of a step is what it reports. -/
theorem map_record_journal (level : Level) (s : Step τ) :
    (s.journal level).map Entry.record = s.entries level := by
  have hcall : (s.records.map (Entry.mk .call)).map Entry.record = s.records := by
    rw [List.map_map]
    exact List.map_id _
  have hwatch : s.watchJournal.map Entry.record = s.watchEntries := by
    rw [watchJournal, looks, watchEntries, List.map_append, List.map_map, List.map_map]
    rfl
  rw [journal, entries, List.map_append, hcall, line?]
  cases s.result with
  | error fault => rfl
  | ok executed => simp only [Option.elim_some, List.map_cons, hwatch]

theorem map_record_journals (level : Level) (steps : List (Step τ)) :
    (steps.flatMap (journal level)).map Entry.record = steps.flatMap (entries level) := by
  simp only [List.map_flatMap, map_record_journal]

/-- In the journal of a step there is its line, and no other. -/
theorem lines_journal (level : Level) (s : Step τ) :
    (s.journal level).filter (·.source = .line) = (s.line? level).toList := by
  have hcall : (s.records.map (Entry.mk .call)).filter (·.source = .line) = [] := by
    simp [List.filter_eq_nil_iff]
  have hwatch : s.watchJournal.filter (·.source = .line) = [] := by
    rw [watchJournal, looks, List.filter_append, List.filter_map, List.filter_map]
    simp
  rw [journal, List.filter_append, hcall, List.nil_append, line?]
  cases s.result with
  | error fault => rfl
  | ok executed =>
    rw [Option.elim_some, List.filter_cons_of_pos (by simp), hwatch]
    rfl

theorem level_of_line? {level : Level} {s : Step τ} {x : Entry} (h : s.line? level = some x) :
    x.record.level = level := by
  unfold line? at h
  split at h
  · cases h
  · cases h
    rfl

end Step

/-- A journal has the lines of the steps that complete their instruction, in the order of the steps. -/
theorem lines_journals (level : Level) (steps : List (Step τ)) :
    (steps.flatMap (Step.journal level)).filter (·.source = .line) = steps.filterMap (Step.line? level) := by
  induction steps with
  | nil => rfl
  | cons s steps ih =>
    rw [List.flatMap_cons, List.filter_append, ih, s.lines_journal, List.filterMap_cons]
    cases s.line? level <;> rfl

/-- All lines of a journal have one level, so a log admits all of them or none. -/
theorem lines_kept (log : Log) (level : Level) (steps : List (Step τ)) :
    ((steps.flatMap (Step.journal level)).filter (log.admits ·.record.level)).filter
        (·.source = .line) =
      if log.admits level then steps.filterMap (Step.line? level) else [] := by
  have hlevel : ∀ x ∈ steps.filterMap (Step.line? level),
      log.admits x.record.level = log.admits level := by
    intro x hx
    obtain ⟨s, -, hs⟩ := List.mem_filterMap.mp hx
    rw [Step.level_of_line? hs]
  rw [List.filter_filter, List.filter_congr fun x _ => Bool.and_comm _ _, ← List.filter_filter,
    lines_journals, List.filter_congr hlevel]
  split_ifs with hadmits
  · rw [hadmits, List.filter_true]
  · rw [Bool.eq_false_iff.mpr hadmits, List.filter_false]

/-! ## Steps -/

namespace Machine

variable [InstructionTable τ] {m : Machine τ} {c : Call τ} {s : Step τ} {level : Level}

/-- A run reports a watchpoint just if one fired. -/
theorem outcome_settle (state : RunState) (line : StopLine) {fired : Option WatchChange}
    {hit : WatchChange} :
    (settle state line fired).2.2 = some (.watchpoint hit) ↔ fired = some hit := by
  cases fired with
  | some hit' => simp [settle]
  | none =>
    have htrap : state.outcome? ≠ some (.watchpoint hit) := by cases state <;> simp [RunState.outcome?]
    simp only [settle]
    split_ifs <;> simp [htrap]

/-- A step is one call of the table, and what is done after it. -/
theorem step_call (hs : m.step = .ok s) :
    ∃ c, m.call = .ok c ∧ s.start = m.cpu.registers.eip ∧ s.records = c.records ∧
      s.result = c.result ∧ s.machine.cpu = c.cpuAfter m.cpu.registers.eip ∧
      ∀ hit, s.hit = some hit ↔ s.outcome = some (.watchpoint hit) := by
  obtain ⟨c, hc, hs⟩ := bind_eq_ok.mp hs
  refine ⟨c, hc, ?_⟩
  cases hres : c.result with
  | error fault =>
    simp only [hres] at hs
    cases hs
    exact ⟨rfl, rfl, rfl, by simp only [faultStep, Call.cpuAfter, hres], by simp [faultStep]⟩
  | ok completion =>
    simp only [hres] at hs
    cases hs
    refine ⟨rfl, rfl, rfl, by simp only [completeStep, Call.cpuAfter, hres], fun hit => ?_⟩
    exact (outcome_settle _ _).symm

/-- What the journal has of a step, given the call of the table. -/
structure Journaled (m : Machine τ) (c : Call τ) (level : Level) (s : Step τ) : Prop where
  start : s.start = m.cpu.registers.eip
  result : s.result = c.result
  /-- Of an instruction that faults there is nothing but what the table writes. -/
  faulted : ∀ fault, c.result = .error fault →
    s.line? level = none ∧ s.journal level = c.records.map (Entry.mk .call)
  /-- An instruction that is completed has a line after this: its address, as many bytes as the table
  said, and the disassembly that the call left. A watchpoint that fires comes last, with this address. -/
  completed : ∀ completion, c.result = .ok completion →
    let line : Entry := ⟨.line, level, instructionLine m.cpu.registers.eip
      (c.cpu.memory.bytes? m.cpu.registers.eip completion.length.toNat) c.cpu.assembly.text⟩
    s.line? level = some line ∧
      s.journal level = c.records.map (Entry.mk .call) ++ line ::
        (s.looks ++ s.hit.toList.map fun hit => ⟨.hit, .info, hit.line m.cpu.registers.eip⟩)
  /-- A watchpoint that fires is why the run stops. -/
  hit : ∀ hit, s.hit = some hit ↔ s.outcome = some (.watchpoint hit)

theorem journaled (level : Level) (hs : m.step = .ok s) :
    ∃ c, m.call = .ok c ∧ m.Journaled c level s := by
  obtain ⟨c, hc, hstart, hrecords, hresult, hcpu, hhit⟩ := step_call hs
  refine ⟨c, hc, hstart, hresult, fun fault hfault => ?_, fun completion hcompletion => ?_, hhit⟩
  · have hline : s.line? level = none := by simp only [Step.line?, hresult, hfault]
    rw [Step.journal, hline, hrecords]
    exact ⟨rfl, List.append_nil _⟩
  · have hline : s.line? level = some ⟨.line, level, instructionLine m.cpu.registers.eip
        (c.cpu.memory.bytes? m.cpu.registers.eip completion.length.toNat) c.cpu.assembly.text⟩ := by
      simp only [Step.line?, hresult, hcompletion, stepLine_eq, hstart, hcpu, Call.cpuAfter]
      rfl
    refine ⟨hline, ?_⟩
    rw [Step.journal, hline, hrecords, Option.elim_some, Step.watchJournal, hstart]

end Machine

/-! ## Runs -/

namespace Session

variable [InstructionTable τ] {s s' : Session τ} {patience n : Nat} {outcome : Outcome}

/-- What is done does not depend on the log. -/
theorem exec_any_log {budget : Budget} (h : s.exec patience budget = .ok (outcome, s')) (log : Log) :
    ∃ log', exec patience ⟨s.machine, log⟩ budget = .ok (outcome, ⟨s'.machine, log'⟩) :=
  have hrun := exec_iff.mp ⟨s'.log, h⟩
  exec_iff.mpr hrun

/-- The steps of a run that returns, up to the one that decided its outcome. -/
theorem exec_steps {budget : Budget} (h : s.exec patience budget = .ok (outcome, s')) :
    s.machine.state = .ended ∧ s.machine.trace patience budget = [] ∨
    ∃ o m', Machine.Finishes s.machine.beginRun (budget.limit patience)
        (s.machine.trace patience budget) o m' ∧
      Machine.answer budget m' o = .ok (outcome, s'.machine) := by
  by_cases hended : s.machine.state = .ended
  · exact .inl ⟨hended, by rw [Machine.trace, Machine.exec_of_ended hended]⟩
  · exact .inr (Machine.exec_finishes hended (exec_iff.mp ⟨s'.log, h⟩))

theorem stepLevel_ofNat (n : Nat) :
    (Budget.ofNat n).stepLevel = if n < 10 then .info else .trace := by
  unfold Budget.ofNat
  split
  next h =>
    subst h
    rfl
  next => rfl

/-- What a run that returns adds to the log is what the log admits of its journal. -/
theorem exec_journal_log (h : s.exec patience (.ofNat n) = .ok (outcome, s')) :
    s'.log.threshold = s.log.threshold ∧
    s'.log.records.toList = s.log.records.toList ++ s.refusal.filter (s.log.admits ·.level) ++
      (((s.machine.trace patience (.ofNat n)).flatMap
        (Step.journal (if n < 10 then .info else .trace))).filter
          (s.log.admits ·.record.level)).map Entry.record := by
  have hlog := s.exec_log patience (.ofNat n)
  rw [h, stepLevel_ofNat] at hlog
  have hlog : s'.log = _ := hlog
  rw [hlog]
  refine ⟨rfl, ?_⟩
  rw [Log.addAll, Array.toList_appendList, List.filter_append, List.append_assoc,
    ← Step.map_record_journals, List.filter_map]
  rfl

/-- What the log has of a run that returns. The steps are those of the run, up to the one that decided the
outcome. The log keeps what it admits of their journal, and of the lines all or none: these are one for
each step that completes its instruction, in the order of the steps. Each step is taken where those before
it lead, and its part of the journal is as `Journaled` says. All this is the same in every log, but for
what is kept. -/
theorem exec_journal (h : s.exec patience (.ofNat n) = .ok (outcome, s')) :
    let level : Level := if n < 10 then .info else .trace
    let steps := s.machine.trace patience (.ofNat n)
    let kept := (steps.flatMap (Step.journal level)).filter (s.log.admits ·.record.level)
    (s.machine.state = .ended ∧ steps = [] ∨
      ∃ o m', Machine.Finishes s.machine.beginRun ((Budget.ofNat n).limit patience) steps o m' ∧
        Machine.answer (.ofNat n) m' o = .ok (outcome, s'.machine)) ∧
    (s'.log.threshold = s.log.threshold ∧
      s'.log.records.toList = s.log.records.toList ++ s.refusal.filter (s.log.admits ·.level) ++
        kept.map Entry.record) ∧
    kept.filter (·.source = .line) =
      (if s.log.admits level then steps.filterMap (Step.line? level) else []) ∧
    (∀ before step after, steps = before ++ step :: after →
      ∃ m c, s.machine.beginRun.Quiet before m ∧ m.step = .ok step ∧ m.call = .ok c ∧
        m.Journaled c level step) ∧
    ∀ log, ∃ log', exec patience ⟨s.machine, log⟩ (.ofNat n) = .ok (outcome, ⟨s'.machine, log'⟩) := by
  refine ⟨exec_steps h, exec_journal_log h, lines_kept _ _ _, fun before step after hsplit => ?_,
    exec_any_log h⟩
  obtain ⟨m, hq, hs⟩ := Machine.exists_quiet_of_trace hsplit
  obtain ⟨c, hc, hjournaled⟩ := Machine.journaled _ hs
  exact ⟨m, c, hq, hs, hc, hjournaled⟩

/-- An instruction of three bytes, one of them outside the memory, and a watchpoint that fires after it. -/
theorem exec_journal_watched :
    let table : ScriptedTable := ⟨[{ result := some (.executed ⟨3, none⟩) }]⟩
    let registers := { Registers.initial with eip := 0x100000 }
    let cpu : Cpu := ⟨registers, ⟨0x100002, .empty⟩, .fill "scripted".toList⟩
    let idle : Session ScriptedTable := ⟨{ cpu, table }, ⟨some .info, #[]⟩⟩
    ∃ r s s', idle.watch "$eip".toList = .ok (r, s) ∧
      s.exec 0 (.ofNat 9) = .ok (.watchpoint ⟨0, "$eip".toList, 0x100000, 0x100003⟩, s') ∧
      s'.log.records.toList = [
        ⟨.info, "  100000:   00 00 ??                scripted"⟩,
        ⟨.info, "Hit watchpoint 0 at eip = 0x00100000: $eip (0x00100000 -> 0x00100003)"⟩] := by
  intro table registers cpu idle
  let watched : Option (Session ScriptedTable) := (idle.watch "$eip".toList).toOption.map Prod.snd
  have hrun : watched.map (fun s => (s.log.records.toList, s.refusal,
      ((s.machine.trace 0 (.ofNat 9)).flatMap (Step.journal .info)).filter
        (s.log.admits ·.record.level))) =
      some ([], [], [
        ⟨.line, .info, "  100000:   00 00 ??                scripted"⟩,
        ⟨.hit, .info, "Hit watchpoint 0 at eip = 0x00100000: $eip (0x00100000 -> 0x00100003)"⟩]) := by
    decide +kernel
  have houtcome : (watched.bind fun s => (s.exec 0 (.ofNat 9)).toOption.map Prod.fst) =
      some (.watchpoint ⟨0, "$eip".toList, 0x100000, 0x100003⟩) := by decide +kernel
  obtain ⟨s, hwatch, hrun⟩ := Option.map_eq_some_iff.mp hrun
  obtain ⟨⟨r, s⟩, hwatched, rfl⟩ := Option.map_eq_some_iff.mp hwatch
  simp only [Prod.mk.injEq] at hrun
  obtain ⟨hempty, hrefusal, hkept⟩ := hrun
  rw [hwatch, Option.bind_some] at houtcome
  obtain ⟨s', hexec⟩ := exists_ok_of_fst houtcome
  obtain ⟨-, ⟨-, hlog⟩, -⟩ := exec_journal hexec
  refine ⟨r, s, s', eq_ok_of_toOption hwatched, hexec, ?_⟩
  rw [hlog, hempty, hrefusal]
  exact congrArg (List.map Entry.record) hkept

end Session

end Monitor386
