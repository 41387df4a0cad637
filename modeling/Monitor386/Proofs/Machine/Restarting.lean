import Mathlib
import Monitor386.Proofs.Machine.Lifecycle
import Monitor386.Proofs.Memory.Row
import Monitor386.Proofs.Watch.Roster

/-!
# Restarting

A `Snapshot` is what a user sees of a machine. It leaves out how the slots of the pool are linked and
which numbers are free, and a run depends on nothing that it leaves out. A restart takes the processor
back to power-on with a program in its memory, so that only the expressions that are watched, and the
numbers that they have, are left of what was done before.

* `step_snapshot`, `exec_snapshot`, `execAll_snapshot`: machines with one snapshot take the same steps
  and the same runs, and go on having one snapshot.
* `restart_eq`: what a restart makes of a machine.
* `restart_erases`: two machines, restarted with one program, are the same up to the links of the pool.
-/

namespace Monitor386

/-- What a user sees of a machine. -/
structure Snapshot (τ : Type) where
  cpu : Cpu
  table : τ
  /-- The watchpoints, the newest first. -/
  watches : List Watchpoint
  state : RunState
  stopLine : StopLine

/-- The processor at power-on with a program in its memory. -/
def Cpu.started (capacity : Nat) (image : List UInt8) : Cpu where
  memory := ⟨capacity, Store.empty.splice entryPoint.toNat image⟩

/-- The bytes of a memory of `n` bytes that holds a program at the entry point and nothing else. -/
def Row.started (n : Nat) (image : List UInt8) : Row :=
  ⟨List.replicate 0x100000 0 ++ image ++ List.replicate (n - 0x100000 - image.length) 0⟩

theorem Cpu.started_row {capacity : Nat} {image : List UInt8}
    (hfits : entryPoint.toNat + image.length ≤ capacity) :
    (Cpu.started capacity image).memory.row = .started capacity image := by
  have hentry : entryPoint.toNat = 0x100000 := rfl
  have hsplice : (Cpu.started capacity image).memory.row =
      (⟨capacity, .empty⟩ : Memory).row.put entryPoint.toNat image :=
    Memory.row_splice (show _ ≤ (⟨capacity, .empty⟩ : Memory).capacity from hfits)
  rw [hentry] at hfits hsplice
  rw [hsplice, Memory.row_empty, Row.put, Row.zeros, List.take_replicate, List.drop_replicate,
    Nat.min_eq_left (by omega), Nat.sub_add_eq]
  rfl

namespace Machine

variable {τ σ : Type} {m m' : Machine τ} {c : Call τ} {o : Option Outcome}

def snapshot (m : Machine τ) : Snapshot τ :=
  ⟨m.cpu, m.table, m.pool.toList, m.state, m.stopLine⟩

/-! ## Steps -/

section

variable (h : m.snapshot = m'.snapshot)
include h

theorem cause_of_snapshot {o : Outcome} (hc : Cause m c o) : Cause m' c o := by
  have hcpu : m.cpu = m'.cpu := congrArg Snapshot.cpu h
  have hlist : m.pool.toList = m'.pool.toList := congrArg Snapshot.watches h
  have hline : m.stopLine = m'.stopLine := congrArg Snapshot.stopLine h
  cases hc with
  | fault hres => exact .fault hres
  | watchpoint hres hfires =>
    rw [hcpu, hlist] at hfires
    exact .watchpoint hres hfires
  | interrupted hres hreq =>
    rw [hline] at hreq
    exact .interrupted hres hreq
  | breakpoint htrap => exact .breakpoint htrap
  | ended htrap => exact .ended htrap

theorem decides_of_snapshot (hd : Decides m c o) : Decides m' c o := by
  cases hd with
  | go hno => exact .go fun o ho => hno o (cause_of_snapshot h.symm ho)
  | stop ho hmin =>
    exact .stop (cause_of_snapshot h ho) fun o' ho' => hmin o' (cause_of_snapshot h.symm ho')

/-- Storing the value of a watchpoint that fired shows in the list alone. -/
theorem after_snapshot (c : Call τ) (o : Option Outcome) :
    (m.after c o).snapshot = (m'.after c o).snapshot := by
  have hcpu : m.cpu = m'.cpu := congrArg Snapshot.cpu h
  have hlist : m.pool.toList = m'.pool.toList := congrArg Snapshot.watches h
  have hline : m.stopLine = m'.stopLine := congrArg Snapshot.stopLine h
  simp only [snapshot, after, hcpu, hline, Snapshot.mk.injEq, and_true, true_and]
  split
  · rw [Pool.toList_store, Pool.toList_store, hlist]
  · exact hlist

theorem beginRun_snapshot : m.beginRun.snapshot = m'.beginRun.snapshot := by
  simp only [snapshot, Snapshot.mk.injEq] at h
  obtain ⟨hcpu, htable, hlist, -, hline⟩ := h
  simp only [snapshot, beginRun, hcpu, htable, hlist, hline]

variable [InstructionTable τ]

theorem call_of_snapshot : m.call = m'.call := by
  have hcpu : m.cpu = m'.cpu := congrArg Snapshot.cpu h
  have htable : m.table = m'.table := congrArg Snapshot.table h
  rw [call, call, hcpu, htable]

/-- A running machine takes a step that its snapshot tells. -/
theorem step_snapshot (hm : m.state = .running) :
    m.step.map (fun s => (s.outcome, s.machine.snapshot)) =
      m'.step.map (fun s => (s.outcome, s.machine.snapshot)) := by
  have hm' : m'.state = .running := (congrArg Snapshot.state h).symm.trans hm
  have hcall : m'.call = m.call := (call_of_snapshot h).symm
  cases hc : m.call with
  | error a => rw [step_of_error hc, step_of_error (hcall.trans hc)]
  | ok c =>
    obtain ⟨s, hs, -, hdec, hnext⟩ := step_eq hm hc
    obtain ⟨s', hs', -, hdec', hnext'⟩ := step_eq hm' (hcall.trans hc)
    have ho : s.outcome = s'.outcome := (decides_of_snapshot h hdec).unique hdec'
    rw [hs, hs']
    simp only [Except.map, hnext, hnext', ho, after_snapshot h]

/-! ## Runs -/

theorem advance_snapshot (observe : σ → Step τ → σ) (n : Nat) (seen seen' : σ)
    (hm : m.state = .running) :
    (m.advance observe n seen).2.map (Prod.map id snapshot) =
      (m'.advance observe n seen').2.map (Prod.map id snapshot) := by
  induction n generalizing m m' seen seen' with
  | zero => simp only [advance, Except.map, Prod.map, id, h]
  | succ n ih =>
    obtain ⟨a, hs, hs'⟩ | ⟨s, s', hs, hs', hstep⟩ := map_eq_map (step_snapshot h hm)
    · simp only [advance, hs, hs', Except.map]
    obtain ⟨ho, hnext⟩ := Prod.mk.inj hstep
    cases hout : s.outcome with
    | some outcome =>
      simp only [advance, hs, hs', ← ho, hout, Except.map, Prod.map, id, hnext]
    | none =>
      simp only [advance, hs, hs', ← ho, hout]
      exact ih hnext _ _ (step_running hm hs hout)

omit [InstructionTable τ] in
theorem answer_snapshot (budget : Budget) (o : Option Outcome) :
    (answer budget m o).map (Prod.map id snapshot) =
      (answer budget m' o).map (Prod.map id snapshot) := by
  cases o with
  | some outcome => simp only [answer, Except.map, Prod.map, id, h]
  | none =>
    cases budget with
    | unlimited => rfl
    | steps n =>
      simp only [snapshot, Snapshot.mk.injEq] at h
      obtain ⟨hcpu, htable, hlist, -, hline⟩ := h
      simp only [answer, Except.map, Prod.map, id, snapshot, hcpu, htable, hlist, hline]

/-- A run is the same on machines with one snapshot. -/
theorem exec_snapshot (observe : σ → Step τ → σ) (patience : Nat) (budget : Budget) (seen : σ) :
    (m.exec observe patience budget seen).2.map (Prod.map id snapshot) =
      (m'.exec observe patience budget seen).2.map (Prod.map id snapshot) := by
  have hstate : m.state = m'.state := congrArg Snapshot.state h
  by_cases hm : m.state = .ended
  · rw [exec_of_ended hm, exec_of_ended (hstate ▸ hm)]
    simp only [Except.map, Prod.map, id, h]
  have hadvance := advance_snapshot (beginRun_snapshot h) observe (budget.limit patience) seen
    seen rfl
  rw [exec_eq_advance hm, exec_eq_advance (hstate ▸ hm)]
  obtain ⟨a, ha, ha'⟩ | ⟨x, x', hx, hx', heq⟩ := map_eq_map hadvance
  · rw [ha, ha']
  · obtain ⟨ho, hnext⟩ := Prod.mk.inj heq
    rw [hx, hx']
    simp only [Except.bind, id_eq] at ho ⊢
    rw [ho]
    exact answer_snapshot hnext budget x'.1

end

section

variable [InstructionTable τ]

/-- Runs one after the other, with their outcomes. -/
def execAll (m : Machine τ) : List (Nat × Budget) → Except Abort (List Outcome × Machine τ)
  | [] => pure ([], m)
  | (patience, budget) :: runs => do
    let (outcome, m) ← (m.exec (fun seen _ => seen) patience budget ()).2
    let (outcomes, m) ← m.execAll runs
    pure (outcome :: outcomes, m)

/-- So are any runs, one after the other. -/
theorem execAll_snapshot (h : m.snapshot = m'.snapshot) (runs : List (Nat × Budget)) :
    (m.execAll runs).map (Prod.map id snapshot) = (m'.execAll runs).map (Prod.map id snapshot) := by
  induction runs generalizing m m' with
  | nil => simp only [execAll, pure, Except.pure, Except.map, Prod.map, id, h]
  | cons run runs ih =>
    obtain ⟨patience, budget⟩ := run
    have hexec := exec_snapshot h (fun seen _ => seen) patience budget ()
    obtain ⟨a, ha, ha'⟩ | ⟨x, x', hx, hx', heq⟩ := map_eq_map hexec
    · simp only [execAll, ha, ha', bind, Except.bind]
    obtain ⟨ho, hnext⟩ := Prod.mk.inj heq
    simp only [execAll, hx, hx', bind, Except.bind]
    obtain ⟨a, ha, ha'⟩ | ⟨y, y', hy, hy', heq'⟩ := map_eq_map (ih hnext)
    · simp only [ha, ha']
    obtain ⟨hos, hlast⟩ := Prod.mk.inj heq'
    simp only [id] at ho hos
    simp only [hy, hy', pure, Except.pure, Except.map, Prod.map, id, ho, hos, hlast]

end

/-! ## Restarts -/

/-- What a restart makes of a machine if the program fits. -/
def restarted (m : Machine τ) (capacity : Nat) (image : List UInt8) : Machine τ :=
  { m with
    cpu := .started capacity image
    state := .stopped
    pool := m.pool.refresh (Cpu.started capacity image).context }

theorem restart_eq {capacity : Nat} {image : List UInt8} (hcap : m.cpu.memory.capacity = capacity)
    (hfits : entryPoint.toNat + image.length ≤ capacity) :
    m.restart image = .ok (m.restarted capacity image) := by
  subst hcap
  have hin : m.cpu.memory.reset.contains (Space.program.physicalOf entryPoint) image.length = true := by
    rw [Memory.physicalOf_eq, Memory.contains, decide_eq_true_eq]
    exact hfits
  simp only [restart, Cpu.reset, Cpu.loadImage, Memory.load, hin, ↓reduceIte]
  rfl

/-- The numbers and expressions that are watched, the newest first. -/
def watched (m : Machine τ) : List (Nat × List Char) :=
  m.pool.toList.map fun w => (w.no, w.expr)

theorem watched_restarted (m : Machine τ) (capacity : Nat) (image : List UInt8) :
    (m.restarted capacity image).watched = m.watched := by
  have hlabels := Roster.labels_refresh m.pool.roster (Cpu.started capacity image).context
  rw [← Pool.refresh_roster] at hlabels
  exact congrArg Prod.fst hlabels

/-- A list of watchpoints whose expressions have values is refreshed to what these and the numbers
tell. -/
theorem toList_refresh_of_eval {ctx : Expr.Context}
    (h : ∀ w ∈ m.watched, ∃ x, Expr.eval ctx w.2 = .ok x) :
    (m.pool.refresh ctx).toList =
      m.watched.map fun w => Watchpoint.refreshed ctx ⟨w.1, w.2, 0⟩ := by
  rw [Pool.toList_refresh, watched, List.map_map]
  refine List.map_congr_left fun w hw => ?_
  obtain ⟨x, hx⟩ := h _ (List.mem_map_of_mem hw)
  simp only [Watchpoint.refreshed, hx, Function.comp_apply]

theorem restarted_snapshot {capacity : Nat} {image : List UInt8} (htable : m.table = m'.table)
    (hline : m.stopLine = m'.stopLine) (hwatched : m.watched = m'.watched)
    (heval : ∀ w ∈ m.watched, ∃ x, (m.restarted capacity image).eval w.2 = .ok x) :
    (m.restarted capacity image).snapshot = (m'.restarted capacity image).snapshot := by
  have hlist : (m.restarted capacity image).pool.toList =
      (m'.restarted capacity image).pool.toList := by
    have h := toList_refresh_of_eval heval
    rw [hwatched] at h heval
    exact h.trans (toList_refresh_of_eval heval).symm
  rw [snapshot, hlist]
  simp only [restarted, htable, hline]
  rfl

/-- A restart erases what was done before. The processor, with its memory and its disassembly, and the
run state are those of power-on with the program loaded, whatever two machines of one capacity went
through. If they watch the same expressions under the same numbers, and these have values in the
restarted machine, then no runs after the restart tell them apart. -/
theorem restart_erases (m₁ m₂ : Machine I386Table) (capacity : Nat) (image : List UInt8)
    (hcap₁ : m₁.cpu.memory.capacity = capacity) (hcap₂ : m₂.cpu.memory.capacity = capacity)
    (hline₁ : m₁.stopLine = .absent) (hline₂ : m₂.stopLine = .absent)
    (hfits : entryPoint.toNat + image.length ≤ capacity) :
    ∃ r₁ r₂, m₁.restart image = .ok r₁ ∧ m₂.restart image = .ok r₂ ∧
      r₁.cpu = r₂.cpu ∧ r₁.state = .stopped ∧ r₂.state = .stopped ∧
      (∀ slot, r₁.cpu.registers.get slot .full = 0) ∧
      r₁.cpu.registers.eip = 0x100000 ∧ r₁.cpu.registers.eflags.word = 2 ∧
      r₁.cpu.assembly = .empty ∧ r₁.cpu.memory.capacity = capacity ∧
      r₁.cpu.memory.row = .started capacity image ∧
      r₁.watched = m₁.watched ∧ r₂.watched = m₂.watched ∧
      (m₁.watched = m₂.watched → (∀ w ∈ m₁.watched, ∃ x, r₁.eval w.2 = .ok x) →
        ∀ runs, (r₁.execAll runs).map (Prod.map id snapshot) =
          (r₂.execAll runs).map (Prod.map id snapshot)) := by
  have hget : ∀ slot, (Cpu.started capacity image).registers.get slot .full = 0 := by
    intro slot
    simp [Cpu.started, Registers.initial, Registers.get]
  refine ⟨_, _, restart_eq hcap₁ hfits, restart_eq hcap₂ hfits, rfl, rfl, rfl, hget, rfl, rfl, rfl,
    rfl, Cpu.started_row hfits, watched_restarted m₁ .., watched_restarted m₂ ..,
    fun hwatched heval => ?_⟩
  exact execAll_snapshot (restarted_snapshot rfl (hline₁.trans hline₂.symm) hwatched heval)

/-- One machine has set a watchpoint and nothing else. The other has set and deleted two more, so that
other numbers come next, and its program is over. A restart makes them one. -/
theorem restart_erases_ended :
    let image : List UInt8 := [0x40, 0x90, 0xd6]
    let start : Machine I386Table := create 0x100010 {} .absent
    let ops₁ : List Op := [.watch "$eax".toList]
    let ops₂ : List Op := ops₁ ++ [.watch "*$esp".toList, .watch "$ebx + 1".toList, .delete 1,
      .delete 2, .loadImage image, .exec 9 .unlimited, .exec 9 .unlimited, .setRegister "esp" 4]
    ∃ m₁ m₂ r₁ r₂, runAll start ops₁ = .ok m₁ ∧ runAll start ops₂ = .ok m₂ ∧
      m₁.pool.available ≠ m₂.pool.available ∧ m₂.state = .ended ∧
      m₁.restart image = .ok r₁ ∧ m₂.restart image = .ok r₂ ∧ r₁.cpu = r₂.cpu ∧
      r₂.state = .stopped ∧
      ∀ runs, (r₁.execAll runs).map (Prod.map id snapshot) =
        (r₂.execAll runs).map (Prod.map id snapshot) := by
  intro image start ops₁ ops₂
  let facts (m : Machine I386Table) :=
    ((m.cpu.memory.capacity, m.stopLine), m.watched, m.state, m.pool.available.head?)
  have h₁ : (runAll start ops₁).toOption.map facts =
      some ((0x100010, .absent), [(0, "$eax".toList)], .stopped, some 1) := by decide +kernel
  have h₂ : (runAll start ops₂).toOption.map facts =
      some ((0x100010, .absent), [(0, "$eax".toList)], .ended, some 2) := by decide +kernel
  have heval : ((runAll start ops₁).toOption.bind fun m => (m.restart image).toOption.bind fun r =>
      (r.eval "$eax".toList).toOption) = some 0 := by decide +kernel
  obtain ⟨m₁, hm₁, hfacts₁⟩ := Option.map_eq_some_iff.mp h₁
  obtain ⟨m₂, hm₂, hfacts₂⟩ := Option.map_eq_some_iff.mp h₂
  simp only [facts, Prod.mk.injEq] at hfacts₁ hfacts₂
  obtain ⟨⟨hcap₁, hline₁⟩, hwatched₁, -, hnext₁⟩ := hfacts₁
  obtain ⟨⟨hcap₂, hline₂⟩, hwatched₂, hended, hnext₂⟩ := hfacts₂
  obtain ⟨r₁, r₂, hr₁, hr₂, hcpu, -, hstate, -, -, -, -, -, -, -, -, hruns⟩ :=
    restart_erases m₁ m₂ 0x100010 image hcap₁ hcap₂ hline₁ hline₂ (by decide)
  rw [hm₁, Option.bind_some, hr₁] at heval
  have hvalues : ∀ w ∈ m₁.watched, ∃ x, r₁.eval w.2 = .ok x := by
    rw [hwatched₁]
    exact List.forall_mem_singleton.mpr ⟨0, eq_ok_of_toOption heval⟩
  refine ⟨m₁, m₂, r₁, r₂, eq_ok_of_toOption hm₁, eq_ok_of_toOption hm₂, fun h => ?_, hended, hr₁, hr₂,
    hcpu, hstate, hruns (hwatched₁.trans hwatched₂.symm) hvalues⟩
  rw [h, hnext₂] at hnext₁
  cases hnext₁

end Machine

end Monitor386
