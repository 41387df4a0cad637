import Mathlib
import Monitor386.Proofs.Machine.Resuming

/-!
# The state of a machine in use

A user does the operations of a machine in any order, writes to the processor between them, and asks
for stops. `Turns` is the diagram of the states that the machine goes through: between operations it
never runs, only a run whose last instruction ended the program ends it, and then it does nothing but
restart.

* `exec_turns`: a run does what the diagram says.
* `restart_inv`, `setRegister_inv`, `watch_inv`, `delete_inv`: what the operations at rest leave.
* `Op.turns`: every operation does what the diagram says, too.
* `runAll_turns`: this is so after any operations, and the machine does not run between them.
-/

namespace Monitor386

namespace Machine

/-- An operation of a user. -/
inductive Op where
  | exec (patience : Nat) (budget : Budget)
  | restart (image : List UInt8)
  | loadImage (image : List UInt8)
  | setRegister (name : String) (x : UInt32)
  /-- Writes to registers and memory, without the monitor. -/
  | alter (f : Cpu → Except Abort Cpu)
  | resetCpu
  | watch (e : List Char)
  | delete (no : Nat)
  | examine (addr : UInt32) (n : Nat)
  | eval (e : List Char)
  | requestStop

variable {τ σ : Type} [InstructionTable τ] {m m' : Machine τ} {s : Step τ} {ss : List (Step τ)}

/-- Does an operation. A run has an outcome; an operation that is refused leaves the machine as
it is. -/
def Op.run (m : Machine τ) : Op → Except Abort (Option Outcome × Machine τ)
  | exec patience budget => do
    let (outcome, m) ← (m.exec (fun seen _ => seen) patience budget ()).2
    pure (some outcome, m)
  | restart image => do pure (none, ← m.restart image)
  | loadImage image => do pure (none, { m with cpu := ← m.cpu.loadImage image })
  | setRegister name x => pure (none, (m.setRegister name x).toOption.getD m)
  | alter f => do pure (none, { m with cpu := ← f m.cpu })
  | resetCpu => pure (none, { m with cpu := m.cpu.reset })
  | watch e => do pure (none, (← m.watch e).2)
  | delete no => do pure (none, (← m.delete no).2)
  | examine _ _ | eval _ => pure (none, m)
  | requestStop => pure (none, m.requestStop.2)

/-- Does operations one after the other. -/
def runAll (m : Machine τ) : List Op → Except Abort (Machine τ)
  | [] => pure m
  | op :: ops => do
    let (_, m) ← op.run m
    m.runAll ops

/-- The diagram of the states: an operation with its outcome takes the machine to another. -/
inductive Turns (m : Machine τ) : Op → Option Outcome → Machine τ → Prop where
  /-- The program is over, and nothing happens. -/
  | refused {patience : Nat} {budget : Budget} : m.state = .ended →
      Turns m (.exec patience budget) (some .cannotContinue) m
  /-- The last instruction of a run ended the program. -/
  | ended {patience : Nat} {budget : Budget} {outcome : Outcome} {m' : Machine τ}
      {ss : List (Step τ)} {s : Step τ} : m.state ≠ .ended → outcome ≠ .cannotContinue →
      m.trace patience budget = ss ++ [s] → s.EndsProgram → m'.state = .ended →
      Turns m (.exec patience budget) (some outcome) m'
  /-- A run came to its end before the program. It took a step if it was allowed one. -/
  | paused {patience : Nat} {budget : Budget} {outcome : Outcome} {m' : Machine τ} :
      m.state ≠ .ended → outcome ≠ .cannotContinue →
      (0 < budget.limit patience → m.trace patience budget ≠ []) →
      (∀ s ∈ m.trace patience budget, ¬ s.EndsProgram) → m'.state = .stopped →
      Turns m (.exec patience budget) (some outcome) m'
  | restarted {image : List UInt8} {m' : Machine τ} : m'.state = .stopped →
      Turns m (.restart image) none m'
  /-- All other operations leave the state alone. -/
  | kept {op : Op} {m' : Machine τ} : (∀ patience budget, op ≠ .exec patience budget) →
      (∀ image, op ≠ .restart image) → m'.state = m.state → Turns m op none m'

/-! ## Runs -/

/-- Why a step stops the run, and in which state. -/
theorem step_stops {outcome : Outcome} (hm : m.state = .running) (hs : m.step = .ok s)
    (ho : s.outcome = some outcome) :
    outcome ≠ .cannotContinue ∧ (¬ s.EndsProgram → s.machine.state = .stopped) := by
  have hended := step_ended hm hs
  obtain ⟨c, -, -, hdec, hnext⟩ := step_inv hm hs
  rw [ho] at hdec hnext
  constructor
  · rintro rfl
    obtain _ | ⟨hcause, -⟩ := hdec
    cases hcause
  · intro hno
    rw [← hended, hnext] at hno
    rw [hnext]
    simp only [after, reduceCtorEq, ↓reduceIte] at hno ⊢
    split_ifs at hno ⊢
    · exact absurd rfl hno
    · rfl

/-- Steps that do not stop the run do not end the program. -/
theorem Quiet.not_endsProgram (h : Quiet m ss m') (hm : m.state = .running) :
    ∀ s ∈ ss, ¬ s.EndsProgram := by
  induction h with
  | nil => exact fun s hs => absurd hs List.not_mem_nil
  | @cons m m' s ss hs ho _ ih =>
    have hrun := step_running hm hs ho
    refine List.forall_mem_cons.mpr ⟨?_, ih hrun⟩
    rw [← step_ended hm hs, hrun]
    exact nofun

theorem exec_turns {observe : σ → Step τ → σ} {patience : Nat} {budget : Budget} {seen : σ}
    {outcome : Outcome} (h : (m.exec observe patience budget seen).2 = .ok (outcome, m')) :
    Turns m (.exec patience budget) (some outcome) m' := by
  by_cases hm : m.state = .ended
  · rw [exec_of_ended hm] at h
    cases h
    exact .refused hm
  obtain ⟨m₁, hlen, hq, rfl, rfl⟩ | ⟨ss, m₁, s, htrace, hq, hs, ho, rfl⟩ := exec_inv hm h
  · refine .paused hm nofun (fun hpos => ?_) (hq.not_endsProgram rfl) rfl
    exact List.ne_nil_of_length_pos (hlen ▸ hpos)
  · have hrun : m₁.state = .running := (hq.continues rfl).2
    obtain ⟨hne, hstop⟩ := step_stops hrun hs ho
    -- whatever stopped the run, its last instruction decides
    by_cases hend : s.EndsProgram
    · exact .ended hm hne htrace hend ((step_ended hrun hs).mpr hend)
    · refine .paused hm hne (fun _ => ?_) ?_ (hstop hend)
      · rw [htrace]
        exact List.append_ne_nil_of_right_ne_nil ss (List.cons_ne_nil s [])
      · rw [htrace]
        exact List.forall_mem_append.mpr ⟨hq.not_endsProgram rfl, List.forall_mem_singleton.mpr hend⟩

/-! ## Operations -/

section

omit [InstructionTable τ]

theorem restart_inv {image : List UInt8} (h : m.restart image = .ok m') :
    ∃ cpu : Cpu, m' = { m with cpu, state := .stopped, pool := m.pool.refresh cpu.context } := by
  obtain ⟨cpu, -, h⟩ := bind_eq_ok.mp h
  cases h
  exact ⟨cpu, rfl⟩

theorem setRegister_inv {name : String} {x : UInt32} (h : m.setRegister name x = .ok m') :
    ∃ registers, m.cpu.registers.write? name x = .ok registers ∧
      m' = { m with
        cpu := { m.cpu with registers }
        pool := m.pool.refresh ({ m.cpu with registers } : Cpu).context } := by
  obtain ⟨registers, hwrite, h⟩ := bind_eq_ok.mp h
  cases h
  exact ⟨registers, hwrite, rfl⟩

theorem watch_inv {e : List Char} {r : Except WatchError Watchpoint}
    (h : m.watch e = .ok (r, m')) :
    ∃ pool, m.pool.create m.cpu.context e = .ok (r, pool) ∧ m' = { m with pool } := by
  obtain ⟨⟨r, pool⟩, hcreate, h⟩ := bind_eq_ok.mp h
  cases h
  exact ⟨pool, hcreate, rfl⟩

theorem delete_inv {no : Nat} {r : Except WatchError Unit} (h : m.delete no = .ok (r, m')) :
    ∃ pool, m.pool.delete no = .ok (r, pool) ∧ m' = { m with pool } := by
  obtain ⟨⟨r, pool⟩, hdelete, h⟩ := bind_eq_ok.mp h
  cases h
  exact ⟨pool, hdelete, rfl⟩

theorem setRegister_state (m : Machine τ) (name : String) (x : UInt32) :
    ((m.setRegister name x).toOption.getD m).state = m.state := by
  cases h : m.setRegister name x with
  | error e => rfl
  | ok m' =>
    obtain ⟨registers, -, rfl⟩ := setRegister_inv h
    rfl

end

/-- What one operation does is in the diagram. -/
theorem Op.turns {op : Op} {o : Option Outcome} (h : op.run m = .ok (o, m')) :
    Turns m op o m' := by
  -- only a run and a restart change the state
  cases op with
  | exec patience budget =>
    obtain ⟨⟨outcome, m₁⟩, hexec, h⟩ := bind_eq_ok.mp h
    cases h
    exact exec_turns hexec
  | restart image =>
    obtain ⟨m₁, hrestart, h⟩ := bind_eq_ok.mp h
    cases h
    obtain ⟨cpu, rfl⟩ := restart_inv hrestart
    exact .restarted rfl
  | setRegister name x =>
    cases h
    exact .kept nofun nofun (setRegister_state m name x)
  | loadImage | alter =>
    obtain ⟨cpu, -, h⟩ := bind_eq_ok.mp h
    cases h
    exact .kept nofun nofun rfl
  | watch e =>
    obtain ⟨⟨r, m₁⟩, hwatch, h⟩ := bind_eq_ok.mp h
    cases h
    obtain ⟨pool, -, rfl⟩ := watch_inv hwatch
    exact .kept nofun nofun rfl
  | delete no =>
    obtain ⟨⟨r, m₁⟩, hdelete, h⟩ := bind_eq_ok.mp h
    cases h
    obtain ⟨pool, -, rfl⟩ := delete_inv hdelete
    exact .kept nofun nofun rfl
  | resetCpu | examine | eval | requestStop =>
    cases h
    exact .kept nofun nofun rfl

theorem Turns.idle {op : Op} {o : Option Outcome} (h : Turns m op o m')
    (hm : m.state ≠ .running) : m'.state ≠ .running := by
  cases h with
  | refused => exact hm
  | kept _ _ hstate => exact hstate ▸ hm
  | ended _ _ _ _ hstate | paused _ _ _ _ hstate | restarted hstate =>
    rw [hstate]
    exact nofun

theorem runAll_idle {ops : List Op} (h : m.runAll ops = .ok m') (hm : m.state ≠ .running) :
    m'.state ≠ .running := by
  induction ops generalizing m with
  | nil =>
    cases h
    exact hm
  | cons op ops ih =>
    obtain ⟨⟨o, m₁⟩, hop, hops⟩ := bind_eq_ok.mp h
    exact ih hops ((Op.turns hop).idle hm)

/-- A program that is over stays so until a restart. -/
theorem Turns.ended_of_ended {op : Op} {o : Option Outcome} (h : Turns m op o m')
    (hm : m.state = .ended) (hno : ∀ image, op ≠ .restart image) : m'.state = .ended := by
  cases h with
  | refused => exact hm
  | ended hgo | paused hgo => exact absurd hm hgo
  | restarted => exact absurd rfl (hno _)
  | kept _ _ hstate => exact hstate.trans hm

theorem runAll_ended {ops : List Op} (h : m.runAll ops = .ok m') (hm : m.state = .ended)
    (hno : ∀ op ∈ ops, ∀ image, op ≠ .restart image) : m'.state = .ended := by
  induction ops generalizing m with
  | nil =>
    cases h
    exact hm
  | cons op ops ih =>
    obtain ⟨hop, hops⟩ := List.forall_mem_cons.mp hno
    obtain ⟨⟨o, m₁⟩, hrun, hrest⟩ := bind_eq_ok.mp h
    exact ih hrest ((Op.turns hrun).ended_of_ended hm hop) hops

theorem Op.exec_of_ended (hm : m.state = .ended) (patience : Nat) (budget : Budget) :
    (Op.exec patience budget).run m = .ok (some .cannotContinue, m) := by
  rw [Op.run, Machine.exec_of_ended hm]
  rfl

/-- After any operations, none of which aborted, the machine does not run, and whatever is done next is
in the diagram. If the program is over then, all runs are refused, and it stays over until a restart. -/
theorem runAll_turns (capacity : Nat) (table : τ) (line : StopLine) (ops : List Op) (m : Machine τ)
    (h : runAll (create capacity table line) ops = .ok m) :
    m.state ≠ .running ∧
    (∀ op o m', op.run m = .ok (o, m') → Turns m op o m') ∧
    (m.state = .ended →
      (∀ patience budget, (Op.exec patience budget).run m = .ok (some .cannotContinue, m)) ∧
      ∀ ops' m', m.runAll ops' = .ok m' → (∀ op ∈ ops', ∀ image, op ≠ .restart image) →
        m'.state = .ended) :=
  ⟨runAll_idle h nofun, fun _ _ _ => Op.turns,
    fun hm => ⟨Op.exec_of_ended hm, fun _ _ hrun => runAll_ended hrun hm⟩⟩

/-- The last instruction of a program also changes a watchpoint, which is what is reported. The program
is over nevertheless, and a run is refused; writes to the processor do not bring it back, a restart
does. -/
theorem runAll_turns_watched_end :
    let last : ScriptEntry := { result := some (.executed ⟨2, some .finish⟩) }
    let start : Machine ScriptedTable := create 0x100010 ⟨[last]⟩ .idle
    let ops : List Op := [.watch "$eip".toList, .exec 9 (.steps 5)]
    let meddling : List Op := [.setRegister "eip" 0, .alter fun c => .ok (c.goto 0x100000),
      .exec 9 .unlimited, .delete 0, .requestStop]
    ∃ m m' m₁, runAll start ops = .ok m ∧ m.state = .ended ∧
      (Op.exec 9 .unlimited).run m = .ok (some .cannotContinue, m) ∧
      m.runAll meddling = .ok m' ∧ m'.state = .ended ∧
      (Op.restart [0x90]).run m = .ok (none, m₁) ∧ m₁.state = .stopped := by
  intro last start ops meddling
  let finished : Option (Machine ScriptedTable) := (runAll start ops).toOption
  have hstate : finished.map (·.state) = some .ended := by decide +kernel
  have hmeddling : (finished.bind fun m => (m.runAll meddling).toOption).isSome := by decide +kernel
  have hrestart : (finished.bind fun m => ((Op.restart [0x90]).run m).toOption).isSome := by
    decide +kernel
  obtain ⟨m, hm, hended⟩ := Option.map_eq_some_iff.mp hstate
  rw [hm, Option.bind_some] at hmeddling hrestart
  obtain ⟨m', hm'⟩ := Option.isSome_iff_exists.mp hmeddling
  obtain ⟨⟨o, m₁⟩, hm₁⟩ := Option.isSome_iff_exists.mp hrestart
  have hm' := eq_ok_of_toOption hm'
  have hm₁ := eq_ok_of_toOption hm₁
  have hops : runAll start ops = .ok m := eq_ok_of_toOption hm
  obtain ⟨-, hturns, hover⟩ := runAll_turns 0x100010 ⟨[last]⟩ .idle ops m hops
  obtain ⟨hexec, hstays⟩ := hover hended
  obtain ⟨rfl, hstop⟩ : o = none ∧ m₁.state = .stopped := by
    cases hturns _ _ _ hm₁ with
    | restarted hstop => exact ⟨rfl, hstop⟩
    | kept _ hno => exact absurd rfl (hno _)
  have hno : ∀ op ∈ meddling, ∀ image, op ≠ .restart image := by
    simp [meddling]
  exact ⟨m, m', m₁, hops, hended, hexec 9 .unlimited, hm', hstays meddling m' hm' hno, hm₁, hstop⟩

end Machine

end Monitor386
