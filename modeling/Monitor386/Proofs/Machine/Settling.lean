import Mathlib
import Monitor386.Proofs.Machine.Keeping
import Monitor386.Proofs.Watch.Exhausting

/-!
# Watchpoints at rest

A machine is `Settled` if a scan of its watchpoints finds nothing. To restart it, or to write a register
by its name, settles it, and then it stays settled until an instruction is executed or something writes
to the processor without the monitor (`Disturbs`).

* `settled_iff`: all watchpoints of a settled machine have their current values, or none.
* `settled_of_restart`, `settled_of_setRegister`: what settles a machine.
* `Settled.op`, `Settled.runAll`: the first operation that disturbs it.
* `scans_settle`: scans until nothing is left do what a refresh does, and what follows for a machine.
-/

namespace Monitor386

namespace Machine

variable {τ : Type} {m m' : Machine τ}

/-- A scan finds nothing. -/
def Settled (m : Machine τ) : Prop :=
  m.pool.scan m.cpu.context = (none, m.pool)

instance (m : Machine τ) : Decidable m.Settled :=
  inferInstanceAs (Decidable (m.pool.scan m.cpu.context = (none, m.pool)))

theorem settled_iff : m.Settled ↔ m.pool.Steady m.cpu.context :=
  ⟨Pool.steady_of_scan, Pool.scan_of_steady⟩

/-! ## What settles a machine -/

theorem settled_of_restart {image : List UInt8} (h : m.restart image = .ok m') : m'.Settled := by
  obtain ⟨cpu, rfl⟩ := restart_inv h
  exact settled_iff.mpr (m.pool.refresh_steady _)

theorem settled_of_setRegister {name : String} {x : UInt32} (h : m.setRegister name x = .ok m') :
    m'.Settled := by
  obtain ⟨registers, -, rfl⟩ := setRegister_inv h
  exact settled_iff.mpr (m.pool.refresh_steady _)

theorem Settled.watch {e : List Char} {r : Except WatchError Watchpoint} (hm : m.Settled)
    (hl : m.LaidOut) (h : m.watch e = .ok (r, m')) : m'.Settled := by
  obtain ⟨as, fs, hl⟩ := hl
  obtain ⟨pool, hcreate, rfl⟩ := watch_inv h
  exact settled_iff.mpr (hl.create_steady hcreate (settled_iff.mp hm))

theorem Settled.delete {no : Nat} {r : Except WatchError Unit} (hm : m.Settled) (hl : m.LaidOut)
    (h : m.delete no = .ok (r, m')) : m'.Settled := by
  obtain ⟨as, fs, hl⟩ := hl
  obtain ⟨pool, hdelete, rfl⟩ := delete_inv h
  exact settled_iff.mpr (hl.delete_steady hdelete (settled_iff.mp hm))

/-! ## What disturbs it -/

variable [InstructionTable τ]

/-- The operation executes an instruction, or writes to the processor without the monitor. -/
inductive Disturbs (m : Machine τ) : Op → Prop where
  | exec {patience : Nat} {budget : Budget} : m.trace patience budget ≠ [] →
      Disturbs m (.exec patience budget)
  | loadImage {image : List UInt8} : Disturbs m (.loadImage image)
  | alter {f : Cpu → Except Abort Cpu} : Disturbs m (.alter f)
  | resetCpu : Disturbs m .resetCpu

/-- A run that takes no step. -/
theorem Settled.exec {σ : Type} {observe : σ → Step τ → σ} {patience : Nat} {budget : Budget}
    {seen : σ} {outcome : Outcome} (hm : m.Settled)
    (h : (m.exec observe patience budget seen).2 = .ok (outcome, m'))
    (hnone : m.trace patience budget = []) : m'.Settled := by
  by_cases hend : m.state = .ended
  · rw [exec_of_ended hend] at h
    cases h
    exact hm
  obtain ⟨m₁, -, hq, -, rfl⟩ | ⟨ss, m₁, s, htrace, -⟩ := exec_inv hend h
  · rw [hnone] at hq
    cases hq
    exact hm
  · rw [hnone] at htrace
    exact absurd htrace.symm (List.append_ne_nil_of_right_ne_nil ss (List.cons_ne_nil s []))

theorem Settled.op {op : Op} {o : Option Outcome} (hm : m.Settled) (hl : m.LaidOut)
    (h : op.run m = .ok (o, m')) : m'.Settled ∨ m.Disturbs op := by
  -- a run, and what changes the memory or the registers behind the watchpoints, may disturb them
  cases op with
  | exec patience budget =>
    by_cases hnone : m.trace patience budget = []
    · obtain ⟨⟨outcome, m₁⟩, hexec, h⟩ := bind_eq_ok.mp h
      cases h
      exact .inl (hm.exec hexec hnone)
    · exact .inr (.exec hnone)
  | restart image =>
    obtain ⟨m₁, hrestart, h⟩ := bind_eq_ok.mp h
    cases h
    exact .inl (settled_of_restart hrestart)
  | setRegister name x =>
    cases h
    cases hset : m.setRegister name x with
    | error e => exact .inl hm
    | ok m₁ => exact .inl (settled_of_setRegister hset)
  | watch e =>
    obtain ⟨⟨r, m₁⟩, hwatch, h⟩ := bind_eq_ok.mp h
    cases h
    exact .inl (hm.watch hl hwatch)
  | delete no =>
    obtain ⟨⟨r, m₁⟩, hdelete, h⟩ := bind_eq_ok.mp h
    cases h
    exact .inl (hm.delete hl hdelete)
  | loadImage image => exact .inr .loadImage
  | alter f => exact .inr .alter
  | resetCpu => exact .inr .resetCpu
  | examine | eval | requestStop =>
    cases h
    exact .inl hm

/-- A settled machine stays settled up to the first operation that disturbs it. -/
theorem Settled.runAll {ops : List Op} (hm : m.Settled) (hl : m.LaidOut)
    (h : m.runAll ops = .ok m') :
    m'.Settled ∨ ∃ before op after m₁, ops = before ++ op :: after ∧ m.runAll before = .ok m₁ ∧
      m₁.Settled ∧ m₁.Disturbs op := by
  induction ops generalizing m with
  | nil =>
    cases h
    exact .inl hm
  | cons op ops ih =>
    obtain ⟨⟨o, m₁⟩, hop, hops⟩ := bind_eq_ok.mp h
    obtain hsettled | hdisturbs := hm.op hl hop
    · obtain hlast | ⟨before, op', after, m₂, rfl, hbefore, hrest⟩ := ih hsettled (hl.op hop) hops
      · exact .inl hlast
      · exact .inr ⟨op :: before, op', after, m₂, rfl, bind_eq_ok.mpr ⟨_, hop, hbefore⟩, hrest⟩
    · exact .inr ⟨[], op, ops, m, rfl, rfl, hm, hdisturbs⟩

/-- After any calls, scans of a pool in one context report each watchpoint that changed once, the newest
first, and then nothing; what they leave is what a refresh leaves. A machine is therefore settled after a
restart and after a write to a register, and once it is, it stays so until an operation disturbs it. -/
theorem scans_settle (τ : Type) [InstructionTable τ] :
    (∀ ops replies p, Pool.runAll .empty ops = .ok (replies, p) → ∀ ctx, p.Drains ctx) ∧
    ∀ (capacity : Nat) (table : τ) (line : StopLine) (ops : List Op) (m : Machine τ),
      Machine.runAll (create capacity table line) ops = .ok m →
      (∀ image m', m.restart image = .ok m' → m'.Settled) ∧
      (∀ name x m', m.setRegister name x = .ok m' → m'.Settled) ∧
      ({ m with pool := m.pool.refresh m.cpu.context } : Machine τ).Settled ∧
      (m.Settled → ∀ ops' m', m.runAll ops' = .ok m' →
        m'.Settled ∨ ∃ before op after m₁, ops' = before ++ op :: after ∧
          m.runAll before = .ok m₁ ∧ m₁.Settled ∧ m₁.Disturbs op) := by
  refine ⟨fun ops replies p hrun ctx => ?_, fun capacity table line ops m hrun =>
    ⟨fun _ _ => settled_of_restart, fun _ _ _ => settled_of_setRegister, ?_, fun hm _ _ => ?_⟩⟩
  · obtain ⟨as, fs, hl⟩ := Pool.Layout.empty.of_runAll hrun
    exact hl.drains ctx
  · exact settled_iff.mpr (m.pool.refresh_steady _)
  · exact hm.runAll ((create_laidOut capacity table line).runAll hrun)

/-- Of four watchpoints two changed, one did not and one has no value any more. The newer change is
reported before the older one, and the watchpoint without a value keeps the old one. A register that is
watched is written, and a watchpoint set and another deleted, with nothing left to report. -/
theorem scans_settle_mixed :
    let registers (eax : UInt32) (name : String) : Option UInt32 :=
      if name = "eax" then some eax else if name = "ebx" then some 7 else none
    let first : Expr.Context := ⟨registers 1, fun _ => some 5⟩
    let second : Expr.Context := ⟨registers 2, fun _ => none⟩
    let ops : List Pool.Op := [.create first "$eax".toList, .create first "*16".toList,
      .create first "$ebx".toList, .create first "$eax + $ebx".toList]
    let newer : WatchChange := ⟨3, "$eax + $ebx".toList, 8, 9⟩
    let older : WatchChange := ⟨0, "$eax".toList, 1, 2⟩
    let start : Machine I386Table := create 0x100010 {} .absent
    let later : List Op := [.setRegister "eax" 5, .watch "$eax + 1".toList, .delete 0]
    (∃ replies p, Pool.runAll .empty ops = .ok (replies, p) ∧
      p.scanAll second 4 = ([some newer, some older, none, none], p.refresh second) ∧
      ⟨1, "*16".toList, 5⟩ ∈ (p.refresh second).toList) ∧
    ∃ m m₁ m', runAll start [.restart [0x40], .watch "$eax".toList] = .ok m ∧
      m.setRegister "eax" 5 = .ok m₁ ∧ m₁.Settled ∧
      m.Settled ∧ m.runAll later = .ok m' ∧ m'.Settled := by
  intro registers first second ops newer older start later
  obtain ⟨hpools, hmachines⟩ := scans_settle I386Table
  constructor
  -- the pool is computed once, and the theorem gives the scans
  · have hchanges : (Pool.runAll .empty ops).toOption.map (fun r => r.2.changes second) =
        some [newer, older] := by decide +kernel
    have hfailing : (Pool.runAll .empty ops).toOption.map
        (fun r => decide (⟨1, "*16".toList, 5⟩ ∈ r.2.toList)) = some true := by decide +kernel
    have herr : Expr.eval second "*16".toList = .error (.badAddress 16) := by decide +kernel
    obtain ⟨⟨replies, p⟩, hp, hchanges⟩ := Option.map_eq_some_iff.mp hchanges
    rw [hp, Option.map_some, Option.some_inj, decide_eq_true_iff] at hfailing
    have hp := eq_ok_of_toOption hp
    have hdrains := hpools ops replies p hp second
    have hscans := hdrains.scans 4 (by rw [hchanges]; decide)
    rw [hchanges] at hscans
    exact ⟨replies, p, hp, hscans, (hdrains.failing _ _ hfailing herr).2⟩
  · let prepared : Option (Machine I386Table) :=
      (runAll start [.restart [0x40], .watch "$eax".toList]).toOption
    have hsettled : prepared.map (fun m => decide m.Settled) = some true := by decide +kernel
    have hset : (prepared.bind fun m => (m.setRegister "eax" 5).toOption).isSome := by decide +kernel
    have hlater : (prepared.bind fun m => (m.runAll later).toOption).isSome := by decide +kernel
    obtain ⟨m, hm, hsettled⟩ := Option.map_eq_some_iff.mp hsettled
    rw [hm, Option.bind_some] at hset hlater
    obtain ⟨m₁, hm₁⟩ := Option.isSome_iff_exists.mp hset
    obtain ⟨m', hm'⟩ := Option.isSome_iff_exists.mp hlater
    have hm := eq_ok_of_toOption hm
    have hm₁ := eq_ok_of_toOption hm₁
    have hm' := eq_ok_of_toOption hm'
    have hsettled : m.Settled := of_decide_eq_true hsettled
    obtain ⟨-, hregister, -, hstays⟩ := hmachines 0x100010 {} .absent _ m hm
    refine ⟨m, m₁, m', hm, hm₁, hregister _ _ _ hm₁, hsettled, hm', ?_⟩
    -- none of the later operations disturbs the watchpoints
    obtain hend | ⟨before, op, after, m₂, hops, -, -, hdisturbs⟩ := hstays hsettled later m' hm'
    · exact hend
    · have hmem : op ∈ later := hops ▸ List.mem_append_right before List.mem_cons_self
      cases hdisturbs <;> simp [later] at hmem

end Machine

end Monitor386
