import Mathlib
import Monitor386.Proofs.Machine.Steps
import Monitor386.Proofs.Watch.Scan
import Monitor386.Table.Scripted

/-!
# What a run means

A semantics of runs that does not mention how they are executed. A step is one call of the table. It
gives the run a `Cause` to stop, or several, or none. `Decides m c o` says that `o` is the foremost
cause after the call `c`, or that there is none, and `after` is the machine that the step leaves. A
run (`Runs`) takes steps without a cause up to the first with one, or until its budget is used up.

* `step_eq`: a step of a running machine is one step of the semantics.
* `Quiet.continues`, `Continues.quiet`: steps that do not stop the run are steps without a cause.
* `Finishes.runs`, `Runs.finishes`: a run that finishes is a run of the semantics.
* `exec_refines_runs`: a run returns what the semantics says, after as many steps.
-/

namespace Monitor386

/-! ## Calls -/

namespace Call

variable {τ : Type}

/-- The processor after a call for the instruction at `start`: back at the instruction after a
fault, else moved on by the length that the table returned. -/
def cpuAfter (c : Call τ) (start : UInt32) : Cpu :=
  match c.result with
  | .error _ => c.cpu.goto start
  | .ok completion => c.cpu.goto (c.cpu.registers.eip + completion.length)

/-- The stop line after a call. -/
def lineAfter (c : Call τ) (line : StopLine) : StopLine :=
  if c.stopRequested then line.raise else line

/-- The trap of the instruction; one that faulted has none. -/
def trap? (c : Call τ) : Option Trap :=
  match c.result with
  | .error _ => none
  | .ok completion => completion.trap

end Call

/-! ## Causes -/

/-- What makes a run stop after a call of the table. -/
inductive Cause {τ : Type} (m : Machine τ) (c : Call τ) : Outcome → Prop where
  | fault {fault : Fault} : c.result = .error fault → Cause m c (.fault fault)
  | watchpoint {completion : Completion} {hit : WatchChange} : c.result = .ok completion →
      Fires (c.cpuAfter m.cpu.registers.eip).context m.pool.toList hit →
      Cause m c (.watchpoint hit)
  | interrupted {completion : Completion} : c.result = .ok completion →
      c.lineAfter m.stopLine = .requested → Cause m c .interrupted
  | breakpoint : c.trap? = some .breakpoint → Cause m c .breakpoint
  | ended : c.trap? = some .finish → Cause m c .ended

/-- Of several causes the one with the least rank is reported. -/
def Outcome.rank : Outcome → Nat
  | fault _ => 0
  | watchpoint _ => 1
  | interrupted => 2
  | breakpoint | ended => 3
  | exhausted | cannotContinue => 4

/-- The foremost cause to stop after a call, or that there is none. -/
inductive Decides {τ : Type} (m : Machine τ) (c : Call τ) : Option Outcome → Prop where
  | go : (∀ o, ¬ Cause m c o) → Decides m c none
  | stop {o : Outcome} : Cause m c o → (∀ o', Cause m c o' → o.rank ≤ o'.rank) →
      Decides m c (some o)

section

variable {τ : Type} {m : Machine τ} {c : Call τ} {completion : Completion}

/-- Two causes of one rank are the same. -/
theorem Cause.eq_of_rank_eq {o o' : Outcome} (h : Cause m c o) (h' : Cause m c o')
    (hr : o.rank = o'.rank) : o = o' := by
  -- a rank belongs to one kind of cause, but for the two traps, of which a completion has one
  cases h with
  | fault hf =>
    cases h' with
    | fault hf' =>
      rw [hf] at hf'
      cases hf'
      rfl
    | _ => cases hr
  | watchpoint _ hw =>
    cases h' with
    | watchpoint _ hw' => rw [hw.unique hw']
    | _ => cases hr
  | interrupted =>
    cases h' with
    | interrupted => rfl
    | _ => cases hr
  | breakpoint ht =>
    cases h' with
    | breakpoint => rfl
    | ended ht' => rw [ht] at ht'; cases ht'
    | _ => cases hr
  | ended ht =>
    cases h' with
    | ended => rfl
    | breakpoint ht' => rw [ht] at ht'; cases ht'
    | _ => cases hr

theorem Decides.unique {o o' : Option Outcome} (h : Decides m c o) (h' : Decides m c o') :
    o = o' := by
  cases h with
  | go hno =>
    cases h' with
    | go => rfl
    | stop ho' => exact absurd ho' (hno _)
  | stop ho hmin =>
    cases h' with
    | go hno => exact absurd ho (hno _)
    | stop ho' hmin' => rw [ho.eq_of_rank_eq ho' (le_antisymm (hmin _ ho') (hmin' _ ho))]

/-- A fault comes before everything else. -/
theorem decides_fault {fault : Fault} (h : c.result = .error fault) :
    Decides m c (some (.fault fault)) :=
  .stop (.fault h) fun _ _ => Nat.zero_le _

theorem decides_watchpoint {hit : WatchChange} (h : c.result = .ok completion)
    (hfires : Fires (c.cpuAfter m.cpu.registers.eip).context m.pool.toList hit) :
    Decides m c (some (.watchpoint hit)) := by
  refine .stop (.watchpoint h hfires) fun o ho => ?_
  cases ho with
  | fault hfault => rw [h] at hfault; cases hfault
  | _ => simp only [Outcome.rank]; omega

/-- If no watchpoint is reported, none has changed. -/
theorem Decides.steady {o : Option Outcome} (ho : Decides m c o) (h : c.result = .ok completion)
    (hno : ∀ hit, o ≠ some (.watchpoint hit)) :
    ∀ w ∈ m.pool.toList, w.Steady (c.cpuAfter m.cpu.registers.eip).context := by
  obtain hall | ⟨hit, hfires⟩ := steady_or_fires (c.cpuAfter m.cpu.registers.eip).context
    m.pool.toList
  · exact hall
  · exact absurd (ho.unique (decides_watchpoint h hfires)) (hno hit)

theorem decides_interrupted (h : c.result = .ok completion)
    (hall : ∀ w ∈ m.pool.toList, w.Steady (c.cpuAfter m.cpu.registers.eip).context)
    (hline : c.lineAfter m.stopLine = .requested) : Decides m c (some .interrupted) := by
  refine .stop (.interrupted h hline) fun o ho => ?_
  cases ho with
  | fault hfault => rw [h] at hfault; cases hfault
  | watchpoint _ hfires => exact absurd hall hfires.not_steady
  | _ => simp only [Outcome.rank]; omega

/-- With no fault, no changed watchpoint and no stop request it is for the trap to decide. -/
theorem decides_trap (h : c.result = .ok completion)
    (hall : ∀ w ∈ m.pool.toList, w.Steady (c.cpuAfter m.cpu.registers.eip).context)
    (hline : c.lineAfter m.stopLine ≠ .requested) :
    Decides m c (RunState.running.afterTrap completion.trap).outcome? := by
  have htrap : c.trap? = completion.trap := by simp only [Call.trap?, h]
  cases hc : completion.trap with
  | none =>
    refine .go fun o ho => ?_
    cases ho with
    | fault hfault => rw [h] at hfault; cases hfault
    | watchpoint _ hfires => exact absurd hall hfires.not_steady
    | interrupted _ hreq => exact hline hreq
    | breakpoint ht => rw [htrap, hc] at ht; cases ht
    | ended ht => rw [htrap, hc] at ht; cases ht
  | some trap =>
    have hfirst : ∀ o, Cause m c o → 3 ≤ o.rank := by
      intro o ho
      cases ho with
      | fault hfault => rw [h] at hfault; cases hfault
      | watchpoint _ hfires => exact absurd hall hfires.not_steady
      | interrupted _ hreq => exact absurd hreq hline
      | _ => exact Nat.le_refl _
    cases trap with
    | breakpoint => exact .stop (.breakpoint (htrap.trans hc)) hfirst
    | finish => exact .stop (.ended (htrap.trans hc)) hfirst

end

/-- A run may take so many steps. -/
def Budget.Allows : Budget → Nat → Prop
  | steps n, k => k ≤ n
  | unlimited, _ => True

namespace Machine

variable {τ σ : Type}

/-! ## Steps and runs -/

/-- The machine that a step leaves after a call of the table, given why the run stops there. The
program is over if the instruction said so, whatever is reported. -/
def after (m : Machine τ) (c : Call τ) (o : Option Outcome) : Machine τ where
  cpu := c.cpuAfter m.cpu.registers.eip
  table := c.table
  pool :=
    match o with
    | some (.watchpoint hit) => m.pool.store hit
    | _ => m.pool
  state :=
    if c.trap? = some .finish then .ended
    else if o = none then .running
    else .stopped
  stopLine := if o = some .interrupted then .idle else c.lineAfter m.stopLine

variable {m m' : Machine τ} {c : Call τ}

theorem suspend_afterTrap (trap : Option Trap) :
    (RunState.running.afterTrap trap).suspend =
      if trap = some .finish then .ended else .stopped := by
  obtain _ | _ | _ := trap <;> rfl

/-- The machine that a step leaves when it is for the trap to decide. -/
theorem after_outcome {trap : Option Trap} (h : c.trap? = trap) :
    m.after c (RunState.running.afterTrap trap).outcome? =
      ⟨c.cpuAfter m.cpu.registers.eip, c.table, m.pool, RunState.running.afterTrap trap,
        c.lineAfter m.stopLine⟩ := by
  obtain _ | _ | _ := trap <;>
    simp only [after, h, RunState.afterTrap, RunState.outcome?, reduceCtorEq, ↓reduceIte,
      Option.some.injEq]

/-- Without a cause to stop the machine goes on running. -/
theorem after_state (h : Decides m c none) : (m.after c none).state = .running := by
  obtain ⟨hno⟩ := h
  have hend : c.trap? ≠ some .finish := fun ht => hno _ (.ended ht)
  simp only [after, hend, ↓reduceIte]

variable [InstructionTable τ]

/-- The call of the table for the next instruction. -/
def call (m : Machine τ) : Except Abort (Call τ) :=
  InstructionTable.exec m.table m.cpu m.cpu.registers.eip

/-- A number of steps without a cause to stop. -/
inductive Continues : Machine τ → Nat → Machine τ → Prop where
  | zero (m : Machine τ) : Continues m 0 m
  | succ {m m' : Machine τ} {c : Call τ} {k : Nat} :
      m.call = .ok c → Decides m c none → Continues (m.after c none) k m' →
      Continues m (k + 1) m'

/-- A run from a machine: the number of its steps, its outcome and the machine that it leaves. -/
inductive Runs (m : Machine τ) : Budget → Nat → Outcome → Machine τ → Prop where
  | exhausted {n : Nat} {m' : Machine τ} : Continues m n m' →
      Runs m (.steps n) n .exhausted { m' with state := .stopped }
  | stop {budget : Budget} {k : Nat} {m' : Machine τ} {c : Call τ} {o : Outcome} :
      budget.Allows (k + 1) → Continues m k m' → m'.call = .ok c → Decides m' c (some o) →
      Runs m budget (k + 1) o (m'.after c (some o))

/-! ## A step is a step of the semantics -/

theorem step_of_error {a : Abort} (h : m.call = .error a) : m.step = .error a := by
  simp only [call] at h
  simp only [step, h, bind, Except.bind]

/-- A step of a running machine is one step of the semantics. -/
theorem step_eq (hm : m.state = .running) (hc : m.call = .ok c) :
    ∃ s, m.step = .ok s ∧ s.result = c.result ∧ Decides m c s.outcome ∧
      s.machine = m.after c s.outcome := by
  simp only [call] at hc
  cases hres : c.result with
  | error fault =>
    refine ⟨_, by simp only [step, hc, bind, Except.bind, hres]; rfl, rfl, decides_fault hres, ?_⟩
    simp only [after, faultStep, Call.cpuAfter, Call.trap?, Call.lineAfter, hres, reduceCtorEq,
      ↓reduceIte, Option.some.injEq]
  | ok completion =>
    have hcpu : c.cpuAfter m.cpu.registers.eip =
        c.cpu.goto (c.cpu.registers.eip + completion.length) := by
      simp only [Call.cpuAfter, hres]
    have htrap : c.trap? = completion.trap := by simp only [Call.trap?, hres]
    refine ⟨_, by simp only [step, hc, bind, Except.bind, hres]; rfl, rfl, ?_⟩
    simp only [completeStep, ← hcpu, hm]
    rw [← Call.lineAfter]
    -- The cases are those of `settle`: a changed watchpoint, a stop request, the trap.
    obtain ⟨hall, hscan⟩ | ⟨hit, hfires, hscan⟩ :=
      m.pool.scan_eq (c.cpuAfter m.cpu.registers.eip).context
    · by_cases hline : c.lineAfter m.stopLine = .requested
      · simp only [hscan, settle, hline, ↓reduceIte]
        refine ⟨decides_interrupted hres hall hline, ?_⟩
        simp only [after, htrap, suspend_afterTrap, reduceCtorEq, ↓reduceIte]
      · simp only [hscan, settle, hline, ↓reduceIte]
        exact ⟨decides_trap hres hall hline, (after_outcome htrap).symm⟩
    · simp only [hscan, settle]
      refine ⟨decides_watchpoint hres hfires, ?_⟩
      simp only [after, htrap, suspend_afterTrap, reduceCtorEq, ↓reduceIte, Option.some.injEq]

theorem step_inv {s : Step τ} (hm : m.state = .running) (hs : m.step = .ok s) :
    ∃ c, m.call = .ok c ∧ s.result = c.result ∧ Decides m c s.outcome ∧
      s.machine = m.after c s.outcome := by
  cases hc : m.call with
  | error a =>
    rw [step_of_error hc] at hs
    cases hs
  | ok c =>
    obtain ⟨s', hs', h⟩ := step_eq hm hc
    rw [hs] at hs'
    cases hs'
    exact ⟨c, rfl, h⟩

/-! ## A run is a run of the semantics -/

theorem Quiet.continues {ss : List (Step τ)} (h : Quiet m ss m') (hm : m.state = .running) :
    Continues m ss.length m' ∧ m'.state = .running := by
  induction h with
  | nil m => exact ⟨.zero m, hm⟩
  | cons hs ho _ ih =>
    obtain ⟨c, hc, -, hdec, hnext⟩ := step_inv hm hs
    rw [ho] at hdec hnext
    rw [hnext] at ih
    obtain ⟨hcont, hrun⟩ := ih (after_state hdec)
    exact ⟨.succ hc hdec hcont, hrun⟩

theorem Continues.quiet {k : Nat} (h : Continues m k m') (hm : m.state = .running) :
    ∃ ss, ss.length = k ∧ Quiet m ss m' := by
  induction h with
  | zero m => exact ⟨[], rfl, .nil m⟩
  | succ hc hdec _ ih =>
    obtain ⟨s, hs, -, hdec', hnext⟩ := step_eq hm hc
    have ho : s.outcome = none := hdec'.unique hdec
    rw [ho] at hnext
    obtain ⟨ss, hlen, hq⟩ := ih (after_state hdec)
    exact ⟨s :: ss, by rw [List.length_cons, hlen], .cons hs ho (hnext ▸ hq)⟩

theorem Finishes.runs {patience : Nat} {budget : Budget} {ss : List (Step τ)}
    {o : Option Outcome} {outcome : Outcome} {m₁ : Machine τ} (hm : m.state = .running)
    (h : Finishes m (budget.limit patience) ss o m₁)
    (ha : answer budget m₁ o = .ok (outcome, m')) : Runs m budget ss.length outcome m' := by
  cases h with
  | full hlen hq =>
    obtain ⟨h, -⟩ | ⟨-, ⟨n, rfl⟩, rfl, rfl⟩ := answer_eq_ok ha
    · cases h
    · obtain rfl : ss.length = n := hlen
      exact .exhausted (hq.continues hm).1
  | @stop ss m₁ s outcome' hlen hq hs ho =>
    obtain ⟨hcont, hrun⟩ := hq.continues hm
    obtain ⟨c, hc, -, hdec, hnext⟩ := step_inv hrun hs
    have hallow : budget.Allows (ss.length + 1) := by
      cases budget with
      | steps n => exact hlen
      | unlimited => trivial
    cases ha
    rw [ho] at hdec hnext
    rw [List.length_append, List.length_singleton, hnext]
    exact .stop hallow hcont hc hdec

theorem Runs.finishes {patience : Nat} {budget : Budget} {k : Nat} {outcome : Outcome}
    (h : Runs m budget k outcome m') (hm : m.state = .running) (hk : k ≤ budget.limit patience) :
    ∃ ss o m₁, ss.length = k ∧ Finishes m (budget.limit patience) ss o m₁ ∧
      answer budget m₁ o = .ok (outcome, m') := by
  cases h with
  | exhausted hcont =>
    obtain ⟨ss, hlen, hq⟩ := hcont.quiet hm
    exact ⟨ss, none, _, hlen, .full hlen hq, rfl⟩
  | stop _ hcont hc hdec =>
    obtain ⟨ss, hlen, hq⟩ := hcont.quiet hm
    obtain ⟨s, hs, -, hdec', hnext⟩ := step_eq (hq.continues hm).2 hc
    have ho : s.outcome = some outcome := hdec'.unique hdec
    refine ⟨ss ++ [s], some outcome, s.machine, by simp [hlen],
      .stop (by omega) hq hs ho, ?_⟩
    rw [hnext, ho]
    rfl

/-- A run returns after so many steps, each shown to the observer. -/
def Returns (m : Machine τ) (patience : Nat) (budget : Budget) (k : Nat) (outcome : Outcome)
    (m' : Machine τ) : Prop :=
  (m.trace patience budget).length = k ∧
    ∀ (σ : Type) (observe : σ → Step τ → σ) (seen : σ),
      m.exec observe patience budget seen =
        ((m.trace patience budget).foldl observe seen, .ok (outcome, m'))

theorem returns_iff_runs {patience : Nat} {budget : Budget} {k : Nat} {outcome : Outcome}
    (hm : m.state ≠ .ended) :
    m.Returns patience budget k outcome m' ↔
      k ≤ budget.limit patience ∧ Runs m.beginRun budget k outcome m' := by
  constructor
  · rintro ⟨rfl, h⟩
    have hret := congrArg Prod.snd (h Unit (fun _ _ => ()) ())
    obtain ⟨o, m₁, hf, ha⟩ := exec_finishes hm hret
    exact ⟨hf.length_le, hf.runs rfl ha⟩
  · rintro ⟨hk, h⟩
    obtain ⟨ss, o, m₁, hlen, hf, ha⟩ := h.finishes rfl hk
    refine ⟨by rw [hf.trace_eq hm, hlen], fun σ observe seen => ?_⟩
    rw [hf.exec_eq hm, hf.trace_eq hm, ha]

/-- A run refines the semantics: it returns what the semantics says, after as many steps, and it does
return if the number of its steps is limited and no call of the table aborts. -/
theorem exec_refines_runs (m : Machine τ) (patience : Nat) (budget : Budget)
    (hm : m.state ≠ .ended)
    (hcalls : ∀ k m', budget.Allows (k + 1) → Continues m.beginRun k m' → ∃ c, m'.call = .ok c) :
    (∀ k outcome m', m.Returns patience budget k outcome m' ↔
      k ≤ budget.limit patience ∧ Runs m.beginRun budget k outcome m') ∧
    ∀ n, budget = .steps n → ∃ k outcome m', m.Returns patience budget k outcome m' := by
  refine ⟨fun k outcome m' => returns_iff_runs hm, ?_⟩
  rintro n rfl
  obtain ⟨ss, o, m₁, hf, -⟩ | ⟨ss, m₁, a, hlen, hq, ha, -⟩ := m.beginRun.advance_cases n
  · have hans : ∃ r, answer (.steps n) m₁ o = .ok r := by
      cases o <;> exact ⟨_, rfl⟩
    obtain ⟨⟨outcome, m'⟩, hans⟩ := hans
    have hf : Finishes m.beginRun (Budget.limit patience (.steps n)) ss o m₁ := hf
    exact ⟨_, _, _, (returns_iff_runs hm).mpr ⟨hf.length_le, hf.runs rfl hans⟩⟩
  · obtain ⟨hcont, hrun⟩ := hq.continues rfl
    obtain ⟨c, hc⟩ := hcalls _ _ hlen hcont
    obtain ⟨s, hs, -⟩ := step_eq hrun hc
    rw [ha] at hs
    cases hs

/-- A stop is asked for while the last instruction of a program is executed: the request is what is
reported, and the program is over. -/
theorem exec_refines_runs_requested_end :
    let nop : ScriptEntry := { result := some (.executed ⟨1, none⟩) }
    let last : ScriptEntry := { signal := true, result := some (.executed ⟨2, some .finish⟩) }
    let m : Machine ScriptedTable := create 0 ⟨[nop, last]⟩ .idle
    m.state ≠ .ended ∧
    (∀ k m', (Budget.steps 5).Allows (k + 1) → Continues m.beginRun k m' → ∃ c, m'.call = .ok c) ∧
    ∃ m', m.Returns 0 (.steps 5) 2 .interrupted m' ∧ m'.state = .ended ∧
      m'.cpu.registers.eip = m.cpu.registers.eip + 1 + 2 := by
  intro nop last m
  have hm : m.state ≠ .ended := by decide
  have hnone : ∀ ctx, ∀ w ∈ Pool.empty.toList, w.Steady ctx :=
    fun _ _ hw => absurd hw List.not_mem_nil
  -- The first call gives no cause to stop, the second one two.
  let c₁ : Call ScriptedTable := ⟨⟨[last]⟩, m.cpu, false, [], .ok ⟨1, none⟩⟩
  have hc₁ : m.beginRun.call = .ok c₁ := rfl
  have hline : c₁.lineAfter m.beginRun.stopLine ≠ .requested := by decide
  have hres : c₁.result = .ok ⟨1, none⟩ := rfl
  have hgo : Decides m.beginRun c₁ none := decides_trap hres (hnone _) hline
  let m₁ := m.beginRun.after c₁ none
  let c₂ : Call ScriptedTable := ⟨⟨[]⟩, m₁.cpu, true, [], .ok ⟨2, some .finish⟩⟩
  have hc₂ : m₁.call = .ok c₂ := rfl
  have hstop : Decides m₁ c₂ (some .interrupted) := decides_interrupted rfl (hnone _) rfl
  have hcalls : ∀ k m', (Budget.steps 5).Allows (k + 1) → Continues m.beginRun k m' →
      ∃ c, m'.call = .ok c := by
    rintro k m' - (_ | ⟨hc, -, _ | ⟨hc', hgo', -⟩⟩)
    · exact ⟨c₁, hc₁⟩
    · cases hc₁.symm.trans hc
      exact ⟨c₂, hc₂⟩
    · cases hc₁.symm.trans hc
      cases hc₂.symm.trans hc'
      cases hstop.unique hgo'
  have hallow : (Budget.steps 5).Allows 2 := show 2 ≤ 5 by decide
  have hruns := Runs.stop hallow (.succ hc₁ hgo (.zero _)) hc₂ hstop
  have hreturns := ((exec_refines_runs m 0 (.steps 5) hm hcalls).1 2 .interrupted _).mpr
    ⟨by decide, hruns⟩
  exact ⟨hm, hcalls, _, hreturns, rfl, rfl⟩

end Machine

end Monitor386
