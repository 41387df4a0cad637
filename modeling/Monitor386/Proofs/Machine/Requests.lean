import Mathlib
import Monitor386.Proofs.Machine.Splitting
import Monitor386.Proofs.Machine.Watching

/-!
# Stop requests

A stop request acts on one step. One that waits on the line before a run is forgotten; one that the
table raises in a step of the run makes this step the last.

* `exec_stopLine`: what waits on the line before a run makes no difference to it.
* `step_heeds`: a step with a request stops the run, and what it reports.
* `step_unasked`: a step without a request leaves the line idle and is not interrupted.
* `Quiet.calls`: the calls of steps that do not stop the run, none with a request.
* `exec_requests`: requests before a run, in it, and when the program is over.
-/

namespace Monitor386

namespace Machine

variable {τ σ : Type}

/-- What a run reports when a stop is requested in its last call. A fault and a changed watchpoint
come first, and then the request is left on the line. -/
inductive Heeds (watched : Pool) (c : Call τ) (m : Machine τ) : Outcome → Prop where
  | fault {fault : Fault} : c.result = .error fault → m.stopLine = .requested →
      Heeds watched c m (.fault fault)
  | watchpoint {completion : Completion} {hit : WatchChange} : c.result = .ok completion →
      Fires m.cpu.context watched.toList hit → m.stopLine = .requested →
      Heeds watched c m (.watchpoint hit)
  | interrupted {completion : Completion} : c.result = .ok completion →
      watched.Steady m.cpu.context → m.stopLine = .idle → Heeds watched c m .interrupted

variable [InstructionTable τ] {m m' : Machine τ} {s : Step τ} {ss : List (Step τ)} {c : Call τ}
  {cs : List (Call τ)}

/-- Steps one after the other, with the calls of the table that they made. -/
inductive Calls : Machine τ → List (Step τ) → List (Call τ) → Prop where
  | nil (m : Machine τ) : Calls m [] []
  | cons {m : Machine τ} {s : Step τ} {c : Call τ} {ss : List (Step τ)} {cs : List (Call τ)} :
      m.call = .ok c → m.step = .ok s → Calls s.machine ss cs → Calls m (s :: ss) (c :: cs)

/-! ## Before the run -/

/-- A run does not depend on whether a request waits on the line. -/
theorem exec_stopLine (line line' : StopLine) (h : line.drain = line'.drain)
    (hm : m.state ≠ .ended) (observe : σ → Step τ → σ) (patience : Nat) (budget : Budget)
    (seen : σ) :
    ({ m with stopLine := line } : Machine τ).exec observe patience budget seen =
      ({ m with stopLine := line' } : Machine τ).exec observe patience budget seen := by
  have hbegin : ({ m with stopLine := line } : Machine τ).beginRun =
      ({ m with stopLine := line' } : Machine τ).beginRun := by
    simp only [beginRun, h]
  rw [exec_eq_advance (m := { m with stopLine := line }) hm,
    exec_eq_advance (m := { m with stopLine := line' }) hm, hbegin]

/-! ## One step -/

/-- A step with a request stops the run. -/
theorem step_heeds (hm : m.state = .running) (hline : m.stopLine = .idle) (hc : m.call = .ok c)
    (hs : m.step = .ok s) (hreq : c.stopRequested = true) :
    ∃ o, s.outcome = some o ∧ Heeds m.pool c s.machine o := by
  obtain ⟨c', hc', -, hdec, hnext⟩ := step_inv hm hs
  cases hc.symm.trans hc'
  have hafter : c.lineAfter m.stopLine = .requested := by
    rw [Call.lineAfter, hreq, hline]
    rfl
  have hcpu : s.machine.cpu = c.cpuAfter m.cpu.registers.eip := by rw [hnext]; rfl
  cases hres : c.result with
  | error fault =>
    have ho := hdec.unique (decides_fault hres)
    exact ⟨_, ho, .fault hres (by rw [hnext, ho]; exact hafter)⟩
  | ok completion =>
    obtain hall | ⟨hit, hfires⟩ := steady_or_fires s.machine.cpu.context m.pool.toList
    · have ho := hdec.unique (decides_interrupted hres (hcpu ▸ hall) hafter)
      exact ⟨_, ho, .interrupted hres hall (by rw [hnext, ho]; rfl)⟩
    · have ho := hdec.unique (decides_watchpoint hres (hcpu ▸ hfires))
      exact ⟨_, ho, .watchpoint hres hfires (by rw [hnext, ho]; exact hafter)⟩

/-- A step without a request leaves the line as it is, and the run is not interrupted there. -/
theorem step_unasked (hm : m.state = .running) (hline : m.stopLine = .idle) (hc : m.call = .ok c)
    (hs : m.step = .ok s) (hreq : c.stopRequested = false) :
    s.machine.stopLine = .idle ∧ s.outcome ≠ some .interrupted := by
  obtain ⟨c', hc', -, hdec, hnext⟩ := step_inv hm hs
  cases hc.symm.trans hc'
  have hafter : c.lineAfter m.stopLine = .idle := by
    rw [Call.lineAfter, hreq, hline]
    rfl
  constructor
  · rw [hnext]
    simp only [after, hafter, ite_self]
  · intro ho
    rw [ho] at hdec
    obtain _ | ⟨hcause, -⟩ := hdec
    cases hcause with
    | interrupted _ hline' =>
      rw [hafter] at hline'
      cases hline'

/-! ## The steps of a run -/

/-- Steps that do not stop the run are steps without a request. -/
theorem Quiet.calls (h : Quiet m ss m') (hm : m.state = .running) (hline : m.stopLine = .idle) :
    m'.stopLine = .idle ∧ ∃ cs, Calls m ss cs ∧ ∀ c ∈ cs, c.stopRequested = false := by
  induction h with
  | nil m => exact ⟨hline, [], .nil m, fun c hc => absurd hc List.not_mem_nil⟩
  | @cons m m' s ss hs ho _ ih =>
    obtain ⟨c, hc, -, hdec, hnext⟩ := step_inv hm hs
    have hreq : c.stopRequested = false := by
      refine Bool.eq_false_iff.mpr fun hreq => ?_
      obtain ⟨o, ho', -⟩ := step_heeds hm hline hc hs hreq
      cases ho.symm.trans ho'
    rw [ho] at hdec hnext
    have hrun : s.machine.state = .running := by rw [hnext]; exact after_state hdec
    obtain ⟨hline', cs, hcs, hnone⟩ := ih hrun (step_unasked hm hline hc hs hreq).1
    exact ⟨hline', c :: cs, .cons hc hs hcs, List.forall_mem_cons.mpr ⟨hreq, hnone⟩⟩

theorem Calls.concat (hq : Quiet m ss m') (h : Calls m ss cs) (hc : m'.call = .ok c)
    (hs : m'.step = .ok s) : Calls m (ss ++ [s]) (cs ++ [c]) := by
  induction hq generalizing cs with
  | nil m =>
    cases h
    exact .cons hc hs (.nil _)
  | cons _ _ _ ih =>
    cases h with
    | cons hc' hs' hrest =>
      exact .cons hc' hs' (ih hrest hc hs)

/-- Stop requests in runs. Once the program is over a request stays where it is. One from before the
run does not change it. One that is raised in the run makes that step the last, and a run is
interrupted only so. -/
theorem exec_requests (observe : σ → Step τ → σ) (patience : Nat) (m : Machine τ) (budget : Budget)
    (seen : σ) :
    (m.state = .ended →
      m.exec observe patience budget seen = (seen, .ok (.cannotContinue, m))) ∧
    (m.state ≠ .ended → m.stopLine ≠ .absent →
      ({ m with stopLine := .requested } : Machine τ).exec observe patience budget seen =
        ({ m with stopLine := .idle } : Machine τ).exec observe patience budget seen ∧
      ∀ outcome m', (m.exec observe patience budget seen).2 = .ok (outcome, m') →
        ∃ cs, Calls m.beginRun (m.trace patience budget) cs ∧
          (∀ k c, cs[k]? = some c → c.stopRequested = true →
            k + 1 = cs.length ∧ Heeds m.pool c m' outcome) ∧
          (outcome = .interrupted → ∃ c, cs.getLast? = some c ∧ c.stopRequested = true)) := by
  refine ⟨fun hm => exec_of_ended hm observe patience budget seen, fun hm hline =>
    ⟨exec_stopLine .requested .idle rfl hm observe patience budget seen, fun outcome m' h => ?_⟩⟩
  have hidle : m.beginRun.stopLine = .idle := by
    simp only [beginRun]
    cases hl : m.stopLine with
    | absent => exact absurd hl hline
    | _ => rfl
  obtain ⟨m₁, -, hq, rfl, rfl⟩ | ⟨ss, m₁, s, htrace, hq, hs, ho, rfl⟩ := exec_inv hm h
  · obtain ⟨-, cs, hcs, hnone⟩ := hq.calls rfl hidle
    refine ⟨cs, hcs, fun k c hk hreq => ?_, fun h => by cases h⟩
    rw [hnone c (List.mem_of_getElem? hk)] at hreq
    cases hreq
  · have hrun : m₁.state = .running := (hq.continues rfl).2
    have hpool : m₁.pool = m.pool := (hq.steady rfl).1
    obtain ⟨hline₁, cs, hcs, hnone⟩ := hq.calls rfl hidle
    obtain ⟨c, hc, -⟩ := step_inv hrun hs
    rw [htrace]
    refine ⟨cs ++ [c], hcs.concat hq hc hs, fun k c' hk hreq => ?_, ?_⟩
    · -- a request in an earlier call would have stopped the run there
      obtain hk' | hk' := lt_or_ge k cs.length
      · rw [List.getElem?_append_left hk'] at hk
        rw [hnone c' (List.mem_of_getElem? hk)] at hreq
        cases hreq
      · obtain rfl : k = cs.length := by
          have := (List.getElem?_eq_some_iff.mp hk).1
          rw [List.length_append, List.length_singleton] at this
          omega
        rw [List.getElem?_concat_length] at hk
        cases hk
        obtain ⟨o, ho', hheeds⟩ := step_heeds hrun hline₁ hc hs hreq
        cases ho.symm.trans ho'
        exact ⟨by rw [List.length_append, List.length_singleton], hpool ▸ hheeds⟩
    · rintro rfl
      refine ⟨c, List.getLast?_concat, Bool.eq_true_of_not_eq_false fun hreq => ?_⟩
      exact (step_unasked hrun hline₁ hc hs hreq).2 ho

/-- A request waits before the run, and another comes in the step that ends the program: the second one
is reported. A request after that stays where it is, for there is no other run. -/
theorem exec_requests_last_step :
    let nop : ScriptEntry := { result := some (.executed ⟨1, none⟩) }
    let last : ScriptEntry := { signal := true, result := some (.executed ⟨2, some .finish⟩) }
    let m : Machine ScriptedTable := create 0 ⟨[nop, last]⟩ .requested
    let count : Nat → Step ScriptedTable → Nat := fun n _ => n + 1
    m.state ≠ .ended ∧ m.stopLine ≠ .absent ∧
    ∃ m', (m.exec count 9 (.steps 5) 0).2 = .ok (.interrupted, m') ∧
      (({ m with stopLine := .idle } : Machine ScriptedTable).exec count 9 (.steps 5) 0).2 =
        .ok (.interrupted, m') ∧
      (∃ cs c, Calls m.beginRun (m.trace 9 (.steps 5)) cs ∧ cs.getLast? = some c ∧
        c.stopRequested = true ∧ Heeds m.pool c m' .interrupted) ∧
      m'.state = .ended ∧
      m'.requestStop.2.exec count 9 (.steps 5) 2 = (2, .ok (.cannotContinue, m'.requestStop.2)) := by
  intro nop last m count
  have hm : m.state ≠ .ended := by decide
  have hline : m.stopLine ≠ .absent := by decide
  obtain ⟨hdrop, hrun⟩ := (exec_requests count 9 m (.steps 5) 0).2 hm hline
  obtain ⟨m', hm'⟩ := exists_ok_of_fst (x := (m.exec count 9 (.steps 5) 0).2) (a := .interrupted)
    (by decide +kernel)
  have hended : m'.state = .ended := by
    have hstate : (m.exec count 9 (.steps 5) 0).2.toOption.map (·.2.state) = some .ended := by
      decide +kernel
    rw [hm'] at hstate
    exact Option.some.inj hstate
  obtain ⟨cs, hcs, hstop, hlast⟩ := hrun .interrupted m' hm'
  obtain ⟨c, hc, hreq⟩ := hlast rfl
  have hheeds := (hstop _ c (List.getLast?_eq_getElem?.symm.trans hc) hreq).2
  have hidle := (congrArg Prod.snd hdrop).symm.trans hm'
  exact ⟨hm, hline, m', hm', hidle, ⟨cs, c, hcs, hc, hreq, hheeds⟩, hended,
    (exec_requests count 9 m'.requestStop.2 (.steps 5) 2).1 hended⟩

end Machine

end Monitor386
