import Mathlib
import Monitor386.Proofs.Machine.Semantics
import Monitor386.Proofs.Failure

/-!
# Runs in parts

A run that used up its budget goes on as if there had been no pause, and a run that stopped before
would have stopped there with any larger budget.

* `Quiet.beginRun_eq`: between two steps there is nothing that a new run would reset.
* `Finishes.widen`: a run that stopped does so with any larger budget.
* `exec_add_of_exhausted`, `exec_add_of_stopped`: a run with the sum of two budgets, by what the first
  of them does.
* `exec_steps_of_le`, `exec_steps_of_lt`: a run without a limit beside one with a budget.
* `exec_split`: two runs in a row are one, and a run without a limit is a run with any budget that is
  large enough.
-/

namespace Monitor386

theorem Budget.ofNat_eq_steps {n : Nat} (h : n < UInt64.size - 1) : Budget.ofNat n = .steps n :=
  if_neg h.ne

namespace Machine

variable {τ σ : Type} {m m₁ m' : Machine τ} {ss : List (Step τ)} {s : Step τ}

/-! ## What a pause resets -/

theorem beginRun_of_state (h : m.state = .running) (hline : m.stopLine ≠ .requested) :
    m.beginRun = m := by
  obtain ⟨cpu, table, pool, state, stopLine⟩ := m
  obtain rfl : state = .running := h
  cases stopLine with
  | requested => exact absurd rfl hline
  | _ => rfl

@[simp] theorem beginRun_beginRun (m : Machine τ) : m.beginRun.beginRun = m.beginRun := by
  refine beginRun_of_state rfl ?_
  simp only [beginRun]
  cases m.stopLine <;> decide

variable [InstructionTable τ]

/-- A step that does not stop the run leaves no stop request. -/
theorem beginRun_step (hm : m.state = .running) (hs : m.step = .ok s) (ho : s.outcome = none) :
    s.machine.beginRun = s.machine := by
  obtain ⟨c, -, -, hdec, hnext⟩ := step_inv hm hs
  rw [ho] at hdec hnext
  obtain ⟨hno⟩ := id hdec
  rw [hnext]
  refine beginRun_of_state (after_state hdec) ?_
  simp only [after, reduceCtorEq, ↓reduceIte]
  intro hline
  cases hres : c.result with
  | error fault => exact hno _ (.fault hres)
  | ok completion => exact hno _ (.interrupted hres hline)

theorem step_running (hm : m.state = .running) (hs : m.step = .ok s) (ho : s.outcome = none) :
    s.machine.state = .running :=
  beginRun_step hm hs ho ▸ rfl

theorem Quiet.beginRun_eq (h : Quiet m ss m') (hm : m.beginRun = m) : m'.beginRun = m' := by
  induction h with
  | nil => exact hm
  | @cons m m' s ss hs ho _ ih =>
    have hrun : m.state = .running := hm ▸ rfl
    exact ih (beginRun_step hrun hs ho)

/-! ## Larger and smaller budgets -/

theorem Quiet.exists_take (h : Quiet m ss m') (n : Nat) : ∃ m₁, Quiet m (ss.take n) m₁ := by
  induction h generalizing n with
  | nil m => exact ⟨m, by rw [List.take_nil]; exact .nil m⟩
  | @cons m m' s ss hs ho _ ih =>
    cases n with
    | zero => exact ⟨m, .nil m⟩
    | succ n =>
      obtain ⟨m₁, hq⟩ := ih n
      exact ⟨m₁, .cons hs ho hq⟩

/-- No step stops a run because of its budget. -/
theorem step_outcome_ne (hm : m.state = .running) (hs : m.step = .ok s) :
    s.outcome ≠ some .exhausted := by
  intro ho
  obtain ⟨c, -, -, hdec, -⟩ := step_inv hm hs
  rw [ho] at hdec
  obtain _ | ⟨hcause, -⟩ := hdec
  cases hcause

theorem Finishes.widen {n n' : Nat} {outcome : Outcome} (h : Finishes m n ss (some outcome) m')
    (hlen : ss.length ≤ n') : Finishes m n' ss (some outcome) m' := by
  cases h with
  | stop _ hq hs ho =>
    rw [List.length_append, List.length_singleton] at hlen
    exact .stop hlen hq hs ho

/-- A run that stopped was in no smaller budget able to do so. -/
theorem Finishes.narrow {n n' : Nat} {outcome : Outcome} (h : Finishes m n ss (some outcome) m')
    (hlen : n' < ss.length) : ∃ m₁, Finishes m n' (ss.take n') none m₁ := by
  cases h with
  | @stop ss _ _ _ _ hq _ _ =>
    rw [List.length_append, List.length_singleton] at hlen
    obtain ⟨m₁, hq'⟩ := hq.exists_take n'
    refine ⟨m₁, ?_⟩
    rw [List.take_append_of_le_length (by omega)]
    exact .full (by rw [List.length_take]; omega) hq'

theorem Finishes.exec_steps {n : Nat} {o : Option Outcome} (h : Finishes m.beginRun n ss o m')
    (hm : m.state ≠ .ended) (observe : σ → Step τ → σ) (patience : Nat) (seen : σ) :
    m.exec observe patience (.steps n) seen = (ss.foldl observe seen, answer (.steps n) m' o) :=
  have h' : Finishes m.beginRun ((Budget.steps n).limit patience) ss o m' := h
  h'.exec_eq hm observe seen

/-- A run that returns was stopped by a step, or used up its budget. -/
theorem exec_cases {observe : σ → Step τ → σ} {patience : Nat} {budget : Budget} {seen : σ}
    {outcome : Outcome} (hm : m.state ≠ .ended)
    (h : (m.exec observe patience budget seen).2 = .ok (outcome, m')) :
    outcome ≠ .exhausted ∧
      Finishes m.beginRun (budget.limit patience) (m.trace patience budget) (some outcome) m' ∨
    outcome = .exhausted ∧ ∃ n ss m₁, budget = .steps n ∧ Finishes m.beginRun n ss none m₁ ∧
      m' = { m₁ with state := .stopped } := by
  obtain ⟨o, m₁, hf, ha⟩ := exec_finishes hm h
  obtain ⟨rfl, rfl⟩ | ⟨rfl, ⟨n, rfl⟩, rfl, rfl⟩ := answer_eq_ok ha
  · refine .inl ⟨?_, hf⟩
    generalize m.trace patience budget = ss at hf
    cases hf with
    | stop _ hq hs ho =>
      rintro rfl
      exact step_outcome_ne (hq.continues rfl).2 hs ho
  · exact .inr ⟨rfl, n, _, m₁, rfl, hf, rfl⟩

/-- A run goes on where one that used up its budget paused. -/
theorem Finishes.exec_add {a : Nat} (h : Finishes m.beginRun a ss none m₁) (hm : m.state ≠ .ended)
    (observe : σ → Step τ → σ) (patience b : Nat) (seen : σ) :
    m.exec observe patience (.steps (a + b)) seen =
      ({ m₁ with state := .stopped } : Machine τ).exec observe patience (.steps b)
        (m.exec observe patience (.steps a) seen).1 := by
  have hstart : ({ m₁ with state := .stopped } : Machine τ).state ≠ .ended :=
    fun h => by cases h
  rw [exec_eq_advance hm, exec_eq_advance hstart, h.exec_steps hm]
  cases h with
  | full hlen hq =>
    subst hlen
    have hresume : ({ m₁ with state := .stopped } : Machine τ).beginRun = m₁ :=
      hq.beginRun_eq m.beginRun_beginRun
    rw [hresume]
    simp only [Budget.limit, hq.advance_add]
    rfl

section

variable {observe : σ → Step τ → σ} {patience a : Nat} {seen : σ}

theorem exec_add_of_exhausted
    (h : (m.exec observe patience (.steps a) seen).2 = .ok (.exhausted, m₁)) (b : Nat) :
    m.exec observe patience (.steps (a + b)) seen =
      m₁.exec observe patience (.steps b) (m.exec observe patience (.steps a) seen).1 := by
  by_cases hm : m.state = .ended
  · rw [exec_of_ended hm] at h
    cases h
  obtain ⟨hne, -⟩ | ⟨-, n, ss, m₁, hn, hf, rfl⟩ := exec_cases hm h
  · exact absurd rfl hne
  · cases hn
    exact hf.exec_add hm observe patience b seen

theorem exec_add_of_stopped {outcome : Outcome}
    (h : (m.exec observe patience (.steps a) seen).2 = .ok (outcome, m₁)) (ho : outcome ≠ .exhausted)
    (b : Nat) :
    m.exec observe patience (.steps (a + b)) seen = m.exec observe patience (.steps a) seen := by
  by_cases hm : m.state = .ended
  · rw [exec_of_ended hm, exec_of_ended hm]
  obtain ⟨-, hf⟩ | ⟨rfl, -⟩ := exec_cases hm h
  · have hlen : (m.trace patience (.steps a)).length ≤ a + b :=
      le_trans hf.length_le (Nat.le_add_right a b)
    rw [hf.exec_eq hm, (hf.widen hlen).exec_steps hm]
    rfl
  · exact absurd rfl ho

/-- A run without a limit is a run with any budget that allows its steps. -/
theorem exec_steps_of_le {outcome : Outcome} {n : Nat}
    (h : (m.exec observe patience .unlimited seen).2 = .ok (outcome, m'))
    (hn : (m.trace patience .unlimited).length ≤ n) :
    m.exec observe patience (.steps n) seen = m.exec observe patience .unlimited seen := by
  by_cases hm : m.state = .ended
  · rw [exec_of_ended hm, exec_of_ended hm]
  obtain ⟨-, hf⟩ | ⟨-, _, _, _, hb, -⟩ := exec_cases hm h
  · rw [hf.exec_eq hm, (hf.widen hn).exec_steps hm]
    rfl
  · cases hb

theorem exec_steps_of_lt {outcome : Outcome} {n : Nat}
    (h : (m.exec observe patience .unlimited seen).2 = .ok (outcome, m'))
    (hn : n < (m.trace patience .unlimited).length) :
    ∃ m₁, (m.exec observe patience (.steps n) seen).2 = .ok (.exhausted, m₁) := by
  by_cases hm : m.state = .ended
  · rw [trace, exec_of_ended hm] at hn
    exact absurd hn (Nat.not_lt_zero n)
  obtain ⟨-, hf⟩ | ⟨-, _, _, _, hb, -⟩ := exec_cases hm h
  · obtain ⟨m₁, hf₁⟩ := hf.narrow hn
    rw [hf₁.exec_steps hm]
    exact ⟨_, rfl⟩
  · cases hb

end

/-- Two runs in a row, of which the first used up its budget, are one run; one that stopped before
would have done so with a larger budget; and a run without a limit is a run with any budget that
allows its steps, of which no smaller one is enough. -/
theorem exec_split (observe : σ → Step τ → σ) (patience : Nat) (m : Machine τ) (seen : σ) :
    (∀ a b : Nat, a + b < UInt64.size - 1 →
      (∀ m₁, (m.exec observe patience (.ofNat a) seen).2 = .ok (.exhausted, m₁) →
        m.exec observe patience (.ofNat (a + b)) seen =
          m₁.exec observe patience (.ofNat b) (m.exec observe patience (.ofNat a) seen).1) ∧
      ∀ outcome m₁, (m.exec observe patience (.ofNat a) seen).2 = .ok (outcome, m₁) →
        outcome ≠ .exhausted →
        m.exec observe patience (.ofNat (a + b)) seen =
          m.exec observe patience (.ofNat a) seen) ∧
    ∀ outcome m', (m.exec observe patience .unlimited seen).2 = .ok (outcome, m') →
      ∀ n < UInt64.size - 1,
        ((m.trace patience .unlimited).length ≤ n →
          m.exec observe patience (.ofNat n) seen = m.exec observe patience .unlimited seen) ∧
        (n < (m.trace patience .unlimited).length →
          ∃ m₁, (m.exec observe patience (.ofNat n) seen).2 = .ok (.exhausted, m₁)) := by
  refine ⟨fun a b hab => ?_, fun outcome m' h n hn => ?_⟩
  · have ha : a < UInt64.size - 1 := by omega
    have hb : b < UInt64.size - 1 := by omega
    rw [Budget.ofNat_eq_steps hab, Budget.ofNat_eq_steps ha, Budget.ofNat_eq_steps hb]
    exact ⟨fun m₁ h => exec_add_of_exhausted h b, fun outcome m₁ h ho => exec_add_of_stopped h ho b⟩
  · rw [Budget.ofNat_eq_steps hn]
    exact ⟨exec_steps_of_le h, exec_steps_of_lt h⟩

/-- A stop is asked for in the third step. It does not matter whether the run pauses before, and a
request from before the run is forgotten in either case. -/
theorem exec_split_interrupted :
    let nop : ScriptEntry := { result := some (.executed ⟨1, none⟩) }
    let last : ScriptEntry := { signal := true, result := some (.executed ⟨1, none⟩) }
    let m : Machine ScriptedTable := create 0 ⟨[nop, nop, last]⟩ .requested
    let count : Nat → Step ScriptedTable → Nat := fun n _ => n + 1
    ∃ m₁ m', (m.exec count 9 (.ofNat 1) 0).2 = .ok (.exhausted, m₁) ∧
      m₁.exec count 9 (.ofNat 4) 1 = (3, .ok (.interrupted, m')) ∧
      m.exec count 9 (.ofNat (1 + 4)) 0 = (3, .ok (.interrupted, m')) ∧
      m.exec count 9 (.ofNat 3) 0 = (3, .ok (.interrupted, m')) ∧
      ∃ m₂, (m.exec count 9 (.ofNat 2) 0).2 = .ok (.exhausted, m₂) := by
  intro nop last m count
  obtain ⟨hparts, hwhole⟩ := exec_split count 9 m 0
  obtain ⟨m₁, h₁⟩ := exists_ok_of_fst (x := (m.exec count 9 (.ofNat 1) 0).2) (a := .exhausted)
    (by decide +kernel)
  obtain ⟨m', hall⟩ := exists_ok_of_fst (x := (m.exec count 9 .unlimited 0).2) (a := .interrupted)
    (by decide +kernel)
  have hcount : (m.exec count 9 .unlimited 0).1 = 3 := by decide +kernel
  have hlen : (m.trace 9 .unlimited).length = 3 := by decide +kernel
  have hrun : m.exec count 9 .unlimited 0 = (3, .ok (.interrupted, m')) := Prod.ext hcount hall
  have hlarge (n : Nat) (h : 3 ≤ n) (hn : n < UInt64.size - 1) :
      m.exec count 9 (.ofNat n) 0 = (3, .ok (.interrupted, m')) := by
    rw [(hwhole _ _ hall n hn).1 (hlen ▸ h), hrun]
  have hfirst : (m.exec count 9 (.ofNat 1) 0).1 = 1 := by decide +kernel
  have hpause := (hparts 1 4 (by decide)).1 m₁ h₁
  rw [hlarge 5 (by decide) (by decide), hfirst] at hpause
  exact ⟨m₁, m', h₁, hpause.symm, hlarge 5 (by decide) (by decide), hlarge 3 (by decide) (by decide),
    (hwhole _ _ hall 2 (by decide)).2 (hlen ▸ by decide)⟩

end Machine

end Monitor386
