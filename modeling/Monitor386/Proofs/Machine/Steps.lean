import Mathlib
import Monitor386.Machine.Run

/-!
# The steps of a run

`Quiet m ss m'` says that the steps `ss`, none of which stops the run, lead from `m` to `m'`. A run
takes quiet steps up to the first step that stops it, or to its last (`Finishes`).

* `advance_cases`: a run of at most `n` steps is `n` quiet steps, or fewer and a step that stops the
  run, or fewer and an abort; its observer sees just these steps.
* `exec_eq_advance`: a run in terms of `advance`; `Finishes.exec_eq`: what an observer ends with is the
  fold of it over the steps of the run (`Machine.trace`), and the outcome does not depend on it.
* `exec_finishes`, `exec_inv`: a run that returns finishes, and how.
-/

namespace Monitor386

namespace Machine

variable {τ σ : Type} [InstructionTable τ] {m m₁ m' : Machine τ} {ss : List (Step τ)}
  {s : Step τ}

/-! ## Steps that do not stop -/

/-- Steps that do not stop the run, from one machine to another. -/
inductive Quiet : Machine τ → List (Step τ) → Machine τ → Prop where
  | nil (m : Machine τ) : Quiet m [] m
  | cons {m m' : Machine τ} {s : Step τ} {ss : List (Step τ)} :
      m.step = .ok s → s.outcome = none → Quiet s.machine ss m' → Quiet m (s :: ss) m'

theorem Quiet.concat (h : Quiet m ss m₁) (hs : m₁.step = .ok s) (ho : s.outcome = none) :
    Quiet m (ss ++ [s]) s.machine := by
  induction h with
  | nil => exact .cons hs ho (.nil _)
  | cons h₁ ho₁ _ ih => exact .cons h₁ ho₁ (ih hs)

/-- Quiet steps come first. -/
theorem Quiet.advance_add (h : Quiet m ss m₁) (observe : σ → Step τ → σ) (n : Nat) (seen : σ) :
    m.advance observe (ss.length + n) seen = m₁.advance observe n (ss.foldl observe seen) := by
  induction h generalizing seen with
  | nil => rw [List.length_nil, Nat.zero_add, List.foldl_nil]
  | @cons m m' s ss hs ho _ ih =>
    rw [List.length_cons, Nat.add_right_comm, advance, hs]
    simp only [ho, ih, List.foldl_cons]

theorem advance_stop {outcome : Outcome} (hs : m.step = .ok s) (ho : s.outcome = some outcome)
    (observe : σ → Step τ → σ) (n : Nat) (seen : σ) :
    m.advance observe (n + 1) seen = (observe seen s, .ok (some outcome, s.machine)) := by
  simp only [advance, hs, ho]

theorem advance_abort {a : Abort} (ha : m.step = .error a) (observe : σ → Step τ → σ) (n : Nat)
    (seen : σ) : m.advance observe (n + 1) seen = (seen, .error a) := by
  simp only [advance, ha]

/-- From a machine there are `n` quiet steps, or fewer and then one that stops or aborts. -/
theorem exists_quiet (m : Machine τ) (n : Nat) :
    (∃ ss m₁, ss.length = n ∧ Quiet m ss m₁) ∨
    (∃ ss m₁ s outcome, ss.length < n ∧ Quiet m ss m₁ ∧ m₁.step = .ok s ∧
      s.outcome = some outcome) ∨
    (∃ ss m₁ a, ss.length < n ∧ Quiet m ss m₁ ∧ m₁.step = .error a) := by
  induction n with
  | zero => exact .inl ⟨[], m, rfl, .nil m⟩
  | succ n ih =>
    obtain ⟨ss, m₁, hlen, hq⟩ | ⟨ss, m₁, s, outcome, hlen, h⟩ | ⟨ss, m₁, a, hlen, h⟩ := ih
    · cases hs : m₁.step with
      | error a => exact .inr (.inr ⟨ss, m₁, a, by omega, hq, hs⟩)
      | ok s =>
        cases ho : s.outcome with
        | none => exact .inl ⟨ss ++ [s], s.machine, by simp [hlen], hq.concat hs ho⟩
        | some outcome => exact .inr (.inl ⟨ss, m₁, s, outcome, by omega, hq, hs, ho⟩)
    · exact .inr (.inl ⟨ss, m₁, s, outcome, by omega, h⟩)
    · exact .inr (.inr ⟨ss, m₁, a, by omega, h⟩)

/-! ## Runs -/

/-- How a run of at most `n` steps from a machine finishes: the steps that it took, why it stopped,
if not for the end of its steps, and the machine after it. -/
inductive Finishes (m : Machine τ) (n : Nat) :
    List (Step τ) → Option Outcome → Machine τ → Prop where
  | full {ss : List (Step τ)} {m' : Machine τ} :
      ss.length = n → Quiet m ss m' → Finishes m n ss none m'
  | stop {ss : List (Step τ)} {m₁ : Machine τ} {s : Step τ} {outcome : Outcome} :
      ss.length < n → Quiet m ss m₁ → m₁.step = .ok s → s.outcome = some outcome →
      Finishes m n (ss ++ [s]) (some outcome) s.machine

theorem Finishes.length_le {n : Nat} {o : Option Outcome} (h : Finishes m n ss o m') :
    ss.length ≤ n := by
  cases h with
  | full hlen _ => exact hlen.le
  | stop hlen _ _ _ =>
    rw [List.length_append, List.length_singleton]
    exact hlen

theorem Finishes.advance_eq {n : Nat} {o : Option Outcome} (h : Finishes m n ss o m')
    (observe : σ → Step τ → σ) (seen : σ) :
    m.advance observe n seen = (ss.foldl observe seen, .ok (o, m')) := by
  cases h with
  | full hlen hq =>
    have := hq.advance_add observe 0 seen
    rw [Nat.add_zero, hlen] at this
    exact this
  | @stop ss m₁ s outcome hlen hq hs ho =>
    obtain ⟨k, rfl⟩ : ∃ k, n = ss.length + (k + 1) := ⟨n - ss.length - 1, by omega⟩
    rw [hq.advance_add, advance_stop hs ho, List.foldl_append]
    rfl

/-- The steps of at most `n` end in one of three ways, and an observer sees those that were
completed. -/
theorem advance_cases (m : Machine τ) (n : Nat) :
    (∃ ss o m', Finishes m n ss o m' ∧ ∀ (σ : Type) (observe : σ → Step τ → σ) (seen : σ),
      m.advance observe n seen = (ss.foldl observe seen, .ok (o, m'))) ∨
    ∃ ss m₁ a, ss.length < n ∧ Quiet m ss m₁ ∧ m₁.step = .error a ∧
      ∀ (σ : Type) (observe : σ → Step τ → σ) (seen : σ),
        m.advance observe n seen = (ss.foldl observe seen, .error a) := by
  obtain ⟨ss, m₁, hlen, hq⟩ | ⟨ss, m₁, s, outcome, hlen, hq, hs, ho⟩ | ⟨ss, m₁, a, hlen, hq, ha⟩ :=
    m.exists_quiet n
  · have hf : Finishes m n ss none m₁ := .full hlen hq
    exact .inl ⟨_, _, _, hf, fun _ => hf.advance_eq⟩
  · have hf : Finishes m n (ss ++ [s]) (some outcome) s.machine := .stop hlen hq hs ho
    exact .inl ⟨_, _, _, hf, fun _ => hf.advance_eq⟩
  · refine .inr ⟨ss, m₁, a, hlen, hq, ha, fun σ observe seen => ?_⟩
    obtain ⟨k, rfl⟩ : ∃ k, n = ss.length + (k + 1) := ⟨n - ss.length - 1, by omega⟩
    rw [hq.advance_add, advance_abort ha]

end Machine

/-! ## Budgets -/

/-- The steps that a run takes at most. -/
def Budget.limit (patience : Nat) : Budget → Nat
  | steps n => n
  | unlimited => patience

namespace Machine

variable {τ σ : Type} {m m' : Machine τ}

/-- What a run answers when its steps finish. -/
def answer (budget : Budget) (m : Machine τ) :
    Option Outcome → Except Abort (Outcome × Machine τ)
  | some outcome => .ok (outcome, m)
  | none =>
    match budget with
    | .steps _ => .ok (.exhausted, { m with state := .stopped })
    | .unlimited => .error .unfinished

/-- An answer is why the steps ended, or that a number of steps is used up. -/
theorem answer_eq_ok {budget : Budget} {o : Option Outcome} {outcome : Outcome}
    (h : answer budget m o = .ok (outcome, m')) :
    o = some outcome ∧ m' = m ∨
      o = none ∧ (∃ n, budget = .steps n) ∧ outcome = .exhausted ∧
        m' = { m with state := .stopped } := by
  cases o with
  | some outcome' =>
    cases h
    exact .inl ⟨rfl, rfl⟩
  | none =>
    cases budget with
    | steps n =>
      cases h
      exact .inr ⟨rfl, ⟨n, rfl⟩, rfl, rfl⟩
    | unlimited => cases h

variable [InstructionTable τ]

/-- The steps of a run, in order. -/
def trace (patience : Nat) (m : Machine τ) (budget : Budget) : List (Step τ) :=
  (m.exec (fun ss s => ss ++ [s]) patience budget []).1

theorem exec_of_ended (hm : m.state = .ended) (observe : σ → Step τ → σ) (patience : Nat)
    (budget : Budget) (seen : σ) :
    m.exec observe patience budget seen = (seen, .ok (.cannotContinue, m)) := by
  simp only [exec, hm, ↓reduceIte]

/-- A run in terms of its steps. -/
theorem exec_eq_advance (hm : m.state ≠ .ended) (observe : σ → Step τ → σ) (patience : Nat)
    (budget : Budget) (seen : σ) :
    m.exec observe patience budget seen =
      ((m.beginRun.advance observe (budget.limit patience) seen).1,
        (m.beginRun.advance observe (budget.limit patience) seen).2.bind fun
          | (o, m') => answer budget m' o) := by
  cases budget with
  | steps n =>
    simp only [exec, hm, ↓reduceIte, Budget.limit, Prod.mk.injEq, true_and]
    cases (m.beginRun.advance observe n seen).2 with
    | error a => rfl
    | ok r =>
      obtain ⟨_ | _, _⟩ := r <;> rfl
  | unlimited =>
    simp only [exec, hm, ↓reduceIte, Budget.limit, Prod.mk.injEq, true_and]
    cases (m.beginRun.advance observe patience seen).2 with
    | error a => rfl
    | ok r =>
      obtain ⟨_ | _, _⟩ := r <;> rfl

/-- What a run does does not depend on who looks on. -/
theorem exec_unobserved {σ' : Type} (observe : σ → Step τ → σ) (observe' : σ' → Step τ → σ')
    (patience : Nat) (m : Machine τ) (budget : Budget) (seen : σ) (seen' : σ') :
    (m.exec observe patience budget seen).2 = (m.exec observe' patience budget seen').2 := by
  by_cases hm : m.state = .ended
  · rw [exec_of_ended hm, exec_of_ended hm]
  rw [exec_eq_advance hm, exec_eq_advance hm]
  obtain ⟨ss, o, m', -, hadv⟩ | ⟨ss, m₁, a, -, -, -, hadv⟩ :=
    m.beginRun.advance_cases (budget.limit patience)
  · rw [hadv, hadv]
  · rw [hadv, hadv]

theorem foldl_concat {α : Type} (xs ys : List α) : xs.foldl (fun l x => l ++ [x]) ys = ys ++ xs := by
  induction xs generalizing ys with
  | nil => rw [List.foldl_nil, List.append_nil]
  | cons x xs ih => rw [List.foldl_cons, ih, List.append_assoc, List.singleton_append]

theorem Finishes.exec_eq {patience : Nat} {budget : Budget} {ss : List (Step τ)}
    {o : Option Outcome} (h : Finishes m.beginRun (budget.limit patience) ss o m')
    (hm : m.state ≠ .ended) (observe : σ → Step τ → σ) (seen : σ) :
    m.exec observe patience budget seen = (ss.foldl observe seen, answer budget m' o) := by
  rw [exec_eq_advance hm, h.advance_eq]
  rfl

theorem Finishes.trace_eq {patience : Nat} {budget : Budget} {ss : List (Step τ)}
    {o : Option Outcome} (h : Finishes m.beginRun (budget.limit patience) ss o m')
    (hm : m.state ≠ .ended) : m.trace patience budget = ss := by
  rw [trace, h.exec_eq hm, foldl_concat, List.nil_append]

/-- A run that returns finishes. -/
theorem exec_finishes {observe : σ → Step τ → σ} {patience : Nat} {budget : Budget} {seen : σ}
    {r : Outcome × Machine τ} (hm : m.state ≠ .ended)
    (h : (m.exec observe patience budget seen).2 = .ok r) :
    ∃ o m', Finishes m.beginRun (budget.limit patience) (m.trace patience budget) o m' ∧
      answer budget m' o = .ok r := by
  obtain ⟨ss, o, m', hf, -⟩ | ⟨ss, m₁, a, hlen, hq, ha, hadv⟩ :=
    m.beginRun.advance_cases (budget.limit patience)
  · refine ⟨o, m', hf.trace_eq hm ▸ hf, ?_⟩
    rw [hf.exec_eq hm] at h
    exact h
  · rw [exec_eq_advance hm, hadv] at h
    cases h

/-- A run that returns used up its budget in quiet steps, or was stopped by its last step. -/
theorem exec_inv {observe : σ → Step τ → σ} {patience : Nat} {budget : Budget} {seen : σ}
    {outcome : Outcome} (hm : m.state ≠ .ended)
    (h : (m.exec observe patience budget seen).2 = .ok (outcome, m')) :
    (∃ m₁, (m.trace patience budget).length = budget.limit patience ∧
      Quiet m.beginRun (m.trace patience budget) m₁ ∧ outcome = .exhausted ∧
      m' = { m₁ with state := .stopped }) ∨
    ∃ ss m₁ s, m.trace patience budget = ss ++ [s] ∧ Quiet m.beginRun ss m₁ ∧ m₁.step = .ok s ∧
      s.outcome = some outcome ∧ m' = s.machine := by
  obtain ⟨o, m₁, hf, ha⟩ := exec_finishes hm h
  generalize m.trace patience budget = ss at hf ⊢
  cases hf with
  | full hlen hq =>
    obtain ⟨ho, -⟩ | ⟨-, -, rfl, rfl⟩ := answer_eq_ok ha
    · cases ho
    exact .inl ⟨m₁, hlen, hq, rfl, rfl⟩
  | stop _ hq hs ho =>
    cases ha
    exact .inr ⟨_, _, _, rfl, hq, hs, ho, rfl⟩

end Machine

end Monitor386
