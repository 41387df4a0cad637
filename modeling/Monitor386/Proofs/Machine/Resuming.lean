import Mathlib
import Monitor386.Proofs.Machine.Splitting

/-!
# Running to the end

A user who runs the machine without a limit, and again after each pause, brings it to the end of the
program or to a fault: `Concludes`. Where the runs pause makes no difference to the program.
`Proceeds` says the same step by step, without the runs.

* `concludes_iff_proceeds`: the runs are the steps, cut at the pauses.
* `Alike.step`: two machines that differ in their watchpoints only take the same step.
* `concludes_watched`: a machine with watchpoints comes to the same end as one that pauses at
  breakpoints only, through the same states of the processor.
-/

namespace Monitor386

/-- The outcomes after which a user runs the machine again. -/
def Outcome.Pauses (o : Outcome) : Prop :=
  o = .breakpoint ∨ ∃ hit, o = .watchpoint hit

namespace Step

variable {τ : Type}

/-- What the program did in a step: the result of its instruction, and the processor after it. -/
def guest (s : Step τ) : Except Fault Completion × Cpu :=
  (s.result, s.machine.cpu)

/-- The instruction of the step ended the program. -/
def EndsProgram (s : Step τ) : Prop :=
  ∃ completion, s.result = .ok completion ∧ completion.trap = some .finish

/-- Number of the instructions that were completed. -/
def completed (ss : List (Step τ)) : Nat :=
  ss.countP (·.result.isOk)

/-- A user goes on after the step: the program is not over, and if the run stopped, it paused. -/
def GoesOn (resumes : Outcome → Prop) (s : Step τ) : Prop :=
  s.machine.state ≠ .ended ∧ ∀ o, s.outcome = some o → resumes o

end Step

namespace Machine

variable {τ : Type} {m m₁ m' m₀ m₀' : Machine τ} {ss ss' ss₀ : List (Step τ)} {s s₀ : Step τ}
  {e e' : Option Fault} {resumes : Outcome → Prop}

/-! ## After a call -/

section

variable {c : Call τ} {o : Option Outcome}

theorem after_ended :
    (m.after c o).state = .ended ↔ c.trap? = some .finish := by
  simp only [after]
  split_ifs <;> simp_all

theorem decides_fault_iff {fault : Fault} (h : Decides m c o) :
    o = some (.fault fault) ↔ c.result = .error fault := by
  constructor
  · rintro rfl
    obtain _ | ⟨hcause, -⟩ := h
    cases hcause with
    | fault hres => exact hres
  · exact fun hres => h.unique (decides_fault hres)

/-- With nobody to ask for a stop, none is ever asked for. -/
theorem after_stopLine (hline : m.stopLine = .absent)
    (hdec : Decides m c o) : o ≠ some .interrupted ∧ (m.after c o).stopLine = .absent := by
  have hafter : c.lineAfter m.stopLine = .absent := by
    rw [Call.lineAfter, hline]
    split <;> rfl
  have ho : o ≠ some .interrupted := by
    rintro rfl
    obtain _ | ⟨hcause, -⟩ := hdec
    cases hcause with
    | interrupted _ hreq =>
      rw [hafter] at hreq
      cases hreq
  exact ⟨ho, by simp only [after, ho, hafter, ↓reduceIte]⟩

end

/-- Machines on which nobody can ask for a stop, and that differ only in what a user at rest sees:
the watchpoints and the state of the run. -/
structure Alike (m m₀ : Machine τ) : Prop where
  cpu : m.cpu = m₀.cpu
  table : m.table = m₀.table
  line : m.stopLine = .absent
  line₀ : m₀.stopLine = .absent

theorem Alike.beginRun (h : Alike m m₀) : Alike m.beginRun m₀.beginRun where
  cpu := h.cpu
  table := h.table
  line := by rw [Machine.beginRun, h.line]; rfl
  line₀ := by rw [Machine.beginRun, h.line₀]; rfl

/-- Number of completed instructions, as the program sees the steps. -/
theorem completed_eq_of_guest
    (h : ss.map Step.guest = ss'.map Step.guest) : Step.completed ss = Step.completed ss' := by
  have hcount : ∀ ss : List (Step τ),
      Step.completed ss = (ss.map Step.guest).countP (·.1.isOk) := by
    intro ss
    rw [List.countP_map]
    rfl
  rw [hcount, hcount, h]

variable [InstructionTable τ]

/-! ## Runs again and again -/

/-- A run without a limit takes these steps and returns. -/
def Ends (m : Machine τ) (ss : List (Step τ)) (outcome : Outcome) (m' : Machine τ) : Prop :=
  ∃ patience, m.exec (fun ss s => ss ++ [s]) patience .unlimited [] = (ss, .ok (outcome, m'))

/-- Runs without a limit, one after each that was stopped by an outcome that `resumes`, take these
steps until the program is over, or up to a fault. -/
inductive Concludes (resumes : Outcome → Prop) :
    Machine τ → List (Step τ) → Option Fault → Machine τ → Prop where
  | ended {m m' : Machine τ} {ss : List (Step τ)} {o : Outcome} :
      Ends m ss o m' → m'.state = .ended → Concludes resumes m ss none m'
  | fault {m m' : Machine τ} {ss : List (Step τ)} {fault : Fault} :
      Ends m ss (.fault fault) m' → Concludes resumes m ss (some fault) m'
  | again {m m₁ m' : Machine τ} {ss ss' : List (Step τ)} {o : Outcome} {e : Option Fault} :
      Ends m ss o m₁ → resumes o → m₁.state ≠ .ended → Concludes resumes m₁ ss' e m' →
      Concludes resumes m (ss ++ ss') e m'

/-- The steps alone: each as a run would begin it. -/
inductive Proceeds (resumes : Outcome → Prop) :
    Machine τ → List (Step τ) → Option Fault → Machine τ → Prop where
  | ended {m : Machine τ} {s : Step τ} : m.beginRun.step = .ok s → s.machine.state = .ended →
      Proceeds resumes m [s] none s.machine
  | fault {m : Machine τ} {s : Step τ} {fault : Fault} : m.beginRun.step = .ok s →
      s.outcome = some (.fault fault) → Proceeds resumes m [s] (some fault) s.machine
  | next {m m' : Machine τ} {s : Step τ} {ss : List (Step τ)} {e : Option Fault} :
      m.beginRun.step = .ok s → s.GoesOn resumes → Proceeds resumes s.machine ss e m' →
      Proceeds resumes m (s :: ss) e m'

/-! ## Runs and steps -/

theorem ends_of_ended (hm : m.state = .ended) : Ends m [] .cannotContinue m :=
  ⟨0, exec_of_ended hm _ 0 .unlimited []⟩

theorem ends_iff {outcome : Outcome} (hm : m.state ≠ .ended) :
    Ends m ss outcome m' ↔ ∃ n, Finishes m.beginRun n ss (some outcome) m' := by
  constructor
  · rintro ⟨patience, h⟩
    have htrace : m.trace patience .unlimited = ss := congrArg Prod.fst h
    obtain ⟨-, hf⟩ | ⟨-, _, _, _, hb, -⟩ := exec_cases hm (congrArg Prod.snd h)
    · exact ⟨patience, htrace ▸ hf⟩
    · cases hb
  · rintro ⟨n, hf⟩
    have hf' : Finishes m.beginRun (Budget.unlimited.limit n) ss (some outcome) m' := hf
    exact ⟨n, by rw [hf'.exec_eq hm, foldl_concat]; rfl⟩

theorem ends_step {outcome : Outcome} (hm : m.state ≠ .ended) (hs : m.beginRun.step = .ok s)
    (ho : s.outcome = some outcome) : Ends m [s] outcome s.machine :=
  (ends_iff hm).mpr ⟨1, .stop Nat.zero_lt_one (.nil _) hs ho⟩

/-- A step that does not stop the run belongs to the run that comes after it. -/
theorem Ends.cons {outcome : Outcome} (h : Ends s.machine ss outcome m') (hm : m.state ≠ .ended)
    (hs : m.beginRun.step = .ok s) (ho : s.outcome = none) : Ends m (s :: ss) outcome m' := by
  have hrun : s.machine.beginRun = s.machine := beginRun_step rfl hs ho
  have hstate : s.machine.state ≠ .ended := by
    rw [← hrun]
    exact fun h => by cases h
  obtain ⟨n, hf⟩ := (ends_iff hstate).mp h
  rw [hrun] at hf
  refine (ends_iff hm).mpr ⟨n + 1, ?_⟩
  cases hf with
  | stop hlen hq hs' ho' =>
    exact .stop (Nat.succ_lt_succ hlen) (.cons hs ho hq) hs' ho'

/-- When the program is over there is nothing to run. -/
theorem Concludes.of_ended (h : Concludes resumes m ss e m') (hm : m.state = .ended)
    (hres : ¬ resumes .cannotContinue) : ss = [] ∧ e = none ∧ m' = m := by
  cases h with
  | ended hends _ =>
    obtain ⟨patience, hrun⟩ := hends
    cases (exec_of_ended hm _ patience .unlimited []).symm.trans hrun
    exact ⟨rfl, rfl, rfl⟩
  | fault hends =>
    obtain ⟨patience, hrun⟩ := hends
    cases (exec_of_ended hm _ patience .unlimited []).symm.trans hrun
  | again hends hres' _ _ =>
    obtain ⟨patience, hrun⟩ := hends
    cases (exec_of_ended hm _ patience .unlimited []).symm.trans hrun
    exact absurd hres' hres

theorem Concludes.cons (h : Concludes resumes s.machine ss e m') (hm : m.state ≠ .ended)
    (hs : m.beginRun.step = .ok s) (ho : s.outcome = none) :
    Concludes resumes m (s :: ss) e m' := by
  cases h with
  | ended hends hend => exact .ended (hends.cons hm hs ho) hend
  | fault hends => exact .fault (hends.cons hm hs ho)
  | again hends hres hstate hrest => exact .again (hends.cons hm hs ho) hres hstate hrest

theorem Proceeds.concludes (h : Proceeds resumes m ss e m') (hm : m.state ≠ .ended) :
    Concludes resumes m ss e m' := by
  induction h with
  | @ended m s hs hend =>
    cases ho : s.outcome with
    | none =>
      rw [← beginRun_step rfl hs ho] at hend
      cases hend
    | some o => exact .ended (ends_step hm hs ho) hend
  | fault hs ho => exact .fault (ends_step hm hs ho)
  | @next m m' s ss e hs hgo _ ih =>
    have hrest := ih hgo.1
    cases ho : s.outcome with
    | none => exact hrest.cons hm hs ho
    | some o => exact .again (ends_step hm hs ho) (hgo.2 o ho) hgo.1 hrest

theorem proceeds_beginRun : Proceeds resumes m.beginRun ss e m' ↔ Proceeds resumes m ss e m' := by
  constructor <;> intro h
  · cases h with
    | ended hs hend => exact .ended (beginRun_beginRun m ▸ hs) hend
    | fault hs ho => exact .fault (beginRun_beginRun m ▸ hs) ho
    | next hs hgo hrest => exact .next (beginRun_beginRun m ▸ hs) hgo hrest
  · cases h with
    | ended hs hend => exact .ended (m.beginRun_beginRun.symm ▸ hs) hend
    | fault hs ho => exact .fault (m.beginRun_beginRun.symm ▸ hs) ho
    | next hs hgo hrest => exact .next (m.beginRun_beginRun.symm ▸ hs) hgo hrest

/-- Quiet steps come first. -/
theorem Quiet.proceeds (h : Quiet m ss m₁) (hm : m.beginRun = m)
    (hrest : Proceeds resumes m₁ ss' e m') : Proceeds resumes m (ss ++ ss') e m' := by
  induction h with
  | nil => exact hrest
  | @cons m m₁ s ss hs ho _ ih =>
    have hrun : s.machine.beginRun = s.machine := beginRun_step (hm ▸ rfl) hs ho
    refine .next (hm.symm ▸ hs) ⟨?_, fun o ho' => ?_⟩ (ih hrun hrest)
    · rw [← hrun]
      exact fun h => by cases h
    · rw [ho] at ho'
      cases ho'

/-- The steps of a run that ends come first. -/
theorem Ends.proceeds {outcome : Outcome} (h : Ends m ss outcome m₁) (hm : m.state ≠ .ended)
    (hlast : ∀ m₂ s, m₂.beginRun.step = .ok s → s.outcome = some outcome → s.machine = m₁ →
      Proceeds resumes m₂ (s :: ss') e m') : Proceeds resumes m (ss ++ ss') e m' := by
  obtain ⟨n, hf⟩ := (ends_iff hm).mp h
  cases hf with
  | @stop ss m₂ s _ _ hq hs ho =>
    have hrun : m₂.beginRun = m₂ := hq.beginRun_eq m.beginRun_beginRun
    rw [List.append_assoc, List.singleton_append, ← proceeds_beginRun]
    exact hq.proceeds m.beginRun_beginRun (hlast m₂ s (hrun.symm ▸ hs) ho rfl)

theorem Concludes.proceeds (h : Concludes resumes m ss e m') (hm : m.state ≠ .ended) :
    Proceeds resumes m ss e m' := by
  induction h with
  | @ended m m' ss o hends hend =>
    rw [← List.append_nil ss]
    exact hends.proceeds hm fun m₂ s hs _ hnext => hnext ▸ .ended hs (hnext ▸ hend)
  | @fault m m' ss fault hends =>
    rw [← List.append_nil ss]
    exact hends.proceeds hm fun m₂ s hs ho hnext => hnext ▸ .fault hs ho
  | @again m m₁ m' ss ss' o e hends hres hstate _ ih =>
    refine hends.proceeds hm fun m₂ s hs ho hnext => ?_
    subst hnext
    refine .next hs ⟨hstate, fun o' ho' => ?_⟩ (ih hstate)
    rw [ho] at ho'
    exact Option.some.inj ho' ▸ hres

/-- The runs are the steps, cut at the pauses. -/
theorem concludes_iff_proceeds (hm : m.state ≠ .ended) :
    Concludes resumes m ss e m' ↔ Proceeds resumes m ss e m' :=
  ⟨fun h => h.proceeds hm, fun h => h.concludes hm⟩

/-! ## One end -/

/-- The program is over after a step just if the instruction said so. -/
theorem step_ended (hm : m.state = .running) (hs : m.step = .ok s) :
    s.machine.state = .ended ↔ s.EndsProgram := by
  obtain ⟨c, -, hres, -, hnext⟩ := step_inv hm hs
  rw [hnext, after_ended, Call.trap?, Step.EndsProgram, hres]
  cases c.result <;> simp

theorem step_fault_state {fault : Fault} (hm : m.state = .running) (hs : m.step = .ok s)
    (ho : s.outcome = some (.fault fault)) : s.machine.state = .stopped := by
  obtain ⟨c, -, -, hdec, hnext⟩ := step_inv hm hs
  have hres : c.result = .error fault := (decides_fault_iff hdec).mp ho
  rw [hnext, ho]
  simp only [after, Call.trap?, hres, reduceCtorEq, ↓reduceIte]

/-- Only the last step can end the program. -/
theorem Proceeds.not_endsProgram (h : Proceeds resumes m ss e m') :
    ∀ s ∈ ss.dropLast, ¬ s.EndsProgram := by
  induction h with
  | ended | fault => exact fun s hs => absurd hs List.not_mem_nil
  | @next m m' s ss e hs hgo hrest ih =>
    have hne : ss ≠ [] := by
      cases hrest <;> exact List.cons_ne_nil _ _
    rw [List.dropLast_cons_of_ne_nil hne]
    refine List.forall_mem_cons.mpr ⟨?_, ih⟩
    rw [← step_ended rfl hs]
    exact hgo.1

theorem Proceeds.state_eq (h : Proceeds resumes m ss e m') :
    m'.state = if e = none then .ended else .stopped := by
  induction h with
  | ended _ hend => exact hend
  | fault hs ho => exact step_fault_state rfl hs ho
  | next _ _ _ ih => exact ih

/-- From a machine there is one way to proceed. -/
theorem Proceeds.unique {m'' : Machine τ} (hres : ∀ fault, ¬ resumes (.fault fault))
    (h : Proceeds resumes m ss e m') (h' : Proceeds resumes m ss' e' m'') :
    ss' = ss ∧ e' = e ∧ m'' = m' := by
  -- by induction on one of the two; the first step is the same, and so is the way in which it is the last one
  induction h generalizing ss' with
  | ended hs hend =>
    cases h' with
    | ended hs' _ =>
      cases hs.symm.trans hs'
      exact ⟨rfl, rfl, rfl⟩
    | fault hs' ho =>
      cases hs.symm.trans hs'
      rw [step_fault_state rfl hs ho] at hend
      cases hend
    | next hs' hgo _ =>
      cases hs.symm.trans hs'
      exact absurd hend hgo.1
  | fault hs ho =>
    cases h' with
    | ended hs' hend =>
      cases hs.symm.trans hs'
      rw [step_fault_state rfl hs ho] at hend
      cases hend
    | fault hs' ho' =>
      cases hs.symm.trans hs'
      cases ho.symm.trans ho'
      exact ⟨rfl, rfl, rfl⟩
    | next hs' hgo _ =>
      cases hs.symm.trans hs'
      exact absurd (hgo.2 _ ho) (hres _)
  | next hs hgo _ ih =>
    cases h' with
    | ended hs' hend =>
      cases hs.symm.trans hs'
      exact absurd hend hgo.1
    | fault hs' ho =>
      cases hs.symm.trans hs'
      exact absurd (hgo.2 _ ho) (hres _)
    | next hs' _ hrest =>
      cases hs.symm.trans hs'
      -- both go on from the same machine
      obtain ⟨rfl, rfl, rfl⟩ := ih hrest
      exact ⟨rfl, rfl, rfl⟩

/-! ## Other watchpoints -/

theorem Alike.call_eq (h : Alike m m₀) : m.call = m₀.call := by
  rw [call, call, h.table, h.cpu]

/-- Alike machines take the same step, whatever their watchpoints say of it; and where one goes on
after a breakpoint, the other does so too, perhaps after a watchpoint. -/
theorem Alike.step (h : Alike m m₀) (hm : m.state = .running) (hm₀ : m₀.state = .running)
    (hs₀ : m₀.step = .ok s₀) :
    ∃ s, m.step = .ok s ∧ s.guest = s₀.guest ∧ Alike s.machine s₀.machine ∧
      (s.machine.state = .ended ↔ s₀.machine.state = .ended) ∧
      (∀ fault, s.outcome = some (.fault fault) ↔ s₀.outcome = some (.fault fault)) ∧
      (s₀.GoesOn (· = .breakpoint) → s.GoesOn Outcome.Pauses) := by
  obtain ⟨c, hc₀, hres₀, hdec₀, hnext₀⟩ := step_inv hm₀ hs₀
  obtain ⟨s, hs, hres, hdec, hnext⟩ := step_eq hm (h.call_eq.trans hc₀)
  have hcpu : s.machine.cpu = s₀.machine.cpu := by
    rw [hnext, hnext₀]
    simp only [after, h.cpu]
  have hend : s.machine.state = .ended ↔ s₀.machine.state = .ended := by
    rw [hnext, hnext₀, after_ended, after_ended]
  have hfault : ∀ fault, s.outcome = some (.fault fault) ↔ s₀.outcome = some (.fault fault) :=
    fun fault => (decides_fault_iff hdec).trans (decides_fault_iff hdec₀).symm
  refine ⟨s, hs, ?_, ⟨hcpu, ?_, ?_, ?_⟩, hend, hfault, ?_⟩
  · rw [Step.guest, Step.guest, hres, hres₀, hcpu]
  · rw [hnext, hnext₀]
    rfl
  · rw [hnext]
    exact (after_stopLine h.line hdec).2
  · rw [hnext₀]
    exact (after_stopLine h.line₀ hdec₀).2
  · rintro ⟨hgo, hres⟩
    refine ⟨hend.not.mpr hgo, fun o ho => ?_⟩
    rw [ho] at hdec hfault
    -- the other machine goes on, so the step can stop this one for a watchpoint or a breakpoint only
    obtain _ | ⟨hcause, -⟩ := id hdec
    cases hcause with
    | fault =>
      cases hres _ ((hfault _).mp rfl)
    | watchpoint => exact .inr ⟨_, rfl⟩
    | interrupted => exact absurd rfl (after_stopLine h.line hdec).1
    | breakpoint => exact .inl rfl
    | ended htrap =>
      rw [hnext₀, ne_eq, after_ended] at hgo
      exact absurd htrap hgo

theorem Alike.proceeds (ha : Alike m m₀) (h : Proceeds (· = .breakpoint) m₀ ss₀ e m₀') :
    ∃ ss m', Proceeds Outcome.Pauses m ss e m' ∧ ss.map Step.guest = ss₀.map Step.guest ∧
      Alike m' m₀' := by
  induction h generalizing m with
  | ended hs₀ hend =>
    obtain ⟨s, hs, hguest, halike, hended, -⟩ := ha.beginRun.step rfl rfl hs₀
    exact ⟨[s], s.machine, .ended hs (hended.mpr hend), by simp [hguest], halike⟩
  | fault hs₀ ho =>
    obtain ⟨s, hs, hguest, halike, -, hfault, -⟩ := ha.beginRun.step rfl rfl hs₀
    exact ⟨[s], s.machine, .fault hs ((hfault _).mpr ho), by simp [hguest], halike⟩
  | next hs₀ hgo _ ih =>
    obtain ⟨s, hs, hguest, halike, -, -, hgoes⟩ := ha.beginRun.step rfl rfl hs₀
    obtain ⟨ss, m', hrest, hguests, halike'⟩ := ih halike
    exact ⟨s :: ss, m', .next hs (hgoes hgo) hrest, by simp [hguest, hguests], halike'⟩

/-- Watching does not disturb the program. If a machine that nobody can stop comes to the end of the
program, or to a fault, in runs that pause at breakpoints only, then with any watchpoints it comes
there too, by the same steps of the program, and there is no other way for it to go. No instruction is
executed after the one that ended the program. -/
theorem concludes_watched {q : Pool} (hline : m.stopLine = .absent)
    (h : Concludes (· = .breakpoint) { m with pool := q } ss₀ e m₀') :
    ∃ ss m', Concludes Outcome.Pauses m ss e m' ∧
      (∀ ss' e' m'', Concludes Outcome.Pauses m ss' e' m'' → ss' = ss ∧ e' = e ∧ m'' = m') ∧
      ss.map Step.guest = ss₀.map Step.guest ∧ Step.completed ss = Step.completed ss₀ ∧
      m'.cpu = m₀'.cpu ∧ m'.table = m₀'.table ∧ m'.state = m₀'.state ∧
      (∀ s ∈ ss.dropLast, ¬ s.EndsProgram) ∧
      (e = none → ∀ patience budget, m'.trace patience budget = []) := by
  by_cases hm : m.state = .ended
  · have hres : ¬ Outcome.Pauses .cannotContinue := by
      rintro (h | ⟨_, h⟩) <;> cases h
    obtain ⟨rfl, rfl, rfl⟩ := h.of_ended hm (fun h => by cases h)
    exact ⟨[], m, .ended (ends_of_ended hm) hm, fun _ _ _ h' => h'.of_ended hm hres, rfl, rfl, rfl,
      rfl, rfl, fun s hs => absurd hs List.not_mem_nil,
      fun _ _ _ => by rw [trace, exec_of_ended hm]⟩
  have hres : ∀ fault, ¬ Outcome.Pauses (.fault fault) := by
    rintro fault (h | ⟨_, h⟩) <;> cases h
  have hbare := h.proceeds hm
  have hstart : Alike m { m with pool := q } := ⟨rfl, rfl, hline, hline⟩
  obtain ⟨ss, m', hproceeds, hguest, halike⟩ := hstart.proceeds hbare
  refine ⟨ss, m', hproceeds.concludes hm, fun ss' e' m'' h' => hproceeds.unique hres (h'.proceeds hm),
    hguest, completed_eq_of_guest hguest, halike.cpu, halike.table, ?_,
    hproceeds.not_endsProgram, ?_⟩
  · rw [hproceeds.state_eq, hbare.state_eq]
  · rintro rfl patience budget
    have hover : m'.state = .ended := hproceeds.state_eq
    rw [trace, exec_of_ended hover]

/-- With a watchpoint on the instruction pointer a run pauses after every instruction, and still three
instructions are executed, of which the second is a breakpoint and the third the end of the program. -/
theorem concludes_watched_instruction_pointer :
    let start : Machine I386Table := create 0x100010 {} .absent
    let bare := (start.restart [0x40, 0xCC, 0xD6]).toOption.getD start
    let watched := Pool.empty.create bare.cpu.context "$eip".toList
    let m := { bare with pool := watched.toOption.elim .empty Prod.snd }
    m.pool.toList = [⟨0, "$eip".toList, 0x100000⟩] ∧ m.stopLine = .absent ∧
    ∃ ss₀ m₀', Concludes (· = .breakpoint) { m with pool := .empty } ss₀ none m₀' ∧
      ∃ ss m', Concludes Outcome.Pauses m ss none m' ∧ Step.completed ss = 3 ∧
        m'.cpu = m₀'.cpu ∧ m'.state = .ended := by
  intro start bare watched m
  have hlist : m.pool.toList = [⟨0, "$eip".toList, 0x100000⟩] := by decide +kernel
  have hline : m.stopLine = .absent := by decide +kernel
  let run (m : Machine I386Table) := m.exec (fun ss s => ss ++ [s]) 9 .unlimited []
  let plain : Machine I386Table := { m with pool := .empty }
  have hruns : ((run plain).2.toOption.bind fun r => (run r.2).2.toOption.map fun r' =>
      (r.1, r.2.state, r'.2.state, Step.completed ((run plain).1 ++ (run r.2).1))) =
      some (.breakpoint, .stopped, .ended, 3) := by
    decide +kernel
  obtain ⟨⟨o, m₁⟩, hfirst, hruns⟩ := Option.bind_eq_some_iff.mp hruns
  obtain ⟨⟨o', m₂⟩, hsecond, hruns⟩ := Option.map_eq_some_iff.mp hruns
  simp only [Prod.mk.injEq] at hruns
  obtain ⟨rfl, hstate₁, hstate₂, hcompleted⟩ := hruns
  have hends₁ : Ends plain (run plain).1 .breakpoint m₁ :=
    ⟨9, Prod.ext rfl (eq_ok_of_toOption hfirst)⟩
  have hends₂ : Ends m₁ (run m₁).1 o' m₂ := ⟨9, Prod.ext rfl (eq_ok_of_toOption hsecond)⟩
  have hbare : Concludes (· = .breakpoint) plain ((run plain).1 ++ (run m₁).1) none m₂ :=
    .again hends₁ rfl (by rw [hstate₁]; decide) (.ended hends₂ hstate₂)
  obtain ⟨ss, m', hwatched, -, -, hcount, hcpu, -, hstate, -⟩ := concludes_watched hline hbare
  exact ⟨hlist, hline, _, m₂, hbare, ss, m', hwatched, hcount.trans hcompleted, hcpu,
    hstate.trans hstate₂⟩

end Machine

end Monitor386
