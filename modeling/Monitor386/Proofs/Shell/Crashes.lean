import Mathlib
import Monitor386.CommandLine
import Monitor386.Proofs.Machine.Aborts
import Monitor386.Proofs.Shell.Logging
import Monitor386.Proofs.Shell.Parsing

/-!
# Where the monitor crashes

Whatever lines a user types, the monitor answers them, as long as the program that it runs stays inside
the memory and, with debug records, no expression gets stuck too far to the right. `Converses` says that
lines were answered one after the other and that the monitor went on.

* `start_intact`: an image that fits is started.
* `perform_intact`: a command that does not run the machine is answered.
* `perform_run`: a command that runs the machine is answered, or the run is given up.
* `words_fit`: the addresses of a dump do not leave the memory.
* `interact_crash`: where a use of the monitor can crash.
-/

namespace Monitor386

variable {m : Memory} {addr : UInt32}

/-! ## Dumps -/

theorem Memory.fits_of_checkedRead {width : Nat} {x : UInt32}
    (h : m.checkedRead addr width = some x) : addr.toNat + width ≤ m.capacity := by
  by_contra hout
  rw [(inaccessible_of_not_fits fun hin => hout hin.2).checkedRead] at h
  cases h

/-- Words that are collected lie one after the other inside the memory. -/
theorem Memory.wordsFrom_eq (m : Memory) (words : Array (UInt32 × UInt32)) (addr n : Nat) :
    ∃ more : List (UInt32 × UInt32), (m.wordsFrom words addr n).toList = words.toList ++ more ∧
      ∀ i w, more[i]? = some w → w.1.toNat = addr + 4 * i ∧ addr + 4 * i + 4 ≤ m.capacity := by
  -- each word that is collected moves the rest of the dump by four bytes
  induction n generalizing words addr with
  | zero => exact ⟨[], (List.append_nil _).symm, nofun⟩
  | succ n ih =>
    rw [wordsFrom]
    split
    next hlt =>
      split
      next w hw =>
        obtain ⟨more, hmore, hall⟩ := ih (words.push (UInt32.ofNat addr, w)) (addr + 4)
        refine ⟨(UInt32.ofNat addr, w) :: more, by rw [hmore]; simp, ?_⟩
        have haddr : (UInt32.ofNat addr).toNat = addr := UInt32.toNat_ofNat_of_lt' hlt
        have hin := fits_of_checkedRead hw
        rw [haddr] at hin
        rintro (_ | i) w' hw'
        · cases hw'
          exact ⟨haddr, hin⟩
        · obtain ⟨hfirst, hlast⟩ := hall i w' hw'
          omega
      next => exact ⟨[], (List.append_nil _).symm, nofun⟩
    next => exact ⟨[], (List.append_nil _).symm, nofun⟩

/-- The addresses of a dump follow each other without a wrap, up to the end of the memory. -/
theorem Memory.words_fit (m : Memory) (addr : UInt32) (n : Nat) :
    4 * (m.words addr n).size ≤ m.capacity ∧ ∀ i w, (m.words addr n)[i]? = some w →
      w.1.toNat = addr.toNat + 4 * i ∧ addr.toNat + 4 * i + 4 ≤ m.capacity := by
  obtain ⟨more, hmore, hall⟩ := m.wordsFrom_eq #[] addr.toNat n
  have hwords : (m.words addr n).toList = more := hmore
  have hall : ∀ i w, (m.words addr n)[i]? = some w →
      w.1.toNat = addr.toNat + 4 * i ∧ addr.toNat + 4 * i + 4 ≤ m.capacity := by
    intro i w hw
    rw [← Array.getElem?_toList, hwords] at hw
    exact hall i w hw
  refine ⟨?_, hall⟩
  obtain hzero | hpos := Nat.eq_zero_or_pos (m.words addr n).size
  · omega
  · have hlast : (m.words addr n).size - 1 < (m.words addr n).size := by omega
    have := (hall _ _ (Array.getElem?_eq_getElem hlast)).2
    omega

namespace Shell

open Machine (Intact GivesUp)

variable {patience : Nat} {s s' s₁ : Session I386Table} {capacity : Nat}

/-! ## The start -/

/-- An image that fits is started. -/
theorem start_intact (threshold : Option Level) {image : List UInt8}
    (hfits : CommandLine.fits image = true) :
    ∃ s, CommandLine.start threshold image = .ok s ∧ s.machine.Intact CommandLine.memorySize ∧
      s.log.threshold = threshold := by
  have hlen : image.length ≤ CommandLine.memorySize - entryPoint.toNat := of_decide_eq_true hfits
  have hentry : entryPoint.toNat ≤ CommandLine.memorySize := by decide
  obtain ⟨m, hm, hintact⟩ :=
    (Intact.create CommandLine.memorySize .idle).restart image (by omega)
  obtain ⟨log, hstart⟩ : ∃ log, CommandLine.start threshold image = .ok ⟨m, log⟩ := by
    rw [CommandLine.start, Session.restart, Session.create, hm]
    exact ⟨_, rfl⟩
  have hlog := Session.restart_threshold hstart
  rw [Session.create, Log.add_threshold] at hlog
  exact ⟨⟨m, log⟩, hstart, hintact, hlog⟩

/-! ## Commands -/

/-- The budget of a command that runs the machine. -/
def Command.budget? : Command → Option Budget
  | .resume => some .unlimited
  | .step n => some (.ofNat n)
  | _ => none

/-- A command that does not run the machine is answered, unless its expression is to be marked and cannot
be. -/
theorem perform_intact (hs : s.machine.Intact capacity) {command : Command}
    (hcommand : command.budget? = none)
    (hmark : ¬ (s.log.admits .debug = true ∧ command.Unmarkable)) :
    ∃ lines goesOn s', perform patience s command = .ok (lines, goesOn, s') ∧
      s'.machine.Intact capacity := by
  have heval : ∀ e ∈ command.expression?, ¬ (s.log.admits .debug = true ∧ Expr.Unmarkable e) :=
    fun e he h => hmark ⟨h.1, e, he, h.2⟩
  cases command with
  | resume | step => cases hcommand
  | help | quit | infoRegisters | infoWatchpoints => exact ⟨_, _, s, rfl, hs⟩
  | print e | examine n e =>
    exact ⟨_, _, _, bind_eq_ok.mpr ⟨_, Session.eval_ok (heval e rfl), rfl⟩, hs⟩
  | watch e =>
    obtain ⟨r, m', hwatch, hintact⟩ := hs.watch e
    obtain ⟨log, hs'⟩ := Session.watch_iff.mpr hwatch
    exact ⟨_, true, ⟨m', log⟩, bind_eq_ok.mpr ⟨_, hs', rfl⟩, hintact⟩
  | delete no =>
    cases hempty : s.machine.pool.isEmpty with
    | true => exact ⟨[noWatchpoints], true, s, by simp only [perform, hempty, ↓reduceIte], hs⟩
    | false =>
      obtain ⟨r, m', hdelete, hintact⟩ := hs.delete hempty no
      obtain ⟨log, hs'⟩ := Session.delete_iff.mpr hdelete
      simp only [perform, hempty, Bool.false_eq_true, ↓reduceIte]
      exact ⟨_, true, ⟨m', log⟩, bind_eq_ok.mpr ⟨_, hs', rfl⟩, hintact⟩
  | set register e =>
    have hvalue := Session.eval_ok (heval e rfl)
    cases hresult : s.machine.eval e with
    | error err =>
      rw [hresult] at hvalue
      exact ⟨_, true, _, bind_eq_ok.mpr ⟨_, hvalue, rfl⟩, hs⟩
    | ok value =>
      rw [hresult] at hvalue
      refine ⟨_, true, _, bind_eq_ok.mpr ⟨_, hvalue, rfl⟩, ?_⟩
      -- the name of the register is known or it is not
      split
      next => exact hs
      next hset => exact hs.setRegister hset

/-- A run at the monitor returns, or is given up. -/
theorem exec_intact (hs : s.machine.Intact capacity) (budget : Budget) :
    (∃ outcome s', s.exec patience budget = .ok (outcome, s') ∧ s'.machine.Intact capacity) ∨
    ∃ crash, s.exec patience budget = .error crash ∧
      s.machine.GivesUp patience budget crash.cause := by
  rw [Session.exec]
  generalize (if s.machine.state = .ended then _ else s.log : Log) = log
  generalize hrun : s.machine.exec (Step.report budget.stepLevel) patience budget log = run
  obtain ⟨log', r⟩ := run
  have hresult := congrArg Prod.snd hrun
  cases r with
  | error cause => exact .inr ⟨⟨cause, log'⟩, rfl, hs.givesUp hresult⟩
  | ok r =>
    obtain ⟨outcome, m'⟩ := r
    exact .inl ⟨outcome, ⟨m', log'⟩, rfl, hs.exec hresult⟩

/-- A command that runs the machine is answered, or the run is given up. -/
theorem perform_run (hs : s.machine.Intact capacity) {command : Command} {budget : Budget}
    (hcommand : command.budget? = some budget) :
    (∃ lines s', perform patience s command = .ok (lines, true, s') ∧ s'.machine.Intact capacity) ∨
    ∃ crash, perform patience s command = .error crash ∧
      s.machine.GivesUp patience budget crash.cause := by
  have hperform : perform patience s command =
      s.exec patience budget >>= fun (outcome, s) => .ok (outcomeLines outcome, true, s) := by
    cases command <;> cases hcommand <;> rfl
  rw [hperform]
  obtain ⟨outcome, s', hexec, hintact⟩ | ⟨crash, hexec, hgives⟩ := exec_intact hs budget
  · exact .inl ⟨_, s', bind_eq_ok.mpr ⟨_, hexec, rfl⟩, hintact⟩
  · exact .inr ⟨crash, bind_eq_error.mpr (.inl hexec), hgives⟩

/-! ## Lines -/

/-- Lines that the monitor answered, one after the other, and after which it went on. -/
inductive Converses (patience : Nat) :
    Session I386Table → List (List Char) → Session I386Table → Prop where
  | nil (s : Session I386Table) : Converses patience s [] s
  | cons {s s₁ s' : Session I386Table} {line : List Char} {lines : List (List Char)}
      {answers : List String} : answer patience s line = .ok (answers, true, s₁) →
      Converses patience s₁ lines s' → Converses patience s (line :: lines) s'

/-- A line is answered, or it is a command that runs the machine, and the run is given up, or a command with
an expression that is to be marked and cannot be. -/
theorem answer_cases (hs : s.machine.Intact capacity) (line : List Char) :
    (∃ answers goesOn s', answer patience s line = .ok (answers, goesOn, s') ∧
      s'.machine.Intact capacity ∧ s'.log.threshold = s.log.threshold) ∨
    ∃ command crash, parse line = .ok (some command) ∧ answer patience s line = .error crash ∧
      ((∃ budget, command.budget? = some budget ∧ s.machine.GivesUp patience budget crash.cause) ∨
        s.log.admits .debug = true ∧ command.Unmarkable ∧ crash.cause = .columnTooWide) := by
  cases hparse : parse line with
  | error err => exact .inl ⟨_, _, s, by rw [answer, hparse], hs, rfl⟩
  | ok command? =>
    cases command? with
    | none => exact .inl ⟨_, _, s, by rw [answer, hparse], hs, rfl⟩
    | some command =>
      have hanswer : answer patience s line = perform patience s command := by rw [answer, hparse]
      rw [hanswer]
      cases hbudget : command.budget? with
      | none =>
        by_cases hmark : s.log.admits .debug = true ∧ command.Unmarkable
        · obtain ⟨log, hperform⟩ := perform_abort hmark.1 hmark.2
          exact .inr ⟨command, _, rfl, hperform, .inr ⟨hmark.1, hmark.2, rfl⟩⟩
        · obtain ⟨answers, goesOn, s', hperform, hintact⟩ := perform_intact hs hbudget hmark
          exact .inl ⟨_, _, s', hperform, hintact, perform_threshold hperform⟩
      | some budget =>
        obtain ⟨answers, s', hperform, hintact⟩ | ⟨crash, hperform, hgives⟩ := perform_run hs hbudget
        · exact .inl ⟨_, _, s', hperform, hintact, perform_threshold hperform⟩
        · exact .inr ⟨command, crash, rfl, hperform, .inl ⟨budget, hbudget, hgives⟩⟩

theorem Converses.intact {lines : List (List Char)} (h : Converses patience s lines s')
    (hs : s.machine.Intact capacity) :
    s'.machine.Intact capacity ∧ s'.log.threshold = s.log.threshold := by
  induction h with
  | nil => exact ⟨hs, rfl⟩
  | @cons s s₁ s' line lines answers hanswer _ ih =>
    obtain ⟨_, _, _, hanswer', hintact, hlog⟩ | ⟨_, _, -, herror, -⟩ := answer_cases hs line
    · cases hanswer.symm.trans hanswer'
      obtain ⟨hs', hlog'⟩ := ih hintact
      exact ⟨hs', hlog'.trans hlog⟩
    · cases hanswer.symm.trans herror

/-- If a use of the monitor crashes, it does so at a line after others that it answered. -/
theorem interact_error {crash : Crash} {output : String} {lines : List (Option (List Char))}
    (h : (interact patience output s lines).ending = .error crash) :
    ∃ before line after s₁, lines = before.map some ++ some line :: after ∧
      Converses patience s before s₁ ∧ answer patience s₁ line = .error crash := by
  induction lines generalizing s output with
  | nil => cases h
  | cons line? lines ih =>
    cases line? with
    | none => cases h
    | some line =>
      rw [interact] at h
      split at h
      next herror =>
        cases h
        exact ⟨[], line, lines, s, rfl, .nil s, herror⟩
      next answers goesOn s₁ hanswer =>
        cases goesOn with
        | false => cases h
        | true =>
          obtain ⟨before, line', after, s₂, rfl, hbefore, herror⟩ := ih h
          exact ⟨line :: before, line', after, s₂, rfl, .cons hanswer hbefore, herror⟩

/-- The expression of a watchpoint fits into its slot, so that it can be marked. -/
theorem not_unmarkable_of_mem {p : Pool} {w : Watchpoint} (hw : w ∈ p.toList) :
    ¬ Expr.Unmarkable w.expr := by
  obtain ⟨i, -, rfl⟩ := List.mem_map.mp hw
  exact Expr.not_unmarkable_of_lt ((p.slot i).expr.byteSize_le.trans_lt (by decide))

/-- Where a use of the monitor can crash. An image that fits is started, with a log of any threshold. After
any lines all commands but those that run the machine are answered, unless debug records are kept and the
command computes an expression that gets stuck so far to the right that it cannot be marked; such a command
aborts. The expressions of watchpoints can always be marked, and the addresses of a dump do not leave the
memory. Otherwise a use of the monitor crashes only in a run, at an access of a guest instruction that leaves
the memory; a run that its caller does not wait for is no crash of the monitor. -/
theorem interact_crash (patience : Nat) (threshold : Option Level) (image : List UInt8)
    (lines : List (Option (List Char))) (hfits : CommandLine.fits image = true) :
    ∃ s, CommandLine.start threshold image = .ok s ∧
      (∀ before s₁, Converses patience s before s₁ →
        s₁.log.threshold = threshold ∧
        s₁.machine.cpu.memory.capacity = CommandLine.memorySize ∧
        (∀ w ∈ s₁.machine.pool.toList, ¬ Expr.Unmarkable w.expr) ∧
        (∀ command : Command, command.budget? = none →
          (s₁.log.admits .debug = true ∧ command.Unmarkable →
            ∃ log, perform patience s₁ command = .error ⟨.columnTooWide, log⟩) ∧
          (¬ (s₁.log.admits .debug = true ∧ command.Unmarkable) →
            ∃ answers goesOn s', perform patience s₁ command = .ok (answers, goesOn, s'))) ∧
        ∀ addr n, 4 * (s₁.machine.examine addr n).size ≤ CommandLine.memorySize ∧
          ∀ i w, (s₁.machine.examine addr n)[i]? = some w →
            w.1.toNat = addr.toNat + 4 * i ∧ addr.toNat + 4 * i + 4 ≤ CommandLine.memorySize) ∧
      ∀ crash, (interact patience "" s lines).ending = .error crash →
        ∃ before line after s₁ command, lines = before.map some ++ some line :: after ∧
          Converses patience s before s₁ ∧ parse line = .ok (some command) ∧
          ((∃ budget, command.budget? = some budget ∧
              s₁.machine.GivesUp patience budget crash.cause) ∨
            s₁.log.admits .debug = true ∧ command.Unmarkable ∧ crash.cause = .columnTooWide) := by
  obtain ⟨s, hstart, hs, hlog⟩ := start_intact threshold hfits
  refine ⟨s, hstart, fun before s₁ hbefore => ?_, fun crash hcrash => ?_⟩
  · obtain ⟨hs₁, hlog₁⟩ := hbefore.intact hs
    refine ⟨hlog₁.trans hlog, hs₁.memory, fun w hw => not_unmarkable_of_mem hw,
      fun command hcommand => ⟨fun h => perform_abort h.1 h.2, fun h => ?_⟩, fun addr n => ?_⟩
    · obtain ⟨answers, goesOn, s', hperform, -⟩ := perform_intact hs₁ hcommand h
      exact ⟨answers, goesOn, s', hperform⟩
    · rw [← hs₁.memory]
      exact s₁.machine.cpu.memory.words_fit addr n
  · obtain ⟨before, line, after, s₁, rfl, hbefore, herror⟩ := interact_error hcrash
    obtain ⟨_, _, _, hanswer, -⟩ | ⟨command, crash', hparse, herror', hcause⟩ :=
      answer_cases (hbefore.intact hs).1 line
    · cases herror.symm.trans hanswer
    · cases herror.symm.trans herror'
      exact ⟨before, line, after, s₁, command, rfl, hbefore, hparse, hcause⟩

/-- Why a use of the monitor crashed, if it did. -/
def Transcript.cause? {τ : Type} (t : Transcript τ) : Option Abort :=
  match t.ending with
  | .ok _ => none
  | .error crash => some crash.cause

theorem Transcript.exists_crash {τ : Type} {t : Transcript τ} {a : Abort} (h : t.cause? = some a) :
    ∃ crash, t.ending = .error crash ∧ crash.cause = a := by
  rw [cause?] at h
  split at h
  next => cases h
  next crash hending => exact ⟨crash, hending, Option.some.inj h⟩

/-- A program that pushes a word below address zero. What the user types before it runs does no harm. -/
theorem interact_crash_push :
    let image : List UInt8 := [0x50]
    let lines := ["w $eip", "d 7", "p \u00E9", "x 18446744073709551615 0x7fffffc",
      "set eax *0xffffffff", "c", "q"].map fun line => some line.toList
    CommandLine.fits image = true ∧ ∃ s crash, CommandLine.start (some .error) image = .ok s ∧
      (∃ answers goesOn s', perform 9 s (.print ['#']) = .ok (answers, goesOn, s')) ∧
      (interact 9 "" s lines).ending = .error crash ∧ crash.cause = .outOfBound 0xFFFFFFFC ∧
      ∃ (s₁ : Session I386Table) (budget : Budget),
        s₁.machine.GivesUp 9 budget (.outOfBound 0xFFFFFFFC) := by
  intro image lines
  have hfits : CommandLine.fits image = true := by decide
  obtain ⟨s, hstart, hanswers, hcrashes⟩ := interact_crash 9 (some .error) image lines hfits
  obtain ⟨hlog, -, -, hcommands, -⟩ := hanswers [] s (.nil s)
  have hquiet : ¬ (s.log.admits .debug = true ∧ (Command.print ['#']).Unmarkable) := by
    rw [Log.admits, hlog]
    exact fun h => absurd h.1 (by decide)
  have hend : ((CommandLine.start (some .error) image).toOption.bind fun s =>
      (interact 9 "" s lines).cause?) = some (.outOfBound 0xFFFFFFFC) := by
    decide +kernel
  rw [hstart] at hend
  obtain ⟨crash, hending, hend⟩ := Transcript.exists_crash hend
  obtain ⟨-, -, -, s₁, command, -, -, -, hcause⟩ := hcrashes crash hending
  rw [hend] at hcause
  -- the push is what crashes, since no mark is asked for
  obtain ⟨budget, -, hgives⟩ | ⟨-, -, hcolumn⟩ := hcause
  · exact ⟨hfits, s, crash, hstart, (hcommands (.print ['#']) rfl).2 hquiet, hending, hend, s₁,
      budget, hgives⟩
  · cases hcolumn

theorem parse_print_blanks (n : Nat) :
    parse ("p 1".toList ++ List.replicate n ' ' ++ ['@']) =
      .ok (some (.print ('1' :: (List.replicate n ' ' ++ ['@'])))) := by
  have htidy : Text.Tidy ('1' :: (List.replicate n ' ' ++ ['@'])) := by
    refine ⟨List.cons_ne_nil _ _, fun c hc => ?_, fun c hc => ?_⟩
    · cases hc
      decide
    · rw [← List.cons_append, List.getLast?_concat] at hc
      cases hc
      decide
  have hrow : Text.Row ["p".toList, '1' :: (List.replicate n ' ' ++ ['@'])]
      ("p".toList ++ [' '] ++ '1' :: (List.replicate n ' ' ++ ['@'])) :=
    .cons (by decide) (by decide) (List.cons_ne_nil _ _) (.last _)
  have hspread : Text.Spread ((Command.print ('1' :: (List.replicate n ' ' ++ ['@']))).parts 0)
      ("p 1".toList ++ List.replicate n ' ' ++ ['@']) :=
    ⟨[], _, [], by decide, hrow, by decide, by simp⟩
  exact Command.Normal.parse_spread htidy trivial hspread

theorem stuckAt_numeral_blanks {n : Nat} (hn : n ≠ 0) :
    Expr.StuckAt ('1' :: (List.replicate n ' ' ++ ['@'])) (n + 1) := by
  have hdigit : Expr.Run Char.isDigit ['1'] := by decide
  have hnumeral : Expr.Rule.decimal.Matches ['1'] := hdigit
  have hblank := (Expr.blank_replicate n).append_atBlank (by simpa using hn) ['@']
  have hcuts : Expr.Cuts (List.replicate n ' ' ++ ['@']) [(.blank, List.replicate n ' ')] ['@'] :=
    Expr.cuts_blanks hn fun c hc => by
      cases hc
      decide
  have hstuck : Expr.Stuck ['@'] := Expr.first?_eq_none_iff.mp (by decide +kernel)
  refine ⟨_, _, .cons (hnumeral.takes (by decide) hblank) hcuts, by decide, hstuck,
    show 1 ≤ 32 by decide, ?_⟩
  rw [List.flatMap_cons, List.flatMap_singleton, Text.byteSize_append, Expr.byteSize_blanks, Nat.add_comm]
  rfl

/-- With debug records, the number, the blanks and the character that starts no lexeme cannot be marked. -/
theorem interact_blanks {n : Nat} (hlog : s.log.admits .debug = true) (hn : UInt16.size ≤ n + 2) :
    ∃ log, (interact patience "" s [some ("p 1".toList ++ List.replicate n ' ' ++ ['@'])]).ending =
      .error ⟨.columnTooWide, log⟩ := by
  have hsize : UInt16.size = 65536 := rfl
  have hmark : (Command.print ('1' :: (List.replicate n ' ' ++ ['@']))).Unmarkable :=
    ⟨_, rfl, Expr.unmarkable_iff.mpr ⟨n + 1, stuckAt_numeral_blanks (by omega), hn⟩⟩
  obtain ⟨log, hperform⟩ : ∃ log, perform patience s (.print ('1' :: (List.replicate n ' ' ++ ['@']))) =
      .error ⟨.columnTooWide, log⟩ := perform_abort hlog hmark
  refine ⟨log, ?_⟩
  rw [interact, answer, parse_print_blanks]
  simp only [hperform]

/-- With debug records the monitor crashes at a line that asks for the value of a number, many blanks and a
character that starts no lexeme. -/
theorem interact_crash_mark :
    let line := "p 1".toList ++ List.replicate 65534 ' ' ++ ['@']
    ∃ s crash, CommandLine.start (some .debug) [0x90] = .ok s ∧
      (interact 9 "" s [some line]).ending = .error crash ∧ crash.cause = .columnTooWide := by
  intro line
  have hfits : CommandLine.fits [0x90] = true := by decide
  obtain ⟨s, hstart, -, hlog⟩ := start_intact (some .debug) hfits
  have hdebug : s.log.admits .debug = true := by
    rw [Log.admits, hlog]
    rfl
  obtain ⟨log, hending⟩ : ∃ log, (interact 9 "" s [some line]).ending = .error ⟨.columnTooWide, log⟩ :=
    interact_blanks hdebug le_rfl
  exact ⟨s, ⟨.columnTooWide, log⟩, hstart, hending, rfl⟩

end Shell

end Monitor386
