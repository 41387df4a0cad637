import Mathlib
import Monitor386.Proofs.Machine.Keeping
import Monitor386.Proofs.Shell.Logging

/-!
# Lines that leave no trace

Lines that only inspect the machine, and lines that fail, can be left out of what a user types: the
machine comes out the same, and so do the answers to the other lines.

* `performs_of_perform`, `Performs.perform_eq`, `answer_of_answer`: a command is answered by the machine,
  whatever was logged before.
* `Performs.of_idle`: a command that inspects or fails leaves the machine as it is.
* `converse_essential`: the lines that do something converse like all of them.
* `interact_essential`: so they do in the loop of the monitor.
-/

namespace Monitor386

namespace Shell

open Machine (Op LaidOut)

variable {τ : Type}

/-! ## Lines that leave no trace -/

/-- True of the commands that only look at the machine, and of those that fail on it. -/
def Command.idle (m : Machine τ) : Command → Bool
  | help _ | infoRegisters | infoWatchpoints | print _ | examine .. => true
  | resume | quit | step _ => false
  | watch e =>
    match m.watch e with
    | .ok (.error _, _) => true
    | _ => false
  | delete no =>
    m.pool.isEmpty ||
      match m.delete no with
      | .ok (.error _, _) => true
      | _ => false
  | set register e =>
    match m.eval e with
    | .error _ => true
    | .ok value => !(m.setRegister (String.ofList register) value).isOk

/-- True of the blank lines, of those that are no command, and of those with an idle command. -/
def idle (m : Machine τ) (line : List Char) : Bool :=
  match parse line with
  | .error _ | .ok none => true
  | .ok (some command) => command.idle m

/-! ## Talks -/

/-- A line with the machine that answered it, and what was printed. -/
structure Exchange (τ : Type) where
  machine : Machine τ
  line : List Char
  answers : List String

/-- A use of the monitor, line by line. -/
structure Talk (τ : Type) where
  exchanges : List (Exchange τ)
  /-- True if a command put an end to it. -/
  quit : Bool
  /-- The input that was not read. -/
  unread : List (Option (List Char))
  session : Session τ

namespace Talk

/-- The lines that were typed. -/
def script (t : Talk τ) : List (Option (List Char)) :=
  t.exchanges.map (fun e => some e.line) ++ t.unread

/-- What was printed. -/
def output (t : Talk τ) : String :=
  t.exchanges.foldr (fun e rest => prompt ++ printed e.answers ++ rest) (if t.quit then "" else prompt)

/-- The talk without the lines that leave no trace. -/
def essential (t : Talk τ) : Talk τ :=
  { t with exchanges := t.exchanges.filter fun e => !idle e.machine e.line }

theorem output_cons (e : Exchange τ) (t : Talk τ) :
    ({ t with exchanges := e :: t.exchanges } : Talk τ).output =
      prompt ++ printed e.answers ++ t.output :=
  rfl

theorem essential_cons_of_idle {e : Exchange τ} (h : idle e.machine e.line = true) (t : Talk τ) :
    ({ t with exchanges := e :: t.exchanges } : Talk τ).essential = t.essential := by
  rw [essential, List.filter_cons_of_neg (by simp [h])]
  rfl

theorem essential_cons {e : Exchange τ} (h : ¬ idle e.machine e.line = true) (t : Talk τ) :
    ({ t with exchanges := e :: t.exchanges } : Talk τ).essential =
      { t.essential with exchanges := e :: t.essential.exchanges } := by
  rw [essential, List.filter_cons_of_pos (by simp [h])]
  rfl

end Talk

variable {patience : Nat} {s s' : Session τ} {m' : Machine τ} {command : Command}
  {answers : List String} {goesOn : Bool}

variable [InstructionTable τ]

/-! ## Commands -/

/-- What a command prints and does to the machine, and whether the monitor goes on. -/
inductive Performs (patience : Nat) (m : Machine τ) :
    Command → List String → Bool → Machine τ → Prop where
  | help (topic : Option (List Char)) : Performs patience m (.help topic) (helpLines topic) true m
  | quit : Performs patience m .quit [] false m
  | resume {outcome : Outcome} {m' : Machine τ} :
      (m.exec (fun seen _ => seen) patience .unlimited ()).2 = .ok (outcome, m') →
      Performs patience m .resume (outcomeLines outcome) true m'
  | step {n : Nat} {outcome : Outcome} {m' : Machine τ} :
      (m.exec (fun seen _ => seen) patience (.ofNat n) ()).2 = .ok (outcome, m') →
      Performs patience m (.step n) (outcomeLines outcome) true m'
  | infoRegisters : Performs patience m .infoRegisters (registerLines m.cpu.registers) true m
  | infoWatchpoints : Performs patience m .infoWatchpoints (watchLines m.pool) true m
  | print {e : List Char} {value : UInt32} : m.eval e = .ok value →
      Performs patience m (.print e) [Text.hexWord value ++ s!"  {value.toNat}"] true m
  | printBad {e : List Char} {err : Expr.Error} : m.eval e = .error err →
      Performs patience m (.print e) [badExpression err] true m
  | examine {n : Nat} {e : List Char} {addr : UInt32} : m.eval e = .ok addr →
      Performs patience m (.examine n e) (examineLines addr n (m.examine addr n)) true m
  | examineBad {n : Nat} {e : List Char} {err : Expr.Error} : m.eval e = .error err →
      Performs patience m (.examine n e) [badExpression err] true m
  | watch {e : List Char} {w : Watchpoint} {m' : Machine τ} : m.watch e = .ok (.ok w, m') →
      Performs patience m (.watch e) [s!"Watchpoint {w.no}: " ++ String.ofList w.expr] true m'
  | watchFailed {e : List Char} {err : WatchError} {m' : Machine τ} :
      m.watch e = .ok (.error err, m') →
      Performs patience m (.watch e) ["Cannot set watchpoint: " ++ err.message] true m'
  | deleteNone {no : Nat} : m.pool.isEmpty = true →
      Performs patience m (.delete no) [noWatchpoints] true m
  | delete {no : Nat} {m' : Machine τ} : m.pool.isEmpty = false →
      m.delete no = .ok (.ok (), m') → Performs patience m (.delete no) [] true m'
  | deleteFailed {no : Nat} {err : WatchError} {m' : Machine τ} : m.pool.isEmpty = false →
      m.delete no = .ok (.error err, m') → Performs patience m (.delete no) [err.message] true m'
  | set {register e : List Char} {value : UInt32} {m' : Machine τ} : m.eval e = .ok value →
      m.setRegister (String.ofList register) value = .ok m' →
      Performs patience m (.set register e) [] true m'
  | setBad {register e : List Char} {err : Expr.Error} : m.eval e = .error err →
      Performs patience m (.set register e) [badExpression err] true m
  | setUnknown {register e : List Char} {value : UInt32} {err : UnknownRegister} :
      m.eval e = .ok value → m.setRegister (String.ofList register) value = .error err →
      Performs patience m (.set register e) [err.message] true m

/-- A command that is answered does to the machine what it performs. -/
theorem performs_of_perform (h : perform patience s command = .ok (answers, goesOn, s')) :
    Performs patience s.machine command answers goesOn s'.machine := by
  cases command with
  -- commands that look at the session or end it
  | help topic =>
    cases h
    exact .help topic
  | quit =>
    cases h
    exact .quit
  | infoRegisters =>
    cases h
    exact .infoRegisters
  | infoWatchpoints =>
    cases h
    exact .infoWatchpoints
  -- commands that run the machine
  | resume =>
    obtain ⟨⟨outcome, s₂⟩, hexec, h⟩ := bind_eq_ok.mp h
    cases h
    exact .resume (Session.exec_iff.mp ⟨_, hexec⟩)
  | step n =>
    obtain ⟨⟨outcome, s₂⟩, hexec, h⟩ := bind_eq_ok.mp h
    cases h
    exact .step (Session.exec_iff.mp ⟨_, hexec⟩)
  -- commands that compute an expression, with a value or an error
  | print e =>
    obtain ⟨⟨r, s₂⟩, heval, h⟩ := bind_eq_ok.mp h
    obtain ⟨-, hvalue, rfl⟩ := Session.eval_eq_ok.mp heval
    cases h
    cases r with
    | error err => exact .printBad hvalue.symm
    | ok value => exact .print hvalue.symm
  | examine n e =>
    obtain ⟨⟨r, s₂⟩, heval, h⟩ := bind_eq_ok.mp h
    obtain ⟨-, hvalue, rfl⟩ := Session.eval_eq_ok.mp heval
    cases h
    cases r with
    | error err => exact .examineBad hvalue.symm
    | ok addr => exact .examine hvalue.symm
  | set register e =>
    obtain ⟨⟨r, s₂⟩, heval, h⟩ := bind_eq_ok.mp h
    obtain ⟨-, hvalue, rfl⟩ := Session.eval_eq_ok.mp heval
    cases r with
    | error err =>
      cases h
      exact .setBad hvalue.symm
    | ok value =>
      simp only [Session.setRegister] at h
      cases hset : s.machine.setRegister (String.ofList register) value <;> rw [hset] at h <;> cases h
      · exact .setUnknown hvalue.symm hset
      · exact .set hvalue.symm hset
  -- commands on watchpoints
  | watch e =>
    obtain ⟨⟨r, s₂⟩, hwatch, h⟩ := bind_eq_ok.mp h
    have hmachine := Session.watch_iff.mp ⟨_, hwatch⟩
    cases r <;> cases h
    · exact .watchFailed hmachine
    · exact .watch hmachine
  | delete no =>
    simp only [perform] at h
    split at h
    next hempty =>
      cases h
      exact .deleteNone hempty
    next hempty =>
      obtain ⟨⟨r, s₂⟩, hdelete, h⟩ := bind_eq_ok.mp h
      have hmachine := Session.delete_iff.mp ⟨_, hdelete⟩
      cases r <;> cases h
      · exact .deleteFailed (Bool.eq_false_iff.mpr hempty) hmachine
      · exact .delete (Bool.eq_false_iff.mpr hempty) hmachine

/-- What a command performs is answered, whatever was logged before, if its expression can be marked. -/
theorem Performs.perform_eq (h : Performs patience s.machine command answers goesOn m')
    (hmark : ¬ (s.log.admits .debug = true ∧ command.Unmarkable)) :
    ∃ log, perform patience s command = .ok (answers, goesOn, ⟨m', log⟩) := by
  -- an expression that can be marked has its value whatever the log keeps
  have heval : ∀ e ∈ command.expression?, s.eval e =
      .ok (s.machine.eval e, { s with log := s.log.addTexts .debug (Expr.records e) }) :=
    fun e he => Session.eval_ok fun h => hmark ⟨h.1, e, he, h.2⟩
  cases h with
  | help | quit | infoRegisters | infoWatchpoints => exact ⟨s.log, rfl⟩
  | resume hexec | step hexec =>
    obtain ⟨log, hexec⟩ := Session.exec_iff.mpr hexec
    exact ⟨log, bind_eq_ok.mpr ⟨_, hexec, rfl⟩⟩
  | print hvalue | printBad hvalue | examine hvalue | examineBad hvalue | setBad hvalue =>
    have heval := heval _ rfl
    rw [hvalue] at heval
    exact ⟨_, bind_eq_ok.mpr ⟨_, heval, rfl⟩⟩
  | watch hwatch | watchFailed hwatch =>
    obtain ⟨log, hwatch⟩ := Session.watch_iff.mpr hwatch
    exact ⟨log, bind_eq_ok.mpr ⟨_, hwatch, rfl⟩⟩
  | deleteNone hempty => exact ⟨s.log, by simp only [perform, hempty, ↓reduceIte]⟩
  | delete hempty hdelete | deleteFailed hempty hdelete =>
    obtain ⟨log, hdelete⟩ := Session.delete_iff.mpr hdelete
    simp only [perform, hempty, Bool.false_eq_true, ↓reduceIte]
    exact ⟨log, bind_eq_ok.mpr ⟨_, hdelete, rfl⟩⟩
  | set hvalue hset | setUnknown hvalue hset =>
    have heval := heval _ rfl
    rw [hvalue] at heval
    simp only [perform, heval, ok_bind, Session.setRegister, hset]
    exact ⟨_, rfl⟩

theorem runAll_single {m : Machine τ} {op : Op} {o : Option Outcome}
    (h : op.run m = .ok (o, m')) : m.runAll [op] = .ok m' :=
  bind_eq_ok.mpr ⟨_, h, rfl⟩

/-- A command is one operation of the machine or none. -/
theorem Performs.exists_ops {m : Machine τ} (h : Performs patience m command answers goesOn m') :
    ∃ ops, m.runAll ops = .ok m' := by
  cases h with
  | resume hexec | step hexec =>
    exact ⟨[.exec patience _], runAll_single (bind_eq_ok.mpr ⟨_, hexec, rfl⟩)⟩
  | watch hwatch | watchFailed hwatch =>
    exact ⟨[.watch _], runAll_single (bind_eq_ok.mpr ⟨_, hwatch, rfl⟩)⟩
  | delete _ hdelete | deleteFailed _ hdelete =>
    exact ⟨[.delete _], runAll_single (bind_eq_ok.mpr ⟨_, hdelete, rfl⟩)⟩
  | @set register _ value _ _ hset =>
    have hop : (Op.setRegister (String.ofList register) value).run m = .ok (none, m') := by
      rw [Op.run, hset]
      rfl
    exact ⟨_, runAll_single hop⟩
  | _ => exact ⟨[], rfl⟩

/-! ## Lines -/

/-- A command that inspects or fails leaves the machine as it is, and the monitor goes on. -/
theorem Performs.of_idle {m : Machine τ} (hm : m.LaidOut)
    (h : Performs patience m command answers goesOn m') (hidle : command.idle m = true) :
    goesOn = true ∧ m' = m := by
  cases h with
  | quit | resume | step => cases hidle
  | watch hwatch =>
    rw [Command.idle, hwatch] at hidle
    cases hidle
  | watchFailed hwatch => exact ⟨rfl, hm.watch_error hwatch⟩
  | delete hempty hdelete =>
    rw [Command.idle, hempty, hdelete] at hidle
    cases hidle
  | deleteFailed _ hdelete => exact ⟨rfl, hm.delete_error hdelete⟩
  | set heval hset =>
    rw [Command.idle, heval] at hidle
    simp only [hset] at hidle
    cases hidle
  | _ => exact ⟨rfl, rfl⟩

/-- What a line prints and does to the machine. -/
inductive Answers (patience : Nat) (m : Machine τ) :
    List Char → List String → Bool → Machine τ → Prop where
  | blank {line : List Char} : parse line = .ok none → Answers patience m line [] true m
  | rejected {line : List Char} {err : CommandError} : parse line = .error err →
      Answers patience m line [err.message] true m
  | command {line : List Char} {command : Command} {answers : List String} {goesOn : Bool}
      {m' : Machine τ} : parse line = .ok (some command) →
      Performs patience m command answers goesOn m' → Answers patience m line answers goesOn m'

theorem answers_of_answer {line : List Char}
    (h : answer patience s line = .ok (answers, goesOn, s')) :
    Answers patience s.machine line answers goesOn s'.machine := by
  rw [answer] at h
  split at h
  next hparse => exact .command hparse (performs_of_perform h)
  next hparse =>
    cases h
    exact .blank hparse
  next hparse =>
    cases h
    exact .rejected hparse

/-- A line is answered by the machine. What was logged before matters only for what is logged. -/
theorem answer_of_answer {line : List Char} {log : Log}
    (h : answer patience s line = .ok (answers, goesOn, s')) (hlog : log.threshold = s.log.threshold) :
    ∃ log', answer patience ⟨s.machine, log⟩ line = .ok (answers, goesOn, ⟨s'.machine, log'⟩) ∧
      log'.threshold = s'.log.threshold := by
  have hanswer : ∃ log', answer patience ⟨s.machine, log⟩ line =
      .ok (answers, goesOn, ⟨s'.machine, log'⟩) := by
    rw [answer] at h
    rw [answer]
    split at h
    next command _ =>
      refine (performs_of_perform h).perform_eq (s := ⟨s.machine, log⟩) ?_
      rw [Log.admits_congr hlog]
      exact markable_of_perform h
    next =>
      cases h
      exact ⟨log, rfl⟩
    next =>
      cases h
      exact ⟨log, rfl⟩
  obtain ⟨log', h'⟩ := hanswer
  exact ⟨log', h', (answer_threshold h').trans (hlog.trans (answer_threshold h).symm)⟩

theorem Answers.laidOut {m : Machine τ} {line : List Char} (hm : m.LaidOut)
    (h : Answers patience m line answers goesOn m') : m'.LaidOut := by
  cases h with
  | blank | rejected => exact hm
  | command _ h =>
    obtain ⟨ops, hops⟩ := h.exists_ops
    exact hm.runAll hops

theorem Answers.of_idle {m : Machine τ} {line : List Char} (hm : m.LaidOut)
    (h : Answers patience m line answers goesOn m') (hidle : idle m line = true) :
    goesOn = true ∧ m' = m := by
  cases h with
  | blank | rejected => exact ⟨rfl, rfl⟩
  | command hparse h =>
    rw [idle, hparse] at hidle
    exact h.of_idle hm hidle

/-! ## What is said -/

/-- Answers lines as `interact` does, and notes each of them. -/
def converse (patience : Nat) (s : Session τ) :
    List (Option (List Char)) → Except Crash (Talk τ)
  | [] => .ok ⟨[], false, [], s⟩
  | none :: lines => .ok ⟨[], false, none :: lines, s⟩
  | some line :: lines => do
    let (answers, goesOn, s') ← answer patience s line
    let exchange : Exchange τ := ⟨s.machine, line, answers⟩
    if goesOn then
      let talk ← converse patience s' lines
      pure { talk with exchanges := exchange :: talk.exchanges }
    else pure ⟨[exchange], true, lines, s'⟩

variable {t : Talk τ} {lines : List (Option (List Char))}

theorem converse_script (h : converse patience s lines = .ok t) : t.script = lines := by
  induction lines generalizing s t with
  | nil =>
    cases h
    rfl
  | cons line? lines ih =>
    cases line? with
    | none =>
      cases h
      rfl
    | some line =>
      obtain ⟨⟨answers, goesOn, s'⟩, -, h⟩ := bind_eq_ok.mp h
      cases goesOn with
      | false =>
        cases h
        rfl
      | true =>
        obtain ⟨talk, htalk, h⟩ := bind_eq_ok.mp h
        cases h
        exact congrArg (some line :: ·) (ih htalk)

/-- What the loop of the monitor prints is what the talk says. -/
theorem interact_eq (h : converse patience s lines = .ok t) (output : String) :
    interact patience output s lines = ⟨output ++ t.output, .ok t.session⟩ := by
  induction lines generalizing s t output with
  | nil =>
    cases h
    rfl
  | cons line? lines ih =>
    cases line? with
    | none =>
      cases h
      rfl
    | some line =>
      obtain ⟨⟨answers, goesOn, s'⟩, hanswer, h⟩ := bind_eq_ok.mp h
      cases goesOn with
      | false =>
        cases h
        simp only [interact, hanswer, Bool.false_eq_true, ↓reduceIte, Talk.output, List.foldr_cons,
          List.foldr_nil, String.append_empty, String.append_assoc]
      | true =>
        obtain ⟨talk, htalk, h⟩ := bind_eq_ok.mp h
        cases h
        simp only [interact, hanswer, ↓reduceIte, ih htalk, Talk.output_cons, String.append_assoc]

theorem interact_crashes {crash : Crash} (h : converse patience s lines = .error crash)
    (output : String) : (interact patience output s lines).ending = .error crash := by
  induction lines generalizing s output with
  | nil => cases h
  | cons line? lines ih =>
    cases line? with
    | none => cases h
    | some line =>
      obtain hanswer | ⟨⟨answers, goesOn, s'⟩, hanswer, h⟩ := bind_eq_error.mp h
      · simp only [interact, hanswer]
      · cases goesOn with
        | false => cases h
        | true =>
          obtain htalk | ⟨talk, -, h⟩ := bind_eq_error.mp h
          · simp only [interact, hanswer, ↓reduceIte, ih htalk]
          · cases h

theorem exists_converse {output : String}
    (h : (interact patience output s lines).ending = .ok s') :
    ∃ t, converse patience s lines = .ok t ∧ t.session = s' := by
  cases hconverse : converse patience s lines with
  | error crash => cases h.symm.trans (interact_crashes hconverse output)
  | ok t =>
    rw [interact_eq hconverse] at h
    exact ⟨t, rfl, Except.ok.inj h⟩

/-! ## Leaving lines out -/

/-- The lines that do something converse like all of them, whatever was logged before. -/
theorem converse_essential {m : Machine τ} {log log₁ : Log} (hm : m.LaidOut)
    (h : converse patience ⟨m, log⟩ lines = .ok t) (hlog : log₁.threshold = log.threshold) :
    ∃ log', converse patience ⟨m, log₁⟩ t.essential.script =
      .ok { t.essential with session := ⟨t.session.machine, log'⟩ } := by
  -- by induction on the lines, with a log of its own for the lines that do something
  induction lines generalizing m log log₁ t with
  | nil =>
    cases h
    exact ⟨log₁, rfl⟩
  | cons line? lines ih =>
    cases line? with
    | none =>
      cases h
      exact ⟨log₁, rfl⟩
    | some line =>
      obtain ⟨⟨answers, goesOn, s'⟩, hanswer, h⟩ := bind_eq_ok.mp h
      have hanswers := answers_of_answer hanswer
      obtain ⟨log₂, hanswer₁, hlog₂⟩ := answer_of_answer hanswer hlog
      cases goesOn with
      | false =>
        cases h
        -- the line that quits is not idle
        have hidle : ¬ idle m line = true := fun hidle => by
          cases (hanswers.of_idle hm hidle).1
        rw [Talk.essential_cons hidle ⟨[], true, lines, s'⟩]
        exact ⟨log₂, bind_eq_ok.mpr ⟨_, hanswer₁, rfl⟩⟩
      | true =>
        obtain ⟨talk, htalk, h⟩ := bind_eq_ok.mp h
        cases h
        obtain ⟨m₁, log'⟩ := s'
        by_cases hidle : idle m line = true
        · -- an idle line is left out, and leaves the machine and the threshold as they are
          obtain ⟨-, rfl⟩ : true = true ∧ m₁ = m := hanswers.of_idle hm hidle
          rw [Talk.essential_cons_of_idle hidle]
          exact ih hm htalk (hlog.trans (answer_threshold hanswer).symm)
        · obtain ⟨log₃, htalk₁⟩ := ih (hanswers.laidOut hm) htalk hlog₂
          rw [Talk.essential_cons hidle]
          exact ⟨log₃, bind_eq_ok.mpr ⟨_, hanswer₁, bind_eq_ok.mpr ⟨_, htalk₁, rfl⟩⟩⟩

/-- Lines that leave no trace can be left out. A machine that came about in any way is handed to the
monitor, and the monitor comes to its end. If the lines that are blank or no command, those that only
inspect the machine and those that fail are taken away before the one that quits, then the machine is
the same in the end, and each of the other lines finds the same machine and prints the same. -/
theorem interact_essential (patience : Nat) (output : String) (capacity : Nat) (table : τ)
    (line : StopLine) (ops : List Op) (s s' : Session τ) (lines : List (Option (List Char)))
    (hops : Machine.runAll (.create capacity table line) ops = .ok s.machine)
    (h : (interact patience output s lines).ending = .ok s') :
    ∃ t s'', converse patience s lines = .ok t ∧ t.script = lines ∧ t.session = s' ∧
      interact patience output s lines = ⟨output ++ t.output, .ok s'⟩ ∧
      s''.machine = s'.machine ∧
      converse patience s t.essential.script = .ok { t.essential with session := s'' } ∧
      interact patience output s t.essential.script = ⟨output ++ t.essential.output, .ok s''⟩ := by
  have hs : s.machine.LaidOut := (Machine.create_laidOut capacity table line).runAll hops
  obtain ⟨t, ht, rfl⟩ := exists_converse h
  obtain ⟨log', hessential⟩ := converse_essential hs ht rfl
  exact ⟨t, ⟨t.session.machine, log'⟩, ht, converse_script ht, rfl, interact_eq ht output, rfl,
    hessential, interact_eq hessential output⟩

/-- Of fourteen lines five do something, the one after the end among them. The others are of every kind
that leaves no trace. -/
theorem interact_essential_failures :
    let lines := ["", "bogus", "p 1", "w 1/0", "d 7", "set foo 1", "set eax 5", "info r", "w $eax",
      "d 9", "x 2 $eip", "si", "q", "p 2"].map fun line => some line.toList
    ∃ (s s' s'' : Session I386Table) (t : Talk I386Table),
      Machine.runAll (.create 0x100010 {} .idle) [.loadImage [0x40, 0x90, 0xd6]] = .ok s.machine ∧
      (interact 9 "" s lines).ending = .ok s' ∧ s''.machine = s'.machine ∧
      t.essential.script = ["set eax 5", "w $eax", "si", "q", "p 2"].map (fun l => some l.toList) ∧
      interact 9 "" s t.essential.script = ⟨t.essential.output, .ok s''⟩ := by
  intro lines
  let script (m : Machine I386Table) : Option (List (Option (List Char))) :=
    (converse 9 ⟨m, ⟨none, #[]⟩⟩ lines).toOption.map fun t => t.essential.script
  have hscript : ((Machine.create 0x100010 ({} : I386Table) .idle).runAll
      [.loadImage [0x40, 0x90, 0xd6]]).toOption.bind script =
      some (["set eax 5", "w $eax", "si", "q", "p 2"].map fun l => some l.toList) := by
    decide +kernel
  obtain ⟨m, hm, hscript⟩ := Option.bind_eq_some_iff.mp hscript
  obtain ⟨t, ht, hscript⟩ := Option.map_eq_some_iff.mp hscript
  have ht : converse 9 ⟨m, ⟨none, #[]⟩⟩ lines = .ok t := eq_ok_of_toOption ht
  have hops := eq_ok_of_toOption hm
  have hending : (interact 9 "" ⟨m, ⟨none, #[]⟩⟩ lines).ending = .ok t.session := by
    rw [interact_eq ht]
  obtain ⟨t', s'', ht', -, -, -, hmachine, -, hessential⟩ :=
    interact_essential 9 "" 0x100010 {} .idle [.loadImage [0x40, 0x90, 0xd6]] ⟨m, ⟨none, #[]⟩⟩ t.session
      lines hops hending
  cases ht.symm.trans ht'
  rw [String.empty_append] at hessential
  exact ⟨_, t.session, s'', t, hops, hending, hmachine, hscript, hessential⟩

end Shell

end Monitor386
