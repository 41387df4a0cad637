import Monitor386.Session
import Monitor386.Shell.Command
import Monitor386.Shell.Input

/-!
# The interactive monitor

The monitor prints a prompt, reads a line, executes its command and prints the answer, until it is
told to quit or the input ends. An answer is a list of lines.
-/

namespace Monitor386.Shell

def prompt : String := "(nemu) "

/-! ## Answers -/

/-- What the monitor prints when a run comes to its end. -/
def outcomeLines : Outcome → List String
  | .exhausted | .breakpoint => []
  | .watchpoint hit =>
    [s!"Hit watchpoint {hit.no}: " ++ String.ofList hit.expr,
      "Old value = " ++ Text.hexWord hit.old, "New value = " ++ Text.hexWord hit.new]
  | .interrupted => ["Interrupted"]
  | .fault cause => ["Emulation stopped: " ++ cause.message]
  | .ended => ["Program ended"]
  | .cannotContinue =>
    ["Program execution has ended. To restart the program, exit NEMU and run again."]

def helpLine (verb : Verb) : String :=
  verb.word ++ " - " ++ verb.description

/-- The help on all commands or on one. -/
def helpLines : Option (List Char) → List String
  | none => Verb.all.map helpLine
  | some topic =>
    match Verb.ofChars? topic with
    | some verb => [helpLine verb, "Usage: " ++ verb.usage]
    | none => [(CommandError.unknown topic).message]

/-- A register with its value; a general register also shows it in decimal. -/
def registerLine (name : String) (value : UInt32) (decimal : Bool) : String :=
  Text.alignLeft 8 name ++ Text.hexWord value ++ if decimal then s!"  {value.toNat}" else ""

def registerLines (r : Registers) : List String :=
  ((List.finRange 8).map fun i =>
    registerLine (RegisterName.full.getD i.val "") (r.get i .full) true) ++
    [registerLine "eip" r.eip false, registerLine "eflags" r.eflags.word false]

/-- A row of the table of watchpoints. -/
def watchRow (no expr value : String) : String :=
  Text.alignLeft 4 no ++ Text.alignLeft 40 expr ++ value

def noWatchpoints : String := "No watchpoints"

def watchLines (p : Pool) : List String :=
  if p.isEmpty then [noWatchpoints]
  else watchRow "Num" "What" "Value" :: p.toList.map fun w =>
    watchRow s!"{w.no}" (String.ofList w.expr) (Text.hexWord w.value)

/-- The words of a dump, and a last line if there are fewer than `n`. -/
def examineLines (addr : UInt32) (n : Nat) (words : Array (UInt32 × UInt32)) : List String :=
  let lines := words.toList.map fun (addr, w) => Text.hexWord addr ++ ":  " ++ Text.hexWord w
  if words.size < n then
    lines ++ ["Cannot access memory at address " ++
      Text.hexWord (addr + 4 * UInt32.ofNat words.size)]
  else lines

def badExpression (e : Expr.Error) : String :=
  "Bad expression: " ++ e.message

/-! ## Commands -/

variable {τ : Type} [InstructionTable τ]

/-- Executes a command. Gives the answer, and whether the monitor goes on. -/
def perform (patience : Nat) (s : Session τ) :
    Command → Except Crash (List String × Bool × Session τ)
  | .help topic => .ok (helpLines topic, true, s)
  | .resume => do
    let (outcome, s) ← s.exec patience .unlimited
    pure (outcomeLines outcome, true, s)
  | .quit => .ok ([], false, s)
  | .step n => do
    let (outcome, s) ← s.exec patience (.ofNat n)
    pure (outcomeLines outcome, true, s)
  | .infoRegisters => .ok (registerLines s.machine.cpu.registers, true, s)
  | .infoWatchpoints => .ok (watchLines s.machine.pool, true, s)
  | .print e => do
    let (r, s) ← s.eval e
    pure ([match r with
      | .ok value => Text.hexWord value ++ s!"  {value.toNat}"
      | .error err => badExpression err], true, s)
  | .examine n e => do
    let (r, s) ← s.eval e
    pure (match r with
      | .ok addr => examineLines addr n (s.machine.examine addr n)
      | .error err => [badExpression err], true, s)
  | .watch e => do
    let (r, s) ← s.watch e
    pure ([match r with
      | .ok w => s!"Watchpoint {w.no}: " ++ String.ofList w.expr
      | .error err => "Cannot set watchpoint: " ++ err.message], true, s)
  | .delete no =>
    if s.machine.pool.isEmpty then .ok ([noWatchpoints], true, s)
    else do
      let (r, s) ← s.delete no
      pure (match r with
        | .ok () => []
        | .error err => [err.message], true, s)
  | .set register e => do
    match ← s.eval e with
    | (.error err, s) => pure ([badExpression err], true, s)
    | (.ok value, s) =>
      let (r, s) := s.setRegister (String.ofList register) value
      pure (match r with
        | .ok () => []
        | .error err => [err.message], true, s)

/-- Answers a line. -/
def answer (patience : Nat) (s : Session τ) (line : List Char) :
    Except Crash (List String × Bool × Session τ) :=
  match parse line with
  | .ok (some command) => perform patience s command
  | .ok none => .ok ([], true, s)
  | .error err => .ok ([err.message], true, s)

/-! ## The loop -/

/-- The lines as they are printed. -/
def printed (lines : List String) : String :=
  lines.foldl (fun out line => out ++ line ++ "\n") ""

/-- What a use of the monitor printed, and how it came to its end. -/
structure Transcript (τ : Type) where
  output : String
  ending : Except Crash (Session τ)

/-- Answers lines until a command quits, the input ends or a line has no text. `output` is what
was printed before. -/
def interact (patience : Nat) (output : String) (s : Session τ) :
    List (Option (List Char)) → Transcript τ
  | [] | none :: _ => ⟨output ++ prompt, .ok s⟩
  | some line :: lines =>
    let output := output ++ prompt
    match answer patience s line with
    | .error crash => ⟨output, .error crash⟩
    | .ok (answers, goesOn, s) =>
      let output := output ++ printed answers
      if goesOn then interact patience output s lines else ⟨output, .ok s⟩

/-- Runs the program without the monitor. -/
def batch (patience : Nat) (s : Session τ) : Transcript τ :=
  match s.exec patience .unlimited with
  | .error crash => ⟨"", .error crash⟩
  | .ok (outcome, s) => ⟨printed (outcomeLines outcome), .ok s⟩

end Monitor386.Shell
