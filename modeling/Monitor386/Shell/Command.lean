import Monitor386.Text.Blank
import Monitor386.Text.Numeral

/-!
# Commands of the monitor

A line is a command word and its arguments, with blanks between them and around them. `parse`
reads a line; a line without a word is no command and no error.
-/

namespace Monitor386.Shell

/-- The command words. -/
inductive Verb where
  | help
  | resume
  | quit
  | step
  | info
  | print
  | examine
  | watch
  | delete
  | set
  deriving DecidableEq, Repr

namespace Verb

/-- The command words in the order in which the help lists them. -/
def all : List Verb :=
  [help, resume, quit, step, info, print, examine, watch, delete, set]

/-- How the command is typed. -/
def word : Verb → String
  | help => "help"
  | resume => "c"
  | quit => "q"
  | step => "si"
  | info => "info"
  | print => "p"
  | examine => "x"
  | watch => "w"
  | delete => "d"
  | set => "set"

def usage : Verb → String
  | help => "help [CMD]"
  | resume => "c"
  | quit => "q"
  | step => "si [N]"
  | info => "info r|w"
  | print => "p EXPR"
  | examine => "x N EXPR"
  | watch => "w EXPR"
  | delete => "d N"
  | set => "set REG EXPR"

def description : Verb → String
  | help => "Display information about all supported commands"
  | resume => "Continue the execution of the program"
  | quit => "Exit NEMU"
  | step => "Execute N instructions (default 1) and pause"
  | info => "Print registers (r) or watchpoints (w)"
  | print => "Evaluate EXPR and print the result"
  | examine => "Dump N 4-byte words starting at address EXPR"
  | watch => "Stop the program when the value of EXPR changes"
  | delete => "Delete watchpoint N"
  | set => "Write the value of EXPR to register REG"

/-- The command with a word. -/
def ofChars? (word : List Char) : Option Verb :=
  all.find? fun v => v.word.toList = word

end Verb

/-- A command with its arguments. Expressions and names are taken as written. -/
inductive Command where
  | help (topic : Option (List Char))
  | resume
  | quit
  | step (n : Nat)
  | infoRegisters
  | infoWatchpoints
  | print (expr : List Char)
  | examine (n : Nat) (expr : List Char)
  | watch (expr : List Char)
  | delete (n : Nat)
  | set (register : List Char) (expr : List Char)
  deriving DecidableEq, Repr

/-- Why a line is no command. -/
inductive CommandError where
  | unknown (word : List Char)
  | usage (verb : Verb)
  | badNumber (arg : List Char)
  deriving DecidableEq, Repr

def CommandError.message : CommandError → String
  | unknown word => "Unknown command '" ++ String.ofList word ++ "'"
  | usage verb => "Usage: " ++ verb.usage
  | badNumber arg => "Invalid number '" ++ String.ofList arg ++ "'"

/-- A number among the arguments. -/
def number (arg : List Char) : Except CommandError Nat :=
  match Text.count? arg with
  | some n => .ok n
  | none => .error (.badNumber arg)

/-- The arguments of a command that needs some. -/
def required (verb : Verb) (args : List Char) : Except CommandError (List Char) :=
  if args = [] then .error (.usage verb) else .ok args

/-- The arguments of a command that needs two: the first word and the rest. -/
def requiredTwo (verb : Verb) (args : List Char) : Except CommandError (List Char × List Char) :=
  match Text.splitAtBlank? args with
  | some (first, rest) => .ok (first, Text.trim rest)
  | none => .error (.usage verb)

/-- The command of a word and its arguments, which have no blanks at their ends. -/
def Verb.command (args : List Char) : Verb → Except CommandError Command
  | .help => .ok (.help (if args = [] then none else some args))
  | .resume => .ok .resume
  | .quit => .ok .quit
  | .step =>
    -- zero steps would do nothing, so they count as one
    if args = [] then .ok (.step 1) else do pure (.step (max (← number args) 1))
  | .info =>
    if args = ['r'] then .ok .infoRegisters
    else if args = ['w'] then .ok .infoWatchpoints
    else .error (.usage .info)
  | .print => do pure (.print (← required .print args))
  | .watch => do pure (.watch (← required .watch args))
  | .delete => do pure (.delete (← number (← required .delete args)))
  | .examine => do
    let (n, expr) ← requiredTwo .examine args
    pure (.examine (← number n) expr)
  | .set => do
    let (register, expr) ← requiredTwo .set args
    pure (.set (register.dropWhile (· = '$')) expr)

/-- The word of a line and its arguments, without the blanks around them. -/
def words (line : List Char) : List Char × List Char :=
  let line := Text.trim line
  match Text.splitAtBlank? line with
  | some (word, args) => (word, Text.trim args)
  | none => (line, [])

/-- The command of a line, `none` for a blank line. -/
def parse (line : List Char) : Except CommandError (Option Command) :=
  let (word, args) := words line
  if word = [] then .ok none
  else
    match Verb.ofChars? word with
    | none => .error (.unknown word)
    | some verb => (verb.command args).map some

end Monitor386.Shell
