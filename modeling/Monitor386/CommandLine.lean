import Monitor386.Program
import Monitor386.Shell.Basic

/-!
# The command line

The command line names a program image, or none for the built-in program, and may ask for a run
without the monitor. `parse` reads the arguments from left to right, so that of two mistakes the
first decides; `run` is the whole program as a function of the level of its log, its arguments, the
files that it can read and its input.
-/

namespace Monitor386.CommandLine

/-- Bytes of memory of the machine. -/
def memorySize : Nat := 128 * 1024 * 1024

/-- What the arguments ask for. -/
inductive Invocation where
  | help
  | version
  /-- The arguments make no sense. -/
  | misuse
  | run (image : Option String) (batch : Bool)
  deriving DecidableEq, Repr

/-- What the arguments up to some point gave. -/
structure Given where
  batches : Nat := 0
  image : Option String := none

namespace Given

/-- Options of one letter, given in one argument. -/
def letters (g : Given) : List Char → Except Invocation Given
  | [] => .ok g
  | 'b' :: cs => letters { g with batches := g.batches + 1 } cs
  | 'h' :: _ => .error .help
  | 'V' :: _ => .error .version
  | _ => .error .misuse

/-- An option by its name. What follows an equals sign is ignored. -/
def named (g : Given) (name : List Char) : Except Invocation Given :=
  let name := String.ofList (name.takeWhile (· ≠ '='))
  if name = "batch" then .ok { g with batches := g.batches + 1 }
  else if name = "help" then .error .help
  else if name = "version" then .error .version
  else .error .misuse

/-- The image; there can be only one. -/
def positional (g : Given) (arg : String) : Except Invocation Given :=
  match g.image with
  | none => .ok { g with image := some arg }
  | some _ => .error .misuse

/-- Arguments after `--`, which are never options. -/
def plain (g : Given) : List String → Except Invocation Given
  | [] => .ok g
  | arg :: args => do (← g.positional arg).plain args

def arguments (g : Given) : List String → Except Invocation Given
  | [] => .ok g
  | arg :: args =>
    match arg.toList with
    | ['-', '-'] => g.plain args
    | '-' :: '-' :: name => do (← g.named (name.dropWhile (· = '-'))).arguments args
    | '-' :: c :: cs => do (← g.letters (c :: cs)).arguments args
    | _ => do (← g.positional arg).arguments args

end Given

/-- What the arguments ask for. An option may be given once. -/
def parse (args : List String) : Invocation :=
  match ({} : Given).arguments args with
  | .error i => i
  | .ok g => if 1 < g.batches then .misuse else .run g.image (g.batches = 1)

def versionText : String := "NEMU 0.1"

def helpText : String :=
  versionText ++ "\n" ++
  "i386 emulator with a debugging monitor\n\n" ++
  "USAGE:\n" ++
  "    nemu [FLAGS] [IMAGE]\n\n" ++
  "FLAGS:\n" ++
  "    -b, --batch      Run the program to completion without the monitor\n" ++
  "    -h, --help       Prints help information\n" ++
  "    -V, --version    Prints version information\n\n" ++
  "ARGS:\n" ++
  "    <IMAGE>    Raw guest image loaded at 0x100000 (built-in program if omitted)"

/-- What the program printed and its exit code. -/
structure Exit where
  output : String
  code : Nat
  deriving DecidableEq, Repr

/-- True if an image fits between the entry point and the end of the memory. -/
def fits (image : List UInt8) : Bool :=
  image.length ≤ memorySize - entryPoint.toNat

/-- The machine at its start, with an image in its memory and a log with a threshold. -/
def start (threshold : Option Level) (image : List UInt8) : Except Crash (Session I386Table) :=
  (Session.create memorySize ({} : I386Table) .idle threshold).restart image

/-- The exit of a use of the machine: an abort has a code of its own. -/
def Exit.ofTranscript {τ : Type} (t : Shell.Transcript τ) : Exit :=
  ⟨t.output, match t.ending with
    | .ok _ => 0
    | .error _ => 101⟩

/-- Runs an image, with the monitor or without. An image that does not fit is not run. -/
def runImage (patience : Nat) (threshold : Option Level) (image : List UInt8) (batch : Bool)
    (input : List UInt8) : Exit :=
  if fits image then
    match start threshold image with
    | .error _ => ⟨"", 101⟩
    | .ok s =>
      if batch then .ofTranscript (Shell.batch patience s)
      else .ofTranscript (Shell.interact patience "" s (Shell.inputLines input))
  else ⟨"", 0⟩

/-- The program: the log keeps what the threshold admits, and `read` gives the contents of the files
that can be read. -/
def run (patience : Nat) (threshold : Option Level) (read : String → Option (List UInt8))
    (args : List String) (input : List UInt8) : Exit :=
  match parse args with
  | .help => ⟨helpText ++ "\n", 0⟩
  | .version => ⟨versionText ++ "\n", 0⟩
  | .misuse => ⟨"", 1⟩
  | .run none batch => runImage patience threshold Program.builtIn batch input
  | .run (some path) batch =>
    match read path with
    | none => ⟨"", 0⟩
    | some image => runImage patience threshold image batch input

end Monitor386.CommandLine
