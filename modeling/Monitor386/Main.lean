import Monitor386.CommandLine

/-!
# The program

Reads the image, the lines of the standard input and prints the answers; the records of the log go to
the standard error. All decisions are those of `CommandLine` and `Shell`.
-/

namespace Monitor386.Main

/-- More steps than any run takes. -/
def patience : Nat := 0x4000000000000000

/-- The threshold of the log, from the environment: the name of a level or `off`. Errors are kept
unless it says otherwise. -/
def threshold : Option String → Option Level
  | some "off" => none
  | some "warn" => some .warn
  | some "info" => some .info
  | some "debug" => some .debug
  | some "trace" => some .trace
  | _ => some .error

/-- Prints the records of a log and gives the log without them. -/
def flush (log : Log) : IO Log := do
  for r in log.records do
    IO.eprintln r.line
  pure { log with records := #[] }

/-- Tells why the emulator gave up, and gives its exit code. -/
def giveUp (crash : Crash) : IO UInt32 := do
  discard (flush crash.log)
  IO.eprintln crash.cause.message
  pure 101

/-- Answers lines of the standard input until one quits or the input ends. -/
partial def converse (s : Session I386Table) : IO UInt32 := do
  let s := { s with log := ← flush s.log }
  let out ← IO.getStdout
  out.putStr Shell.prompt
  out.flush
  let line ← try (← IO.getStdin).getLine catch _ => pure ""
  if line.isEmpty then pure 0
  else
    match Shell.answer patience s line.toList with
    | .error crash => giveUp crash
    | .ok (answers, goesOn, s) =>
      out.putStr (Shell.printed answers)
      if goesOn then converse s
      else
        discard (flush s.log)
        pure 0

def runImage (threshold : Option Level) (image : List UInt8) (batch : Bool) : IO UInt32 := do
  if !CommandLine.fits image then
    IO.eprintln s!"Image of {image.length} bytes does not fit in memory"
    pure 0
  else
    match CommandLine.start threshold image with
    | .error crash => giveUp crash
    | .ok s =>
      if batch then
        let transcript := Shell.batch patience s
        IO.print transcript.output
        match transcript.ending with
        | .error crash => giveUp crash
        | .ok s =>
          discard (flush s.log)
          pure 0
      else converse s

end Monitor386.Main

open Monitor386 in
def main (args : List String) : IO UInt32 := do
  let threshold := Main.threshold (← IO.getEnv "RUST_LOG")
  match CommandLine.parse args with
  | .help => IO.println CommandLine.helpText; pure 0
  | .version => IO.println CommandLine.versionText; pure 0
  | .misuse => IO.eprintln "unexpected arguments; try --help"; pure 1
  | .run none batch => Main.runImage threshold Program.builtIn batch
  | .run (some path) batch =>
    match ← (IO.FS.readBinFile path).toBaseIO with
    | .error e =>
      IO.eprintln s!"Cannot read image '{path}': {e}"
      pure 0
    | .ok bytes => Main.runImage threshold bytes.toList batch
