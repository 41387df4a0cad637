/-!
# Log records

The emulator reports what it does as records with a level. A `Log` keeps the records at or above
its threshold and drops the others; without a threshold it keeps none. A record that is dropped
is never rendered, so a quiet run does not pay for the texts.
-/

namespace Monitor386

/-- How important a record is, from the most to the least. -/
inductive Level where
  | error
  | warn
  | info
  | debug
  | trace
  deriving DecidableEq, Repr

namespace Level

/-- Position in the order of the levels; a smaller rank is more important. -/
def rank : Level → Nat
  | error => 0
  | warn => 1
  | info => 2
  | debug => 3
  | trace => 4

def label : Level → String
  | error => "ERROR"
  | warn => "WARN"
  | info => "INFO"
  | debug => "DEBUG"
  | trace => "TRACE"

end Level

structure Record where
  level : Level
  text : String
  deriving DecidableEq, Repr

/-- The record as one entry of a listing: its level, a blank and its text. -/
def Record.line (r : Record) : String :=
  r.level.label ++ " " ++ r.text

/-- The records kept so far, the oldest first. -/
structure Log where
  threshold : Option Level
  records : Array Record := #[]

namespace Log

/-- True of the levels at or above the threshold. -/
def admits (log : Log) (level : Level) : Bool :=
  match log.threshold with
  | none => false
  | some threshold => level.rank ≤ threshold.rank

/-- Keeps one record if its level is admitted. -/
@[macro_inline] def add (log : Log) (level : Level) (text : String) : Log :=
  if log.admits level then { log with records := log.records.push ⟨level, text⟩ } else log

/-- Keeps records of one level, in order, if the level is admitted. -/
@[macro_inline] def addTexts (log : Log) (level : Level) (texts : List String) : Log :=
  if log.admits level then
    { log with records := log.records ++ texts.map (Record.mk level) }
  else log

/-- Keeps those of the records whose level is admitted. -/
def addAll (log : Log) (records : List Record) : Log :=
  { log with records := log.records ++ records.filter fun r => log.admits r.level }

end Log

end Monitor386
