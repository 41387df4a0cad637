import Monitor386.Abort
import Monitor386.Expr.Value
import Monitor386.Text.Bounded

/-!
# The watchpoint pool

A watchpoint is an expression and the value that it had when it was last looked at. There are 32
slots for them, and a slot has the number at which it stands. Every slot is on one of two chains,
which run through the slots: the active one, with the newest watchpoint first, and the free one,
from whose start the next slot is taken and to which a slot is given back.

`create`, `delete`, `scan` and `refresh` are the operations; `toList` is what the user sees.
-/

namespace Monitor386

/-- Number of slots. -/
abbrev poolSize : Nat := 32

/-- Bytes of the buffer for an expression. The last one is not used. -/
abbrev watchCapacity : Nat := 64

/-- Why a watchpoint cannot be set or deleted. -/
inductive WatchError where
  | poolExhausted
  | expressionTooLong
  | badExpression (cause : Expr.Error)
  | notFound (no : Nat)
  deriving DecidableEq, Repr

def WatchError.message : WatchError → String
  | poolExhausted => "no free watchpoint"
  | expressionTooLong => s!"expression longer than {watchCapacity - 1} bytes"
  | badExpression cause => "bad expression: " ++ cause.message
  | notFound no => s!"watchpoint {no} not found"

/-- A watchpoint as the user sees it. -/
structure Watchpoint where
  no : Nat
  expr : List Char
  value : UInt32
  deriving DecidableEq, Repr

/-- A change of a watched value. -/
structure WatchChange where
  no : Nat
  expr : List Char
  old : UInt32
  new : UInt32
  deriving DecidableEq, Repr

/-- A slot, with the slot that follows it on its chain. -/
structure Slot where
  no : Nat := 0
  expr : Text.Bounded watchCapacity := .empty
  value : UInt32 := 0
  next : Option (Fin poolSize) := none
  deriving DecidableEq, Inhabited

structure Pool where
  slots : Vector Slot poolSize
  /-- The newest watchpoint. -/
  head : Option (Fin poolSize)
  /-- The slot that the next watchpoint takes. -/
  free : Option (Fin poolSize)
  /-- A slot carries its own number. -/
  numbered (i : Fin poolSize) : slots[i].no = i
  deriving DecidableEq

namespace Pool

/-- The pool without watchpoints: all slots are free, in the order of their numbers. -/
def empty : Pool where
  slots := Vector.ofFn fun i =>
    { no := i, next := if h : i.val + 1 < poolSize then some ⟨i.val + 1, h⟩ else none }
  head := none
  free := some 0
  numbered := by simp

instance : Inhabited Pool := ⟨empty⟩

def slot (p : Pool) (i : Fin poolSize) : Slot :=
  p.slots[i]

/-- Changes a slot, but not its number. -/
def modify (p : Pool) (i : Fin poolSize) (f : Slot → Slot)
    (hf : ∀ s, (f s).no = s.no := by intro; rfl) : Pool where
  slots := p.slots.set i (f (p.slot i))
  head := p.head
  free := p.free
  numbered j := by
    have hi : (p.slot i).no = i := p.numbered i
    simp only [Fin.getElem_fin, Vector.getElem_set]
    split
    · rename_i h
      rw [hf, hi, h]
    · exact p.numbered j

/-! ## Chains -/

/-- The first `n` slots of the chain that starts at a slot. -/
def chain (p : Pool) : Nat → Option (Fin poolSize) → List (Fin poolSize)
  | 0, _ => []
  | _, none => []
  | n + 1, some i => i :: p.chain n (p.slot i).next

/-- The slots with a watchpoint, the newest first. -/
def active (p : Pool) : List (Fin poolSize) :=
  p.chain poolSize p.head

/-- The slots without one, in the order in which they will be taken. -/
def available (p : Pool) : List (Fin poolSize) :=
  p.chain poolSize p.free

/-- The slot before a slot in a row of slots. -/
def predecessor? (i : Fin poolSize) : List (Fin poolSize) → Option (Fin poolSize)
  | a :: b :: rest => if b = i then some a else predecessor? i (b :: rest)
  | _ => none

/-- Takes the first free slot and puts it at the start of the active chain. -/
def take (p : Pool) : Except Abort (Fin poolSize × Pool) :=
  match p.free with
  | none => .error .noFreeSlot
  | some i =>
    let q := p.modify i fun s => { s with next := p.head }
    .ok (i, { q with head := some i, free := (p.slot i).next })

/-- Unlinks a slot from the active chain. -/
def unlink (p : Pool) (i : Fin poolSize) : Pool :=
  match predecessor? i p.active with
  | some j => p.modify j fun s => { s with next := (p.slot i).next }
  | none => { p with head := (p.slot i).next }

/-- Gives an active slot back: unlinks it from the active chain, puts it at the start of the free
one and forgets its expression. -/
def release (p : Pool) (i : Fin poolSize) : Except Abort Pool :=
  if p.head = none then .error .noActiveSlot
  else if i ∉ p.active then .error (.slotNotActive i)
  else
    let q := (p.unlink i).modify i fun s => { s with expr := .empty, next := p.free }
    .ok { q with free := some i }

/-! ## Views -/

def isEmpty (p : Pool) : Bool :=
  p.head = none

/-- Number of watchpoints. -/
def size (p : Pool) : Nat :=
  p.active.length

def watchpoint (p : Pool) (i : Fin poolSize) : Watchpoint :=
  ⟨(p.slot i).no, (p.slot i).expr.chars, (p.slot i).value⟩

/-- The watchpoints, the newest first. -/
def toList (p : Pool) : List Watchpoint :=
  p.active.map p.watchpoint

/-! ## Operations -/

/-- Sets a watchpoint on an expression, which must have a value now. A slot is taken first and
given back if the expression fails. -/
def create (p : Pool) (ctx : Expr.Context) (e : List Char) :
    Except Abort (Except WatchError Watchpoint × Pool) :=
  if p.free = none then .ok (.error .poolExhausted, p)
  else if watchCapacity ≤ Text.byteSize e then .ok (.error .expressionTooLong, p)
  else do
    let (i, q) ← p.take
    match Expr.eval ctx e with
    | .error cause => pure (.error (.badExpression cause), ← q.release i)
    | .ok value =>
      match Text.Bounded.ofChars? e with
      | none => pure (.error .expressionTooLong, ← q.release i)
      | some expr =>
        let q := q.modify i fun s => { s with expr, value }
        pure (.ok (q.watchpoint i), q)

/-- Deletes the watchpoint with a number. -/
def delete (p : Pool) (no : Nat) : Except Abort (Except WatchError Unit × Pool) :=
  if p.head = none then .error .nothingToDelete
  else if p.toList.any (·.no = no) then
    if h : no < poolSize then do
      pure (.ok (), ← p.release ⟨no, h⟩)
    else .error (.slotNotActive no)
  else .ok (.error (.notFound no), p)

/-- Stores a new value for a watchpoint. -/
def setValue (p : Pool) (i : Fin poolSize) (value : UInt32) : Pool :=
  p.modify i fun s => { s with value }

/-- Looks for a changed value among the given slots, in order. -/
def scanSlots (p : Pool) (ctx : Expr.Context) : List (Fin poolSize) → Option WatchChange × Pool
  | [] => (none, p)
  | i :: rest =>
    let s := p.slot i
    match Expr.eval ctx s.expr.chars with
    | .error _ => p.scanSlots ctx rest
    | .ok new =>
      if new = s.value then p.scanSlots ctx rest
      else (some ⟨s.no, s.expr.chars, s.value, new⟩, p.setValue i new)

/-- Finds the newest watchpoint whose value changed and stores its new value. An expression that
has no value now is passed over. -/
def scan (p : Pool) (ctx : Expr.Context) : Option WatchChange × Pool :=
  p.scanSlots ctx p.active

/-- The expressions that a scan looked at, given what it found. -/
def scanned (p : Pool) (hit : Option WatchChange) : List (List Char) :=
  let ws := p.toList
  let n := hit.elim ws.length fun hit => ws.findIdx (fun w => w.no = hit.no) + 1
  (ws.take n).map Watchpoint.expr

/-- Stores the current values of the given slots. -/
def refreshSlots (p : Pool) (ctx : Expr.Context) : List (Fin poolSize) → Pool
  | [] => p
  | i :: rest =>
    match Expr.eval ctx (p.slot i).expr.chars with
    | .error _ => p.refreshSlots ctx rest
    | .ok value => (p.setValue i value).refreshSlots ctx rest

/-- Stores the current values of all watchpoints; one without a value keeps the old. -/
def refresh (p : Pool) (ctx : Expr.Context) : Pool :=
  p.refreshSlots ctx p.active

/-! ## Records -/

/-- The record of setting a watchpoint. -/
def createdRecord (w : Watchpoint) : String :=
  s!"watchpoint {w.no} set on '" ++ String.ofList w.expr ++ "' = " ++ Text.hexWord w.value

/-- The record of deleting a watchpoint. -/
def deletedRecord (no : Nat) : String :=
  s!"watchpoint {no} deleted"

def deleteRecords (no : Nat) : Except WatchError Unit → List String
  | .ok () => [deletedRecord no]
  | .error _ => []

/-- The records of looking at all watchpoints. -/
def refreshRecords (p : Pool) : List String :=
  p.toList.flatMap fun w => Expr.records w.expr

/-- True if the expression for a watchpoint was looked at. The others are refused unseen. -/
def lookedAt : Except WatchError Watchpoint → Bool
  | .ok _ | .error (.badExpression _) => true
  | .error _ => false

def createRecords : Except WatchError Watchpoint → List String
  | .ok w => [createdRecord w]
  | .error _ => []

/-- Adds the records of setting a watchpoint, or trying to: how the tokens of the expression are
found, if it is looked at, and the success. -/
def addCreation (log : Log) (e : List Char) (r : Except WatchError Watchpoint) :
    Except Crash Log := do
  let log ← if lookedAt r then Expr.addTrail log e else .ok log
  pure (log.addTexts .debug (createRecords r))

end Pool

end Monitor386
