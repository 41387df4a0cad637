import Monitor386.Expr.Token

/-!
# The value of an expression

Expressions have words as values, and see the machine through a `Context`: the value of a register
by its name and the word at an address. A row of tokens is split at its dominant operator, the one
that is applied last: of the operators outside all parentheses it is the loosest, of equals the
rightmost if they are binary and the leftmost if they are prefix operators. Both operands of a
binary operator are always computed, the left one first.
-/

namespace Monitor386.Expr

/-- What an expression can observe. -/
structure Context where
  /-- Value of the register with this name, without the `$`. -/
  register : String → Option UInt32
  /-- The word at an address, `none` where memory does not back it. -/
  read : UInt32 → Option UInt32

/-- A truth value as a word. -/
def truth (b : Bool) : UInt32 :=
  if b then 1 else 0

/-- How tightly the operator binds: or 1, and 2, equality 3, sums 4, products 5. -/
def BinaryOp.priority : BinaryOp → Nat
  | or => 1
  | and => 2
  | eq | ne => 3
  | add | sub => 4
  | mul | div => 5

/-- Arithmetic wraps, and any word but 0 counts as true. -/
def BinaryOp.apply (a b : UInt32) : BinaryOp → Except Error UInt32
  | mul => .ok (a * b)
  | div => if b = 0 then .error .divideByZero else .ok (a / b)
  | add => .ok (a + b)
  | sub => .ok (a - b)
  | eq => .ok (truth (a = b))
  | ne => .ok (truth (a ≠ b))
  | and => .ok (truth (a ≠ 0 ∧ b ≠ 0))
  | or => .ok (truth (a ≠ 0 ∨ b ≠ 0))

def UnaryOp.apply (ctx : Context) (a : UInt32) : UnaryOp → Except Error UInt32
  | not => .ok (truth (a = 0))
  | neg => .ok (-a)
  | deref => (ctx.read a).elim (.error (.badAddress a)) .ok

namespace Token

/-- How tightly an operator binds; prefix operators bind tightest. -/
def priority? : Token → Option Nat
  | binary op => some op.priority
  | unary _ => some 6
  | _ => none

def isUnary : Token → Bool
  | unary _ => true
  | _ => false

/-- The value of a literal or a register. -/
def value (ctx : Context) : Token → Except Error UInt32
  | literal .decimal text =>
    (Text.word? 10 text).elim (.error (.badLiteral (String.ofList text))) .ok
  | literal .hex text =>
    (Text.word? 16 (text.drop 2)).elim (.error (.badLiteral (String.ofList text))) .ok
  | register name =>
    (ctx.register (String.ofList name)).elim
      (.error (.unknownRegister (String.ofList name))) .ok
  | _ => .error .malformed

end Token

/-! ## Parentheses -/

/-- True if the parentheses of the tokens, which stand inside `depth` open ones, match and close
all of these. -/
def balanced (depth : Nat) : List Token → Bool
  | [] => depth = 0
  | .opening :: ts => balanced (depth + 1) ts
  | .closing :: ts =>
    match depth with
    | 0 => false
    | d + 1 => balanced d ts
  | _ :: ts => balanced depth ts

/-- True if the parentheses that stand open before the tokens stay open up to the last token. -/
def closesLast (depth : Nat) : List Token → Bool
  | [] => true
  | t :: ts =>
    let depth :=
      match t with
      | .opening => depth + 1
      | .closing => depth - 1
      | _ => depth
    (depth ≠ 0 || ts.isEmpty) && closesLast depth ts

/-- True if the first token is an opening parenthesis and the last one closes it. -/
def enclosed (ts : List Token) : Bool :=
  match ts with
  | .opening :: rest => rest.getLast? = some .closing && closesLast 1 rest
  | _ => false

/-! ## The dominant operator -/

/-- The choice among an operator at an index and the best one to the left of it. -/
def better (best : Option (Nat × Nat)) (index priority : Nat) (unary : Bool) :
    Option (Nat × Nat) :=
  match best with
  | none => some (index, priority)
  | some (i, p) =>
    if priority < p ∨ (priority = p ∧ ¬ unary) then some (index, priority) else some (i, p)

/-- Looks through the tokens from an index on, inside `depth` open parentheses, with the best
operator so far and its priority. -/
def dominantFrom (depth index : Nat) (best : Option (Nat × Nat)) :
    List Token → Except Error (Option Nat)
  | [] => if depth = 0 then .ok (best.map Prod.fst) else .error .unmatchedParen
  | t :: ts =>
    match t with
    | .opening => dominantFrom (depth + 1) (index + 1) best ts
    | .closing =>
      match depth with
      | 0 => .error .unmatchedParen
      | d + 1 => dominantFrom d (index + 1) best ts
    | t =>
      match depth, t.priority? with
      | 0, some p => dominantFrom 0 (index + 1) (better best index p t.isUnary) ts
      | d, _ => dominantFrom d (index + 1) best ts

/-- Index of the operator that is applied last, if there is one outside all parentheses. -/
def dominant (ts : List Token) : Except Error (Option Nat) :=
  dominantFrom 0 0 none ts

/-! ## Values -/

/-- How a row of tokens falls into parts. -/
inductive Split where
  /-- A single token. -/
  | single (t : Token)
  /-- A row in a pair of parentheses. -/
  | group (inner : List Token)
  | unary (op : UnaryOp) (operand : List Token)
  | binary (op : BinaryOp) (left right : List Token)
  deriving DecidableEq, Repr

/-- Splits a row at its dominant operator, unless it is a single token or stands in parentheses.
A prefix operator has nothing on its left, a binary operator has something on both sides. -/
def split (ts : List Token) : Except Error Split :=
  match ts with
  | [] => .error .emptyOperand
  | [t] => .ok (.single t)
  | _ =>
    if enclosed ts then .ok (.group ts.tail.dropLast)
    else do
      let some i ← dominant ts | .error .malformed
      match ts[i]? with
      | some (.unary op) => if i = 0 then .ok (.unary op ts.tail) else .error .malformed
      | some (.binary op) =>
        if i = 0 ∨ i + 1 = ts.length then .error .emptyOperand
        else .ok (.binary op (ts.take i) (ts.drop (i + 1)))
      | _ => .error .malformed

/-- The rows that a split leaves to compute. -/
def Split.parts : Split → List (List Token)
  | single _ => []
  | group inner => [inner]
  | unary _ operand => [operand]
  | binary _ left right => [left, right]

/-- The parts of a split are shorter than the row. -/
theorem length_lt_of_split {ts : List Token} {s : Split} (h : split ts = .ok s)
    (part : List Token)
    (hp : part ∈ s.parts) : part.length < ts.length := by
  unfold split at h
  split at h
  · cases h
  · cases h; simp [Split.parts] at hp
  · rename_i h0 h1
    have hpos : 0 < ts.length := List.length_pos_iff.2 h0
    split at h
    · cases h
      simp only [Split.parts, List.mem_singleton] at hp
      subst hp
      simp only [List.length_dropLast, List.length_tail]
      omega
    · cases hd : dominant ts with
      | error e => simp [hd, bind, Except.bind] at h
      | ok o =>
        cases o with
        | none => simp [hd, bind, Except.bind] at h
        | some i =>
          simp only [hd, bind, Except.bind] at h
          split at h
          · split at h
            · cases h
              simp only [Split.parts, List.mem_singleton] at hp
              subst hp
              simp only [List.length_tail]
              omega
            · cases h
          · rename_i hi
            have := (List.getElem?_eq_some_iff.1 hi).1
            split at h
            · cases h
            · cases h
              simp only [Split.parts, List.mem_cons, List.not_mem_nil, or_false] at hp
              rcases hp with rfl | rfl
              · simp only [List.length_take]; omega
              · simp only [List.length_drop]; omega
          · cases h

/-- The value of a row of tokens. -/
def value (ctx : Context) (ts : List Token) : Except Error UInt32 :=
  match h : split ts with
  | .error e => .error e
  | .ok (.single t) => t.value ctx
  | .ok (.group inner) =>
    have := length_lt_of_split h inner (by simp [Split.parts])
    value ctx inner
  | .ok (.unary op operand) => do
    have := length_lt_of_split h operand (by simp [Split.parts])
    op.apply ctx (← value ctx operand)
  | .ok (.binary op left right) => do
    have := length_lt_of_split h left (by simp [Split.parts])
    have := length_lt_of_split h right (by simp [Split.parts])
    let a ← value ctx left
    let b ← value ctx right
    op.apply a b
termination_by ts.length

/-- The value of an expression. -/
def eval (ctx : Context) (e : List Char) : Except Error UInt32 := do
  let ts ← tokens e
  if ts = [] then .error .emptyOperand
  else if balanced 0 ts then value ctx ts
  else .error .unmatchedParen

/-- Computes the value of an expression, and records how its tokens are found. -/
def evaluate (log : Log) (ctx : Context) (e : List Char) :
    Except Crash (Except Error UInt32 × Log) := do
  let log ← addTrail log e
  pure (eval ctx e, log)

end Monitor386.Expr
