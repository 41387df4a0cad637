import Monitor386.Expr.Error
import Monitor386.Expr.Lexeme

/-!
# Tokens of an expression

A token is a lexeme with its role. A minus or a star is a binary operator after the end of an
operand, that is after a literal, a register or a closing parenthesis, and a prefix operator
elsewhere. `tokens` gives the tokens of an expression, or the reason why it has none, and `readTokens`
also records the way there.
-/

namespace Monitor386.Expr

/-- The base that a literal is written in. -/
inductive Radix where
  | decimal
  | hex
  deriving DecidableEq, Repr

inductive BinaryOp where
  | mul
  | div
  | add
  | sub
  | eq
  | ne
  | and
  | or
  deriving DecidableEq, Repr

inductive UnaryOp where
  | not
  | neg
  | deref
  deriving DecidableEq, Repr

inductive Token where
  /-- A numeral as written. -/
  | literal (radix : Radix) (text : List Char)
  /-- A register by its name, without the `$`. -/
  | register (name : List Char)
  | binary (op : BinaryOp)
  | unary (op : UnaryOp)
  | opening
  | closing
  deriving DecidableEq, Repr

namespace Token

/-- True of the tokens that stand for a value by themselves. -/
def isOperand : Token → Bool
  | literal .. | register _ => true
  | _ => false

/-- True of the tokens that an operand can end with. -/
def endsOperand : Token → Bool
  | literal .. | register _ | closing => true
  | _ => false

end Token

/-- The token of a lexeme, which depends on whether an operand ends before it. A blank has none. -/
def Lexeme.token? (afterOperand : Bool) (l : Lexeme) : Option Token :=
  match l.rule with
  | .blank => none
  | .eq => some (.binary .eq)
  | .ne => some (.binary .ne)
  | .and => some (.binary .and)
  | .or => some (.binary .or)
  | .plus => some (.binary .add)
  | .minus => some (if afterOperand then .binary .sub else .unary .neg)
  | .star => some (if afterOperand then .binary .mul else .unary .deref)
  | .slash => some (.binary .div)
  | .not => some (.unary .not)
  | .opening => some .opening
  | .closing => some .closing
  | .hex => some (.literal .hex l.text)
  | .decimal => some (.literal .decimal l.text)
  | .register => some (.register l.text.tail)

/-- The tokens of a row of lexemes that starts after the end of an operand, or not. -/
def tokensAfter (afterOperand : Bool) : List Lexeme → List Token
  | [] => []
  | l :: ls =>
    match l.token? afterOperand with
    | none => tokensAfter afterOperand ls
    | some t => t :: tokensAfter t.endsOperand ls

/-- The lexemes up to the first one that makes more than `n` tokens. -/
def upToExcess : Nat → List Lexeme → List Lexeme
  | _, [] => []
  | n, l :: ls =>
    if l.rule = .blank then l :: upToExcess n ls
    else
      match n with
      | 0 => [l]
      | n + 1 => l :: upToExcess n ls

/-- True if the lexemes make more than `n` tokens. -/
def exceeds (n : Nat) (ls : List Lexeme) : Bool :=
  n < (ls.filter fun l => l.rule ≠ .blank).length

/-- The tokens of an expression, as they are found when nothing is recorded. A token too many is noticed
before a character that starts no lexeme, because it stands before it. -/
def tokens (e : List Char) : Except Error (List Token) :=
  let s := scan e
  if exceeds maxTokens s.lexemes then .error .tooManyTokens
  else if s.rest ≠ [] then .error (.noMatch (Text.byteSize e - Text.byteSize s.rest))
  else .ok (tokensAfter false s.lexemes)

/-! ## Records -/

/-- The texts that looking for tokens leaves, and the abort at the next one if it cannot be made. -/
structure Trail where
  texts : List String
  abort? : Option Abort

/-- The trail of looking for the tokens of an expression: each lexeme up to the point where the
search is given up, and that point if no rule matches there. -/
def trail (e : List Char) : Trail :=
  let s := scan e
  if exceeds maxTokens s.lexemes then
    ⟨(upToExcess maxTokens s.lexemes).map Lexeme.record, none⟩
  else if s.rest ≠ [] then
    let texts := s.lexemes.map Lexeme.record
    match noMatchRecord e (Text.byteSize e - Text.byteSize s.rest) with
    | .ok text => ⟨texts ++ [text], none⟩
    | .error cause => ⟨texts, some cause⟩
  else ⟨s.lexemes.map Lexeme.record, none⟩

/-- The records of looking for the tokens of an expression. -/
def records (e : List Char) : List String :=
  (trail e).texts

/-- Adds the records of looking for the tokens of an expression to a log. A log that does not keep
them does not make them either. -/
def addTrail (log : Log) (e : List Char) : Except Crash Log :=
  if log.admits .debug then
    let { texts, abort? } := trail e
    let log := log.addTexts .debug texts
    match abort? with
    | none => .ok log
    | some cause => .error ⟨cause, log⟩
  else .ok log

/-- Looks for the tokens of an expression, and records it. -/
def readTokens (log : Log) (e : List Char) : Except Crash (Except Error (List Token) × Log) := do
  let log ← addTrail log e
  pure (tokens e, log)

end Monitor386.Expr
