import Monitor386.Text.Numeral

/-!
# Why an expression has no value

`Error` holds the causes and `Error.message` their wording.
-/

namespace Monitor386.Expr

/-- The number of tokens that an expression may have. -/
def maxTokens : Nat := 32

inductive Error where
  /-- No lexeme starts at this byte offset. -/
  | noMatch (position : Nat)
  | tooManyTokens
  | unmatchedParen
  /-- An operator, a pair of parentheses or the whole expression lacks an operand. -/
  | emptyOperand
  /-- Operands and operators do not alternate as they must. -/
  | malformed
  /-- The numeral, as written, denotes a number of more than 32 bits. -/
  | badLiteral (text : String)
  /-- The name after `$`. -/
  | unknownRegister (name : String)
  | divideByZero
  /-- The word at this address is not backed by memory. -/
  | badAddress (addr : UInt32)
  deriving DecidableEq, Repr

def Error.message : Error → String
  | noMatch position => s!"no match at position {position}"
  | tooManyTokens => s!"expression has more than {maxTokens} tokens"
  | unmatchedParen => "unmatched parentheses"
  | emptyOperand => "missing operand"
  | malformed => "malformed expression"
  | badLiteral text => "invalid literal '" ++ text ++ "'"
  | unknownRegister name => "unknown register '$" ++ name ++ "'"
  | divideByZero => "division by zero"
  | badAddress addr => "cannot access memory at address " ++ Text.hexWord addr

end Monitor386.Expr
