import Monitor386.Abort
import Monitor386.Text.Blank
import Monitor386.Text.Numeral

/-!
# Lexemes of an expression

An expression is cut from left to right. At each point the rules are tried in a fixed order and
the first that matches takes its text, which is never empty (`Rule.lexeme?_ne_nil`). `scan` gives
the lexemes up to the end of the text or up to the first point where no rule matches; together
with what is left they are the whole text (`scan_append`).
-/

namespace Monitor386.Expr

/-- The kinds of lexeme: blanks, the operators and parentheses, and the three kinds of operand. -/
inductive Rule where
  | blank
  | eq
  | ne
  | and
  | or
  | plus
  | minus
  | star
  | slash
  | not
  | opening
  | closing
  | hex
  | decimal
  | register
  deriving DecidableEq, Repr

namespace Rule

/-- The rules in the order in which they are tried: `!=` comes before `!`, and a hexadecimal
numeral before the decimal numeral `0`. -/
def all : List Rule :=
  [blank, eq, ne, and, or, plus, minus, star, slash, not, opening, closing, hex, decimal, register]

/-- Position of the rule in the order. -/
def index (r : Rule) : Nat :=
  all.idxOf r

/-- The text of a rule that matches one text only. -/
def spelling? : Rule → Option (List Char)
  | eq => some ['=', '=']
  | ne => some ['!', '=']
  | and => some ['&', '&']
  | or => some ['|', '|']
  | plus => some ['+']
  | minus => some ['-']
  | star => some ['*']
  | slash => some ['/']
  | not => some ['!']
  | opening => some ['(']
  | closing => some [')']
  | _ => none

/-- The longest run at the start of the text, if it has a character. -/
def run? (p : Char → Bool) (cs : List Char) : Option (List Char) :=
  match cs.takeWhile p with
  | [] => none
  | r => some r

/-- The text that a rule takes from the start of a text. -/
def lexeme? (r : Rule) (cs : List Char) : Option (List Char) :=
  match r, cs with
  | blank, cs => run? Text.isBlank cs
  | hex, '0' :: x :: cs =>
    if x = 'x' ∨ x = 'X' then (run? Text.isHexDigit cs).map fun ds => '0' :: x :: ds else none
  | decimal, cs => run? Char.isDigit cs
  | register, '$' :: cs => (run? Char.isAlpha cs).map ('$' :: ·)
  | r, cs => r.spelling?.filter fun s => s.isPrefixOf cs

theorem run?_eq_some {p : Char → Bool} {cs r : List Char} (h : run? p cs = some r) :
    r ≠ [] ∧ r = cs.takeWhile p := by
  unfold run? at h
  split at h
  · cases h
  · rename_i hne
    cases h
    exact ⟨hne, rfl⟩

theorem spelling?_ne_nil {r : Rule} {s : List Char} (h : r.spelling? = some s) : s ≠ [] := by
  cases r <;> simp only [spelling?, Option.some.injEq, reduceCtorEq] at h <;> subst h <;> simp

/-- A rule takes at least one character, and takes it from the start of the text. -/
theorem lexeme?_start {r : Rule} {cs m : List Char} (h : r.lexeme? cs = some m) :
    m ≠ [] ∧ m <+: cs := by
  unfold lexeme? at h
  split at h
  · obtain ⟨hne, rfl⟩ := run?_eq_some h
    exact ⟨hne, List.takeWhile_prefix _⟩
  · split at h
    · obtain ⟨ds, hds, rfl⟩ := Option.map_eq_some_iff.1 h
      obtain ⟨-, rfl⟩ := run?_eq_some hds
      simp [List.cons_prefix_cons, List.takeWhile_prefix]
    · cases h
  · obtain ⟨hne, rfl⟩ := run?_eq_some h
    exact ⟨hne, List.takeWhile_prefix _⟩
  · obtain ⟨ds, hds, rfl⟩ := Option.map_eq_some_iff.1 h
    obtain ⟨-, rfl⟩ := run?_eq_some hds
    simp [List.cons_prefix_cons, List.takeWhile_prefix]
  · obtain ⟨hs, hp⟩ := Option.filter_eq_some_iff.1 h
    exact ⟨spelling?_ne_nil hs, List.isPrefixOf_iff_prefix.1 hp⟩

end Rule

/-- A piece of the expression: the rule that took it, its text and its byte offset. -/
structure Lexeme where
  rule : Rule
  text : List Char
  position : Nat
  deriving DecidableEq, Repr

/-- What the first rule that matches takes from the start of the text. -/
def first? (cs : List Char) : Option (Rule × List Char) :=
  Rule.all.findSome? fun r => (r.lexeme? cs).map fun text => (r, text)

theorem first?_start {cs text : List Char} {r : Rule} (h : first? cs = some (r, text)) :
    text ≠ [] ∧ text <+: cs := by
  obtain ⟨r', -, h'⟩ := List.exists_of_findSome?_eq_some h
  obtain ⟨m, hm, heq⟩ := Option.map_eq_some_iff.1 h'
  cases heq
  exact Rule.lexeme?_start hm

theorem length_sub_lt {cs text : List Char} {r : Rule} (h : first? cs = some (r, text)) :
    cs.length - text.length < cs.length := by
  obtain ⟨hne, hp⟩ := first?_start h
  have := List.length_pos_iff.2 hne
  have := hp.length_le
  omega

/-- The lexemes of a text, and what is left at the first point where no rule matches. -/
structure Scan where
  lexemes : List Lexeme
  rest : List Char
  deriving DecidableEq, Repr

/-- Cuts a text whose first character has the given byte offset. -/
def scanFrom (position : Nat) (cs : List Char) : Scan :=
  match h : first? cs with
  | none => ⟨[], cs⟩
  | some (rule, text) =>
    have := length_sub_lt h
    let tail := scanFrom (position + Text.byteSize text) (cs.drop text.length)
    ⟨⟨rule, text, position⟩ :: tail.lexemes, tail.rest⟩
termination_by cs.length

/-- Cuts a whole expression. -/
def scan (cs : List Char) : Scan :=
  scanFrom 0 cs

/-- The lexemes and what is left are the text. -/
theorem scanFrom_append (position : Nat) (cs : List Char) :
    (scanFrom position cs).lexemes.flatMap Lexeme.text ++ (scanFrom position cs).rest = cs := by
  fun_induction scanFrom position cs with
  | case1 => rfl
  | case2 position cs rule text h _ tail ih =>
    obtain ⟨u, hu⟩ := (first?_start h).2
    rw [List.flatMap_cons, List.append_assoc, ih, ← hu, List.drop_left]

theorem scan_append (cs : List Char) :
    (scan cs).lexemes.flatMap Lexeme.text ++ (scan cs).rest = cs :=
  scanFrom_append 0 cs

/-! ## Records of a scan -/

/-- The record of a lexeme that was taken. -/
def Lexeme.record (l : Lexeme) : String :=
  s!"match rules[{l.rule.index}] at position {l.position} with len {Text.byteSize l.text}: " ++
    String.ofList l.text

/-- The record of a text in which no rule matches at a byte offset: the text, and below it a mark in
the column of the offset. There is no record if the column is too wide. -/
def noMatchRecord (cs : List Char) (position : Nat) : Except Abort String :=
  match Text.width? (position + 1) with
  | none => .error .columnTooWide
  | some width =>
    .ok (s!"no match at position {position}\n" ++ String.ofList cs ++ "\n" ++
      Text.alignRight width ' ' "^")

end Monitor386.Expr
