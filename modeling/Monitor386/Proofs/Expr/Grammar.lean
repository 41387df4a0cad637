import Mathlib
import Monitor386.Expr.Value

/-!
# The grammar of expressions

`Derives layer ls t` says that the grammar derives the row of lexemes `ls` from a layer, with the
derivation tree `t`. The grammar is over the lexemes as they are cut: a minus and a star may stand
between two operands or before one, and only the derivation tells which. Each layer of binary
operators is left-associative and prefix operators bind tighter than all of them.

`Tree.denote` is the value of a derivation tree. It computes in the numbers, modulo `2 ^ 32`.

* `Derives.lower`: what a layer derives, the looser layers derive too.
* `Derives.inner`: a row is derived from every layer up to the one of its root.
-/

namespace Monitor386.Expr

/-! ## Layers and operators -/

/-- The layers of the grammar, from the loosest to the tightest. -/
inductive Layer where
  | disjunction
  | conjunction
  | equality
  | sum
  | product
  | prefixed
  | primary
  deriving DecidableEq, Repr

namespace Layer

/-- Position in the order, from 1. -/
def rank : Layer → Nat
  | disjunction => 1
  | conjunction => 2
  | equality => 3
  | sum => 4
  | product => 5
  | prefixed => 6
  | primary => 7

/-- The layer that binds just tighter; it is the one of a right operand. -/
def next : Layer → Layer
  | disjunction => conjunction
  | conjunction => equality
  | equality => sum
  | sum => product
  | product => prefixed
  | prefixed | primary => primary

/-- The binary operators of a layer, each with the kind of its lexeme. -/
def operators : Layer → List (Rule × BinaryOp)
  | disjunction => [(.or, .or)]
  | conjunction => [(.and, .and)]
  | equality => [(.eq, .eq), (.ne, .ne)]
  | sum => [(.plus, .add), (.minus, .sub)]
  | product => [(.star, .mul), (.slash, .div)]
  | prefixed | primary => []

theorem rank_injective {a b : Layer} (h : a.rank = b.rank) : a = b := by
  cases a <;> cases b <;> first | rfl | exact absurd h (by decide)

theorem one_le_rank (a : Layer) : 1 ≤ a.rank := by
  cases a <;> decide

theorem rank_le_seven (a : Layer) : a.rank ≤ 7 := by
  cases a <;> decide

theorem rank_next {a : Layer} (h : a ≠ primary) : a.next.rank = a.rank + 1 := by
  cases a <;> first | rfl | exact absurd rfl h

end Layer

/-- The prefix operators, each with the kind of its lexeme. -/
def prefixOperators : List (Rule × UnaryOp) :=
  [(.not, .not), (.minus, .neg), (.star, .deref)]

/-- The kinds of lexeme that are operands. -/
def operandRules : List Rule :=
  [.decimal, .hex, .register]

/-! ## Derivations -/

/-- A derivation tree, without the steps that only pass to a tighter layer. -/
inductive Tree where
  | operand (x : Lexeme)
  | group (t : Tree)
  | unary (op : UnaryOp) (t : Tree)
  | binary (op : BinaryOp) (left right : Tree)
  deriving DecidableEq, Repr

/-- The rows that the grammar derives from a layer, with their derivation trees. -/
inductive Derives : Layer → List Lexeme → Tree → Prop where
  | operand {x : Lexeme} : x.rule ∈ operandRules → Derives .primary [x] (.operand x)
  | group {a b : Lexeme} {ls : List Lexeme} {t : Tree} :
      a.rule = .opening → Derives .disjunction ls t → b.rule = .closing →
      Derives .primary (a :: (ls ++ [b])) (.group t)
  | unary {x : Lexeme} {op : UnaryOp} {ls : List Lexeme} {t : Tree} :
      (x.rule, op) ∈ prefixOperators → Derives .prefixed ls t →
      Derives .prefixed (x :: ls) (.unary op t)
  | binary {layer : Layer} {x : Lexeme} {op : BinaryOp} {ls rs : List Lexeme} {l r : Tree} :
      (x.rule, op) ∈ layer.operators → Derives layer ls l → Derives layer.next rs r →
      Derives layer (ls ++ x :: rs) (.binary op l r)
  | tighter {layer : Layer} {ls : List Lexeme} {t : Tree} :
      layer ≠ .primary → Derives layer.next ls t → Derives layer ls t

/-! ## Values of derivation trees -/

/-- The word that a digit string denotes in a base; the numeral is reported as it is written. -/
def numeral (base : Nat) (digits written : List Char) : Except Error UInt32 :=
  if Text.value base digits < 2 ^ 32 then .ok (.ofNat (Text.value base digits))
  else .error (.badLiteral (String.ofList written))

/-- The value of an operand. -/
def Lexeme.denote (ctx : Context) (x : Lexeme) : Except Error UInt32 :=
  match x.rule with
  | .decimal => numeral 10 x.text x.text
  | .hex => numeral 16 (x.text.drop 2) x.text
  | _ =>
    match ctx.register (String.ofList x.text.tail) with
    | some w => .ok w
    | none => .error (.unknownRegister (String.ofList x.text.tail))

/-- The value of a prefix operator applied to a word. -/
def UnaryOp.denote (ctx : Context) (a : UInt32) : UnaryOp → Except Error UInt32
  | not => .ok (if a.toNat = 0 then 1 else 0)
  | neg => .ok (.ofInt (-a.toNat))
  | deref =>
    match ctx.read a with
    | some w => .ok w
    | none => .error (.badAddress a)

/-- The value of a binary operator applied to two words. -/
def BinaryOp.denote (a b : UInt32) : BinaryOp → Except Error UInt32
  | mul => .ok (.ofNat (a.toNat * b.toNat))
  | div => if b.toNat = 0 then .error .divideByZero else .ok (.ofNat (a.toNat / b.toNat))
  | add => .ok (.ofNat (a.toNat + b.toNat))
  | sub => .ok (.ofInt (a.toNat - b.toNat))
  | eq => .ok (if a.toNat = b.toNat then 1 else 0)
  | ne => .ok (if a.toNat = b.toNat then 0 else 1)
  | and => .ok (if a.toNat = 0 ∨ b.toNat = 0 then 0 else 1)
  | or => .ok (if a.toNat = 0 ∧ b.toNat = 0 then 0 else 1)

/-- The value of a derivation tree. The left operand is computed first and both always are; the
first failure is the one reported. -/
def Tree.denote (ctx : Context) : Tree → Except Error UInt32
  | operand x => x.denote ctx
  | group t => t.denote ctx
  | unary op t => do op.denote ctx (← t.denote ctx)
  | binary op left right => do
    let a ← left.denote ctx
    let b ← right.denote ctx
    op.denote a b

theorem ofInt_toNat (a : UInt32) : UInt32.ofInt a.toNat = a := by
  have := a.toNat_lt
  apply UInt32.toNat_inj.mp
  simp only [UInt32.ofInt, UInt32.toNat_ofNat']
  omega

theorem toNat_eq_zero {a : UInt32} : a.toNat = 0 ↔ a = 0 :=
  ⟨fun h => UInt32.toNat_inj.mp h, fun h => by rw [h]; rfl⟩

theorem UnaryOp.denote_eq_apply (ctx : Context) (a : UInt32) (op : UnaryOp) :
    op.denote ctx a = op.apply ctx a := by
  cases op with
  | not => simp [denote, apply, truth, toNat_eq_zero]
  | neg => rw [denote, apply, UInt32.ofInt_neg, ofInt_toNat]
  | deref => cases h : ctx.read a <;> simp [denote, apply, h]

theorem BinaryOp.denote_eq_apply (a b : UInt32) (op : BinaryOp) :
    op.denote a b = op.apply a b := by
  cases op with
  | mul | add => simp [denote, apply]
  | div => simp [denote, apply, toNat_eq_zero, UInt32.ofNat_div a.toNat_lt b.toNat_lt]
  | sub =>
    rw [denote, apply, Int.sub_eq_add_neg, UInt32.ofInt_add, UInt32.ofInt_neg, ofInt_toNat,
      ofInt_toNat, UInt32.sub_eq_add_neg]
  | eq => simp [denote, apply, truth, UInt32.toNat_inj]
  | ne => by_cases h : a = b <;> simp [denote, apply, truth, UInt32.toNat_inj, h]
  | and | or =>
    by_cases ha : a = 0 <;> by_cases hb : b = 0 <;>
      simp [denote, apply, truth, toNat_eq_zero, ha, hb]

/-! ## Layers of a tree -/

/-- The rank of the layer whose production is at the root. -/
def Tree.rank : Tree → Nat
  | operand _ | group _ => 7
  | unary .. => 6
  | binary op .. => op.priority

theorem Layer.rank_of_mem_operators {layer : Layer} {r : Rule} {op : BinaryOp}
    (h : (r, op) ∈ layer.operators) : layer.rank = op.priority := by
  cases layer <;> simp only [operators, List.mem_cons, Prod.mk.injEq, List.not_mem_nil] at h <;>
    grind [rank, BinaryOp.priority]

/-- What a layer derives, the looser layers derive too. -/
theorem Derives.lower {a b : Layer} {ls : List Lexeme} {t : Tree} (h : Derives a ls t)
    (hle : b.rank ≤ a.rank) : Derives b ls t := by
  induction hn : a.rank - b.rank generalizing b with
  | zero =>
    have hab : a = b := Layer.rank_injective (by omega)
    exact hab ▸ h
  | succ n ih =>
    have hb : b ≠ .primary := by
      rintro rfl
      have hlt : a.rank ≤ Layer.primary.rank := a.rank_le_seven
      omega
    have hnext := Layer.rank_next hb
    exact .tighter hb (ih (by omega) (by omega))

/-- A layer derives only rows whose root is at least as tight. -/
theorem Derives.rank_le {a : Layer} {ls : List Lexeme} {t : Tree} (h : Derives a ls t) :
    a.rank ≤ t.rank := by
  induction h with
  | operand | group | unary => exact Nat.le_refl _
  | binary hop => exact (Layer.rank_of_mem_operators hop).le
  | tighter hne _ ih =>
    have := Layer.rank_next hne
    omega

/-- A row is derived from every layer up to the one of its root. -/
theorem Derives.inner {a b : Layer} {ls : List Lexeme} {t : Tree} (h : Derives a ls t)
    (hle : b.rank ≤ t.rank) : Derives b ls t := by
  induction h generalizing b with
  | operand hx => exact (Derives.operand hx).lower hle
  | group ha h hb => exact (Derives.group ha h hb).lower hle
  | unary hop h => exact (Derives.unary hop h).lower hle
  | binary hop hl hr =>
    exact (Derives.binary hop hl hr).lower (hle.trans (Layer.rank_of_mem_operators hop).ge)
  | tighter _ _ ih => exact ih hle

end Monitor386.Expr
