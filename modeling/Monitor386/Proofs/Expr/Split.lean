import Monitor386.Proofs.Expr.Tokens

/-!
# Splitting derivable rows

A row that the grammar derives is split at the root of its derivation tree. `Parses ts t` is what
this needs of a derivation: the tokens of the row, and which operators may stand under which.

* `Parses.dominantFrom_append`: looking for the dominant operator passes over such a row with the
  better of the best one so far and the root of the tree (`Tree.improve`).
* `Parses.split_group`, `Parses.split_unary`, `Parses.split_binary`: the split is at the root.
* `Parses.value_eq`: the value of the row is the value of the tree.
* `split_inv`: conversely, what a split tells about a row that is split.
-/

namespace Monitor386.Expr

/-- The tokens of a derivable row, with the derivation tree. An operator stands above operators that
bind at least as tightly, and on its right more tightly. -/
inductive Parses : List Token → Tree → Prop where
  | operand {t : Token} {x : Lexeme} :
      t.isOperand → (∀ ctx, t.value ctx = x.denote ctx) → Parses [t] (.operand x)
  | group {ts : List Token} {t : Tree} :
      Parses ts t → Parses (.opening :: (ts ++ [.closing])) (.group t)
  | unary {op : UnaryOp} {ts : List Token} {t : Tree} :
      6 ≤ t.rank → Parses ts t → Parses (.unary op :: ts) (.unary op t)
  | binary {op : BinaryOp} {us vs : List Token} {l r : Tree} :
      op.priority ≤ l.rank → op.priority < r.rank → Parses us l → Parses vs r →
      Parses (us ++ .binary op :: vs) (.binary op l r)

theorem BinaryOp.priority_lt_six (op : BinaryOp) : op.priority < 6 := by
  cases op <;> decide

theorem Derives.parses {layer : Layer} {ls : List Lexeme} {t : Tree} (h : Derives layer ls t) :
    Parses (tokensAfter false ls) t := by
  induction h with
  | operand hx =>
    obtain ⟨t, ht, -, hop, hval⟩ := Lexeme.token?_operand hx false
    rw [tokensAfter_cons ht]
    exact .operand hop hval
  | group ha _ hb ih =>
    rw [tokens_group _ ha hb]
    exact .group ih
  | unary hop h ih =>
    rw [tokens_unary _ hop]
    exact .unary h.rank_le ih
  | @binary layer _ op _ _ _ _ hop hl hr ihl ihr =>
    rw [hl.tokens_binary _ hop]
    have hrank := Layer.rank_of_mem_operators hop
    have hne : layer ≠ .primary := by
      rintro rfl
      cases hop
    have hnext := Layer.rank_next hne
    have hle := hl.rank_le
    have hlt := hr.rank_le
    exact .binary (by omega) (by omega) ihl ihr
  | tighter _ _ ih => exact ih

namespace Parses

variable {ts us vs : List Token} {t l r : Tree}

/-! ## Parentheses -/

theorem balanced_append (h : Parses ts t) (d : Nat) (rest : List Token) :
    balanced d (ts ++ rest) = balanced d rest := by
  induction h generalizing d rest with
  | @operand t x hop _ => cases t <;> first | rfl | cases hop
  | group _ ih => simp only [List.cons_append, List.append_assoc, balanced, ih, List.nil_append]
  | unary _ _ ih => simp only [List.cons_append, balanced, ih]
  | binary _ _ _ _ ihl ihr => simp only [List.append_assoc, List.cons_append, balanced, ihl, ihr]

theorem balanced (h : Parses ts t) : balanced 0 ts = true := by
  have := h.balanced_append 0 []
  rwa [List.append_nil] at this

theorem ne_nil (h : Parses ts t) : ts ≠ [] := by
  cases h <;> simp

end Parses

/-- Parentheses that close in the middle of a row do not close with its last token. -/
theorem closesLast_of_balanced {d : Nat} {us rest : List Token} (h : balanced (d + 1) us = true)
    (hne : rest ≠ []) : closesLast (d + 1) (us ++ rest) = false := by
  induction us generalizing d with
  | nil => simp [balanced] at h
  | cons u us ih =>
    have hmore : us ++ rest ≠ [] := by simp [hne]
    cases u with
    | opening => simp only [balanced] at h; simp [closesLast, ih h]
    | closing =>
      simp only [balanced] at h
      cases d with
      | zero => simp [closesLast, hne]
      | succ d => simp [closesLast, ih h]
    | literal | register | binary | unary => simp only [balanced] at h; simp [closesLast, ih h]

/-- A parenthesis before a row whose parentheses match closes with the one after it. -/
theorem closesLast_concat {d : Nat} {us : List Token} (h : balanced d us = true) :
    closesLast (d + 1) (us ++ [.closing]) = true := by
  induction us generalizing d with
  | nil => simp [closesLast]
  | cons u us ih =>
    cases u with
    | opening => simp only [balanced] at h; simp [closesLast, ih h]
    | closing =>
      cases d with
      | zero => simp [balanced] at h
      | succ d => simp only [balanced] at h; simp [closesLast, ih h]
    | literal | register | binary | unary => simp only [balanced] at h; simp [closesLast, ih h]

/-! ## The dominant operator -/

/-- Number of tokens of the row. -/
def Tree.width : Tree → Nat
  | operand _ => 1
  | group t => t.width + 2
  | unary _ t => t.width + 1
  | binary _ l r => l.width + r.width + 1

/-- The choice among the root of the tree, whose row starts at an index, and the best operator to
the left of it. -/
def Tree.improve (best : Option (Nat × Nat)) (index : Nat) : Tree → Option (Nat × Nat)
  | operand _ | group _ => best
  | unary _ _ => better best index 6 true
  | binary op l _ => better best (index + l.width) op.priority false

/-- A prefix operator is chosen only over a tighter one: of equals the left one stays. -/
theorem better_unary (i p j : Nat) :
    better (some (i, p)) j 6 true = if 6 < p then some (j, 6) else some (i, p) := by
  simp [better]

/-- A binary operator is chosen over an equal one too. -/
theorem better_binary (i p j q : Nat) :
    better (some (i, p)) j q false = if q ≤ p then some (j, q) else some (i, p) := by
  simp [better, Nat.le_iff_lt_or_eq]

namespace Tree

/-- A looser operator to the left of the row stays. -/
theorem improve_eq_self {t : Tree} {p : Nat} (h : p < t.rank ∨ p ≤ 6 ∧ 6 ≤ t.rank) (j i : Nat) :
    t.improve (some (j, p)) i = some (j, p) := by
  cases t with
  | operand | group => rfl
  | unary op t =>
    simp only [rank] at h
    rw [improve, better_unary, if_neg (by omega)]
  | binary op l r =>
    have := op.priority_lt_six
    simp only [rank] at h
    rw [improve, better_binary, if_neg (by omega)]

/-- The root of a row is passed over for a looser operator to its right, or an equal one. -/
theorem better_improve {t : Tree} {p : Nat} (h : p ≤ t.rank) (best : Option (Nat × Nat))
    (i j : Nat) : better (t.improve best i) j p false = better best j p false := by
  cases t with
  | operand | group => rfl
  | unary op t =>
    simp only [rank] at h
    rcases best with _ | ⟨k, q⟩
    · rw [improve]
      simp only [better]
      grind
    · rw [improve, better_unary]
      split
      · rw [better_binary, better_binary, if_pos h, if_pos (by omega)]
      · rfl
  | binary op l r =>
    simp only [rank] at h
    rcases best with _ | ⟨k, q⟩
    · rw [improve]
      simp only [better]
      grind
    · rw [improve, better_binary]
      split
      · rw [better_binary, better_binary, if_pos h, if_pos (by omega)]
      · rfl

/-- The choice is the best operator so far or one of the row. -/
theorem improve_index (t : Tree) (best : Option (Nat × Nat)) (i : Nat) :
    t.improve best i = best ∨
      ∃ j q, i ≤ j ∧ j < i + t.width ∧ t.improve best i = some (j, q) := by
  cases t with
  | operand | group => exact .inl rfl
  | unary op t =>
    simp only [improve, better, width]
    grind
  | binary op l r =>
    simp only [improve, better, width]
    grind

/-- The root of a row that is passed over for an operator to its right binds as tightly. -/
theorem le_rank_of_better {t : Tree} {p q : Nat} (hp : p < 6)
    (h : better (t.improve none 0) t.width p false = some (t.width, q)) : p ≤ t.rank := by
  cases t with
  | operand | group | unary => simp only [rank]; omega
  | binary op l r =>
    simp only [improve, better, width] at h
    grind [rank]

/-- The root of a row that is not chosen over an operator to its left binds more tightly. -/
theorem lt_rank_of_improve {t : Tree} {k p q : Nat} (hp : p < 6)
    (h : t.improve (some (k, p)) (k + 1) = some (k, q)) : p < t.rank := by
  cases t with
  | operand | group | unary => simp only [rank]; omega
  | binary op l r =>
    rw [improve, better_binary] at h
    grind [rank]

/-- The root of a row that is not chosen over a prefix operator before it is none that is binary. -/
theorem six_le_rank_of_improve {t : Tree} {q : Nat}
    (h : t.improve (some (0, 6)) 1 = some (0, q)) : 6 ≤ t.rank := by
  cases t with
  | operand | group | unary => simp only [rank]; omega
  | binary op l r =>
    have := op.priority_lt_six
    rw [improve, better_binary, if_pos (by omega)] at h
    simp at h

end Tree

theorem dominantFrom_unary (i : Nat) (best : Option (Nat × Nat)) (op : UnaryOp) (ts : List Token) :
    dominantFrom 0 i best (.unary op :: ts) = dominantFrom 0 (i + 1) (better best i 6 true) ts :=
  rfl

theorem dominantFrom_binary (i : Nat) (best : Option (Nat × Nat)) (op : BinaryOp)
    (ts : List Token) : dominantFrom 0 i best (.binary op :: ts) =
      dominantFrom 0 (i + 1) (better best i op.priority false) ts :=
  rfl

theorem split_of_enclosed {ts : List Token} (h : 2 ≤ ts.length) (he : enclosed ts = true) :
    split ts = .ok (.group ts.tail.dropLast) := by
  match ts with
  | _ :: _ :: _ => simp only [split, he, ↓reduceIte]

/-- The parts of a row on both sides of its dominant operator. -/
def splitAround (ts : List Token) (i : Nat) : Except Error Split :=
  match ts[i]? with
  | some (.unary op) => if i = 0 then .ok (.unary op ts.tail) else .error .malformed
  | some (.binary op) =>
    if i = 0 ∨ i + 1 = ts.length then .error .emptyOperand
    else .ok (.binary op (ts.take i) (ts.drop (i + 1)))
  | _ => .error .malformed

theorem split_of_open {ts : List Token} (h : 2 ≤ ts.length) (he : enclosed ts = false) :
    split ts = (do
      let some i ← dominant ts | .error .malformed
      splitAround ts i) := by
  match ts with
  | _ :: _ :: _ =>
    simp only [split, he, Bool.false_eq_true, ↓reduceIte]
    rfl

theorem split_of_dominant {ts : List Token} {i : Nat} (h : 2 ≤ ts.length)
    (he : enclosed ts = false) (hd : dominant ts = .ok (some i)) : split ts = splitAround ts i := by
  rw [split_of_open h he, hd]
  rfl

namespace Parses

variable {ts us vs : List Token} {t l r : Tree}

theorem length_eq (h : Parses ts t) : ts.length = t.width := by
  induction h with
  | operand => rfl
  | group _ ih => simp [Tree.width, ih]
  | unary _ _ ih => simp [Tree.width, ih]
  | binary _ _ _ _ ihl ihr => simp [Tree.width, ihl, ihr]; omega

/-- Inside parentheses nothing is chosen. -/
theorem dominantFrom_append_nested (h : Parses ts t) (d i : Nat) (best : Option (Nat × Nat))
    (rest : List Token) :
    dominantFrom (d + 1) i best (ts ++ rest) = dominantFrom (d + 1) (i + ts.length) best rest := by
  induction h generalizing d i rest with
  | @operand t x hop _ => cases t <;> first | rfl | cases hop
  | group _ ih =>
    simp only [List.cons_append, List.append_assoc, dominantFrom, ih, List.nil_append,
      List.length_cons, List.length_append, List.length_nil]
    congr 1
    omega
  | unary _ _ ih =>
    simp only [List.cons_append, dominantFrom, ih, List.length_cons]
    congr 1
    omega
  | binary _ _ _ _ ihl ihr =>
    simp only [List.append_assoc, List.cons_append, dominantFrom, ihl, ihr, List.length_append,
      List.length_cons]
    congr 1
    omega

/-- Passing over a derivable row leaves the better of the best operator before it and its root. -/
theorem dominantFrom_append (h : Parses ts t) (i : Nat) (best : Option (Nat × Nat))
    (rest : List Token) :
    dominantFrom 0 i best (ts ++ rest) =
      dominantFrom 0 (i + ts.length) (t.improve best i) rest := by
  induction h generalizing i best rest with
  | @operand t x hop _ => cases t <;> first | rfl | cases hop
  | @group ts t h _ =>
    simp only [List.cons_append, List.append_assoc, dominantFrom, h.dominantFrom_append_nested,
      List.nil_append, Tree.improve, List.length_cons, List.length_append, List.length_nil]
    congr 1
    omega
  | @unary op ts t hrank _ ih =>
    -- the operators of the operand bind as tightly as the prefix or tighter, so the prefix stays
    have hbest : t.improve (better best i 6 true) (i + 1) = better best i 6 true := by
      rcases best with _ | ⟨j, p⟩
      · exact Tree.improve_eq_self (.inr ⟨Nat.le_refl 6, hrank⟩) _ _
      · rw [better_unary]
        split
        · exact Tree.improve_eq_self (.inr ⟨Nat.le_refl 6, hrank⟩) _ _
        · exact Tree.improve_eq_self (.inr ⟨by omega, hrank⟩) _ _
    rw [List.cons_append, dominantFrom_unary, ih, hbest, List.length_cons, Tree.improve]
    congr 1
    omega
  | @binary op us vs l r hl hr hus _ ihl ihr =>
    -- the operators on the right bind tighter, so the root stays
    have hbest : r.improve (better best (i + us.length) op.priority false)
        (i + us.length + 1) = better best (i + us.length) op.priority false := by
      rcases best with _ | ⟨j, p⟩
      · exact Tree.improve_eq_self (.inl hr) _ _
      · rw [better_binary]
        split
        · exact Tree.improve_eq_self (.inl hr) _ _
        · exact Tree.improve_eq_self (.inl (by omega)) _ _
    rw [List.append_assoc, ihl, List.cons_append, dominantFrom_binary, Tree.better_improve hl, ihr,
      hbest, List.length_append, List.length_cons, Tree.improve, hus.length_eq]
    congr 1
    omega

/-- The dominant operator of a derivable row is the root of its tree. -/
theorem dominant_eq (h : Parses ts t) :
    dominant ts = .ok ((t.improve none 0).map Prod.fst) := by
  have := h.dominantFrom_append 0 none []
  rw [List.append_nil] at this
  rw [dominant, this]
  rfl

/-! ## Splits of derivable rows -/

theorem enclosed_group (h : Parses ts t) : enclosed (.opening :: (ts ++ [.closing])) = true := by
  simp [enclosed, closesLast_concat h.balanced]

theorem enclosed_binary (h : Parses us l) (op : BinaryOp) :
    enclosed (us ++ .binary op :: vs) = false := by
  have hb := h.balanced
  cases us with
  | nil => exact absurd rfl h.ne_nil
  | cons u us =>
    cases u with
    | opening =>
      simp only [Expr.balanced] at hb
      simp [enclosed, closesLast_of_balanced hb]
    | closing | literal | register | binary | unary => rfl

theorem split_group (h : Parses ts t) :
    split (.opening :: (ts ++ [.closing])) = .ok (.group ts) := by
  rw [split_of_enclosed (by simp) h.enclosed_group, List.tail_cons, List.dropLast_concat]

theorem split_unary (op : UnaryOp) (h : Parses ts t) (hrank : 6 ≤ t.rank) :
    split (.unary op :: ts) = .ok (.unary op ts) := by
  have hd : dominant (.unary op :: ts) = .ok (some 0) := (Parses.unary hrank h).dominant_eq
  have hpos := List.length_pos_iff.mpr h.ne_nil
  rw [split_of_dominant (by simp; omega) rfl hd]
  rfl

theorem split_binary {op : BinaryOp} (hl : Parses us l) (hr : Parses vs r)
    (hle : op.priority ≤ l.rank) (hlt : op.priority < r.rank) :
    split (us ++ .binary op :: vs) = .ok (.binary op us vs) := by
  have hd : dominant (us ++ .binary op :: vs) = .ok (some us.length) := by
    rw [(Parses.binary hle hlt hl hr).dominant_eq, hl.length_eq]
    simp [Tree.improve, better]
  have hpos := List.length_pos_iff.mpr hl.ne_nil
  have hpos' := List.length_pos_iff.mpr hr.ne_nil
  rw [split_of_dominant (by simp; omega) (hl.enclosed_binary op) hd, splitAround]
  simp only [List.getElem?_append_right (Nat.le_refl us.length),
    Nat.sub_self, List.getElem?_cons_zero, List.length_append, List.length_cons]
  rw [if_neg (by omega)]
  simp

end Parses

/-! ## Values -/

/-- The value of the parts of a row put together. -/
def Split.value (ctx : Context) : Split → Except Error UInt32
  | single t => t.value ctx
  | group inner => Expr.value ctx inner
  | unary op operand => do op.apply ctx (← Expr.value ctx operand)
  | binary op left right => do
    let a ← Expr.value ctx left
    let b ← Expr.value ctx right
    op.apply a b

theorem value_of_split {ctx : Context} {ts : List Token} {s : Split} (h : split ts = .ok s) :
    value ctx ts = s.value ctx := by
  rw [value]
  split <;> rename_i h' <;> rw [h] at h' <;> cases h' <;> rfl

theorem value_of_split_error {ctx : Context} {ts : List Token} {e : Error}
    (h : split ts = .error e) : value ctx ts = .error e := by
  rw [value]
  split <;> rename_i h' <;> rw [h] at h' <;> cases h'
  rfl

/-- The value of a derivable row is the value of its derivation tree. -/
theorem Parses.value_eq {ts : List Token} {t : Tree} (h : Parses ts t) (ctx : Context) :
    value ctx ts = t.denote ctx := by
  induction h with
  | operand _ hval =>
    rw [value_of_split rfl]
    exact hval ctx
  | group h ih =>
    rw [value_of_split h.split_group]
    exact ih
  | @unary op _ t hrank h ih =>
    rw [value_of_split (h.split_unary op hrank)]
    simp only [Split.value, ih, Tree.denote, UnaryOp.denote_eq_apply]
  | binary hle hlt hl hr ihl ihr =>
    rw [value_of_split (hl.split_binary hr hle hlt)]
    simp only [Split.value, ihl, ihr, Tree.denote, BinaryOp.denote_eq_apply]

/-! ## Rows that are split -/

theorem enclosed_inv {ts : List Token} (h : enclosed ts = true) :
    ts = .opening :: (ts.tail.dropLast ++ [.closing]) := by
  unfold enclosed at h
  split at h
  · rename_i rest
    simp only [Bool.and_eq_true, decide_eq_true_eq] at h
    rw [List.tail_cons, List.dropLast_append_getLast? _ h.1]
  · cases h

/-- A row that is split and does not stand in parentheses has a dominant operator. -/
theorem dominant_of_split {ts : List Token} {s : Split} (hlen : 2 ≤ ts.length)
    (he : enclosed ts = false) (h : split ts = .ok s) : ∃ i, dominant ts = .ok (some i) := by
  match ts with
  | a :: b :: rest =>
    simp only [split, he, Bool.false_eq_true, ↓reduceIte] at h
    cases hd : dominant (a :: b :: rest) with
    | error e => rw [hd] at h; cases h
    | ok o =>
      cases o with
      | none => rw [hd] at h; cases h
      | some i => exact ⟨i, rfl⟩

/-- The parts of a split make up the row, around the dominant operator if there is one. -/
theorem split_inv {ts : List Token} {s : Split} (h : split ts = .ok s) :
    match s with
    | .single t => ts = [t]
    | .group inner => ts = .opening :: (inner ++ [.closing])
    | .unary op operand => ts = .unary op :: operand ∧ dominant ts = .ok (some 0)
    | .binary op left right =>
      ts = left ++ .binary op :: right ∧ dominant ts = .ok (some left.length) := by
  match ts with
  | [] => cases h
  | [t] => cases h; rfl
  -- with two tokens or more, the row is enclosed or has a dominant operator
  | a :: b :: rest =>
    have hlen : 2 ≤ (a :: b :: rest).length := by simp
    generalize a :: b :: rest = ts at h hlen
    cases he : enclosed ts with
    | true =>
      rw [split_of_enclosed hlen he] at h
      cases h
      exact enclosed_inv he
    | false =>
      -- the operator stands at the index found, with the parts on its sides
      obtain ⟨i, hd⟩ := dominant_of_split hlen he h
      rw [split_of_dominant hlen he hd, splitAround] at h
      split at h
      · rename_i op hop
        split at h
        · rename_i hi
          cases h
          obtain ⟨hlt, hget⟩ := List.getElem?_eq_some_iff.mp hop
          subst hi
          refine ⟨?_, hd⟩
          rw [← hget, ← List.drop_one, ← List.drop_eq_getElem_cons hlt, List.drop_zero]
        · cases h
      · rename_i op hop
        obtain ⟨hlt, hget⟩ := List.getElem?_eq_some_iff.mp hop
        split at h
        · cases h
        · cases h
          refine ⟨?_, by rw [hd, List.length_take, Nat.min_eq_left hlt.le]⟩
          rw [← hget, ← List.drop_eq_getElem_cons hlt, List.take_append_drop]
      · cases h

namespace Parses

variable {ts us vs : List Token} {t l r : Tree}

/-- What the search for the dominant operator ends with, after a derivable row. -/
theorem best_of_dominantFrom (h : Parses ts t) {i k : Nat} {best : Option (Nat × Nat)}
    (hd : dominantFrom 0 i best ts = .ok (some k)) : ∃ p, t.improve best i = some (k, p) := by
  have happ := h.dominantFrom_append i best []
  rw [List.append_nil, hd] at happ
  simp only [dominantFrom, ↓reduceIte, Except.ok.injEq] at happ
  obtain ⟨⟨k', p⟩, hbest, rfl⟩ := Option.map_eq_some_iff.mp happ.symm
  exact ⟨p, hbest⟩

/-- A prefix operator that is applied last stands before a row that binds as tightly. -/
theorem six_le_rank {op : UnaryOp} (h : Parses ts t)
    (hd : dominant (.unary op :: ts) = .ok (some 0)) : 6 ≤ t.rank := by
  rw [dominant, dominantFrom_unary] at hd
  obtain ⟨p, hbest⟩ := h.best_of_dominantFrom hd
  exact Tree.six_le_rank_of_improve hbest

/-- A binary operator that is applied last stands between rows that bind more tightly, where the
left one may bind as tightly. -/
theorem priority_le_rank {op : BinaryOp} (hl : Parses us l) (hr : Parses vs r)
    (hd : dominant (us ++ .binary op :: vs) = .ok (some us.length)) :
    op.priority ≤ l.rank ∧ op.priority < r.rank := by
  have hop := op.priority_lt_six
  rw [dominant, hl.dominantFrom_append, dominantFrom_binary, Nat.zero_add] at hd
  obtain ⟨p, hbest⟩ := hr.best_of_dominantFrom hd
  -- The operator was chosen over the root on its left, and the root on its right not over it.
  have hchosen : better (l.improve none 0) us.length op.priority false =
      some (us.length, op.priority) := by
    rcases Tree.improve_index r (better (l.improve none 0) us.length op.priority false)
      (us.length + 1) with hkeep | ⟨j, q, hj, -, hnew⟩
    · rw [hkeep] at hbest
      rcases Tree.improve_index l none 0 with hnone | ⟨j, q, -, hj, hsome⟩
      · rw [hnone, better]
      · rw [hsome, better_binary] at hbest ⊢
        have := hl.length_eq
        grind
    · rw [hnew] at hbest
      grind
  rw [hchosen] at hbest
  refine ⟨?_, Tree.lt_rank_of_improve hop hbest⟩
  rw [hl.length_eq] at hchosen
  exact Tree.le_rank_of_better hop hchosen

end Parses

end Monitor386.Expr
