import Mathlib
import Monitor386.Proofs.Expr.Ranges

/-!
# Balanced parentheses

The parentheses of a row match if, read from the left, they never close more than they opened and the whole
row closes what it opens. The row between the parentheses around a balanced row is balanced, and so are the
rows on both sides of a token that stands outside all parentheses.

* `balanced_iff_count`, `balanced_iff`: this is what `balanced` looks for, at any depth.
* `enclosed_iff`: a balanced row stands in parentheses just if what is between its ends is balanced.
* `Balanced.sides`: the rows on both sides of a token outside all parentheses.
* `enclosed_iff_pairs`: a balanced range stands in parentheses just if its ends are a pair.
* `Pairs.unique`: an opening parenthesis is closed by one other.
-/

namespace Monitor386.Expr

/-! ## Counting parentheses -/

/-- The parentheses of a row match. -/
structure Balanced (ts : List Token) : Prop where
  /-- No part of the row from its start on closes more than it opens. -/
  opened : ∀ before, before <+: ts → before.count .closing ≤ before.count .opening
  /-- The whole row closes what it opens. -/
  closed : ts.count .closing = ts.count .opening

variable {ts us vs inner : List Token} {t : Token} {d : Nat}

/-- What `balanced` finds out about a row inside open parentheses. -/
theorem balanced_iff_count : balanced d ts = true ↔
    (∀ before, before <+: ts → before.count .closing ≤ d + before.count .opening) ∧
      ts.count .closing = d + ts.count .opening := by
  induction ts generalizing d with
  | nil =>
    have hempty : ∀ before : List Token, before <+: [] →
        before.count .closing ≤ d + before.count .opening := by
      intro before h
      rw [List.prefix_nil.mp h]
      exact Nat.zero_le _
    simp only [balanced, decide_eq_true_eq, List.count_nil, Nat.add_zero, eq_comm (a := 0)]
    exact (and_iff_right hempty).symm
  | cons t ts ih =>
    -- the prefixes of the longer row are those of the shorter one with the first token
    have hcons : (∀ before, before <+: t :: ts → before.count .closing ≤ d + before.count .opening) ↔
        ∀ before, before <+: ts →
          (t :: before).count .closing ≤ d + (t :: before).count .opening := by
      refine ⟨fun h before hb => h _ (List.cons_prefix_cons.mpr ⟨rfl, hb⟩), fun h before hb => ?_⟩
      obtain rfl | ⟨before, rfl, hrest⟩ := List.prefix_cons_iff.mp hb
      · exact Nat.zero_le _
      · exact h before hrest
    rw [hcons]
    cases t with
    | opening =>
      simp only [balanced, ih, List.count_cons_self, List.count_cons_of_ne, ne_eq, reduceCtorEq,
        not_false_eq_true, Nat.add_assoc, Nat.add_comm 1]
    | closing =>
      simp only [List.count_cons_self, List.count_cons_of_ne, ne_eq, reduceCtorEq, not_false_eq_true]
      cases d with
      | zero =>
        -- nothing is open, and the first token closes
        have hnil := List.nil_prefix (l := ts)
        simp only [balanced, Bool.false_eq_true, false_iff]
        rintro ⟨hopened, -⟩
        exact absurd (hopened [] hnil) (by simp)
      | succ d =>
        simp only [balanced, ih, Nat.add_right_comm d 1, Nat.add_le_add_iff_right, Nat.add_right_cancel_iff]
    | literal | register | binary | unary =>
      simp only [balanced, ih, List.count_cons_of_ne, ne_eq, reduceCtorEq, not_false_eq_true]

theorem balanced_iff : balanced 0 ts = true ↔ Balanced ts := by
  simp only [balanced_iff_count, Nat.zero_add]
  exact ⟨fun h => ⟨h.1, h.2⟩, fun h => ⟨h.1, h.2⟩⟩

/-! ## Rows in parentheses -/

/-- Parentheses that stay open up to the last token, and are closed by it, leave a row without it. -/
theorem balanced_of_closesLast (hb : balanced (d + 1) (inner ++ [.closing]) = true)
    (hc : closesLast (d + 1) (inner ++ [.closing]) = true) : balanced d inner = true := by
  induction inner generalizing d with
  | nil => simpa [balanced] using hb
  | cons t inner ih =>
    have hmore : (inner ++ [Token.closing]).isEmpty = false := by simp
    rw [List.cons_append] at hb hc
    cases t with
    | opening =>
      simp only [closesLast, balanced, Bool.and_eq_true] at hb hc
      exact ih hb hc.2
    | closing =>
      simp only [closesLast, balanced, Bool.and_eq_true, hmore, Bool.or_false, decide_eq_true_eq,
        Nat.add_sub_cancel] at hb hc
      obtain ⟨d, rfl⟩ := Nat.exists_eq_succ_of_ne_zero hc.1
      exact ih hb hc.2
    | literal | register | binary | unary =>
      simp only [closesLast, balanced, Bool.and_eq_true] at hb hc
      exact ih hb hc.2

/-- A balanced row stands in parentheses just if the row between its ends is balanced. -/
theorem enclosed_iff (h : Balanced ts) :
    enclosed ts = true ↔ ∃ inner, ts = .opening :: (inner ++ [.closing]) ∧ Balanced inner := by
  constructor
  · intro he
    have hts := enclosed_inv he
    generalize ts.tail.dropLast = inner at hts
    subst hts
    have hb := balanced_iff.mpr h
    simp only [enclosed, Bool.and_eq_true, balanced] at he hb
    exact ⟨inner, rfl, balanced_iff.mp (balanced_of_closesLast hb he.2)⟩
  · rintro ⟨inner, rfl, hinner⟩
    simp [enclosed, closesLast_concat (balanced_iff.mpr hinner)]

/-! ## Rows around a token -/

/-- A token that is no parenthesis, before which as much is closed as is opened, stands between balanced
rows. -/
theorem Balanced.sides (h : Balanced (us ++ t :: vs)) (hopening : t ≠ .opening) (hclosing : t ≠ .closing)
    (hlevel : us.count .opening = us.count .closing) : Balanced us ∧ Balanced vs := by
  have hleft : Balanced us :=
    ⟨fun before hb => h.opened before (hb.trans (List.prefix_append _ _)), hlevel.symm⟩
  have hcount : ∀ before u, u ≠ t →
      (us ++ t :: before).count u = us.count u + before.count u := fun before u hu => by
    rw [List.count_append, List.count_cons_of_ne hu.symm]
  have hright : ∀ before, before <+: vs → before.count .closing ≤ before.count .opening := by
    intro before hb
    have := h.opened (us ++ t :: before)
      ((List.prefix_append_right_inj us).mpr (List.cons_prefix_cons.mpr ⟨rfl, hb⟩))
    rw [hcount _ _ hopening.symm, hcount _ _ hclosing.symm] at this
    omega
  have hclosed := h.closed
  rw [hcount _ _ hopening.symm, hcount _ _ hclosing.symm] at hclosed
  exact ⟨hleft, hright, by omega⟩

/-! ## Pairs of parentheses -/

/-- The opening parenthesis at one index is closed by the one at another: what is between them is
balanced. -/
structure Pairs (ts : List Token) (first last : Nat) : Prop where
  lt : first < last
  opens : ts[first]? = some .opening
  closes : ts[last]? = some .closing
  inside : Balanced (segment ts (first + 1) (last - 1))

section

variable {first last : Nat}

/-- A range of two or more tokens is its first token, its last one and the range between them. -/
theorem segment_ends {a b : Token} (h : first < last) (ha : ts[first]? = some a) (hb : ts[last]? = some b) :
    segment ts first last = a :: (segment ts (first + 1) (last - 1) ++ [b]) := by
  obtain ⟨last, rfl⟩ : ∃ l, last = l + 1 := ⟨last - 1, by omega⟩
  have hlast := (List.getElem?_eq_some_iff.mp hb).1
  have hend : (segment ts (first + 1) (last + 1)).getLast? = some b := by
    rw [getLast?_segment (by omega) hlast, hb]
  rw [segment_cons h.le ha, Nat.add_sub_cancel, ← dropLast_segment (by omega) hlast,
    List.dropLast_append_getLast? _ hend]

theorem segment_prefix {other : Nat} (h : last ≤ other) : segment ts first last <+: segment ts first other :=
  (List.take_prefix_take_left (by omega)).drop first

/-- A balanced range stands in parentheses just if its ends are a pair. -/
theorem enclosed_iff_pairs (hin : first ≤ last → last < ts.length) (h : Balanced (segment ts first last)) :
    enclosed (segment ts first last) = true ↔ Pairs ts first last := by
  rw [enclosed_iff h]
  constructor
  · rintro ⟨inner, hrow, hinner⟩
    have hle : first ≤ last := by
      by_contra hlt
      rw [segment_eq_nil (Nat.lt_of_not_le hlt)] at hrow
      cases hrow
    have hlast := hin hle
    have hlen := congrArg List.length hrow
    rw [length_segment hlast] at hlen
    have hlt : first < last := by
      simp only [List.length_cons, List.length_append] at hlen
      omega
    have ha := List.getElem?_eq_getElem (hlt.trans hlast)
    have hb := List.getElem?_eq_getElem hlast
    rw [segment_ends hlt ha hb] at hrow
    obtain ⟨hopening, hrest⟩ := List.cons.inj hrow
    obtain ⟨rfl, hclosing⟩ := List.append_inj' hrest rfl
    exact ⟨hlt, hopening ▸ ha, (List.cons.inj hclosing).1 ▸ hb, hinner⟩
  · rintro ⟨hlt, ha, hb, hinner⟩
    exact ⟨_, segment_ends hlt ha hb, hinner⟩

/-- An opening parenthesis is closed by one other. -/
theorem Pairs.unique {other : Nat} (h : Pairs ts first last) (h' : Pairs ts first other) : last = other := by
  wlog hle : last ≤ other generalizing last other
  · exact (this h' h (by omega)).symm
  by_contra hne
  have hlt : last < other := lt_of_le_of_ne hle hne
  have hother := (List.getElem?_eq_some_iff.mp h'.closes).1
  -- What the pair encloses, and the parenthesis that closes it, come first in what is balanced.
  have hrow := segment_ends h.lt h.opens h.closes
  rw [segment_cons h.lt.le h.opens] at hrow
  have hpart : segment ts (first + 1) (last - 1) ++ [.closing] <+: segment ts (first + 1) (other - 1) := by
    rw [← (List.cons.inj hrow).2]
    exact segment_prefix (by omega)
  have hopened := h'.inside.opened _ hpart
  have hclosed := h.inside.closed
  have hnone : List.count Token.opening [Token.closing] = 0 := rfl
  rw [List.count_append, List.count_append, List.count_singleton_self, hnone] at hopened
  omega

end

end Monitor386.Expr
