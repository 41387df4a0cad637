import Mathlib
import Monitor386.Proofs.Expr.Parentheses

/-!
# The dominant operator

Of the operators of a row that stand outside all parentheses, the loosest is applied last: of equal binary ones
the rightmost, of equal prefix ones the leftmost. The search goes through the row once and keeps the best
operator of the part that it has seen.

* `Outer`, `Dominates`: an operator outside all parentheses, and the one among them that is applied last.
* `Dominates.unique`: there is at most one.
* `Dominates.first_of_unary`: a prefix operator that is applied last has no operator on its left.
* `Chosen.skip`, `Chosen.better`: the choice at one token more leaves the best operator of what was seen.
* `Searched.step`, `Searched.run`: so does a step of the search, and the whole search.
* `dominant_error_iff`, `dominant_none_iff`, `dominant_some_iff`: when the search fails, when it finds nothing,
  and what it finds.
* `dominant_range`: the same for the range between two indices.
-/

namespace Monitor386.Expr

/-- An operator outside all parentheses, with how tightly it binds: before it, as much is closed as is
opened. -/
structure Outer (ts : List Token) (i : Nat) (t : Token) (p : Nat) : Prop where
  token : ts[i]? = some t
  binds : t.priority? = some p
  level : (ts.take i).count .opening = (ts.take i).count .closing

/-- The operator outside all parentheses that is applied last. -/
structure Dominates (ts : List Token) (i : Nat) (t : Token) (p : Nat) : Prop extends Outer ts i t p where
  loosest : ∀ ⦃j u q⦄, Outer ts j u q → p ≤ q
  rightmost : t.isUnary = false → ∀ ⦃j u q⦄, Outer ts j u q → i < j → p < q
  leftmost : t.isUnary = true → ∀ ⦃j u q⦄, Outer ts j u q → j < i → p < q

variable {ts done : List Token} {t u : Token} {i j k p q d : Nat} {best : Option (Nat × Nat)}

/-- Prefix operators bind tightest. -/
theorem Token.priority_le_six (h : t.priority? = some p) : p ≤ 6 := by
  cases t with
  | binary op =>
    cases h
    exact op.priority_lt_six.le
  | unary =>
    cases h
    exact le_rfl
  | literal | register | opening | closing => cases h

theorem Token.isUnary_iff (h : t.priority? = some p) : t.isUnary = true ↔ p = 6 := by
  cases t with
  | binary op =>
    cases h
    exact iff_of_false Bool.false_ne_true op.priority_lt_six.ne
  | unary =>
    cases h
    exact iff_of_true rfl rfl
  | literal | register | opening | closing => cases h

namespace Dominates

/-- A prefix operator that is applied last is the first one outside all parentheses. -/
theorem first_of_unary (h : Dominates ts i t p) (hunary : t.isUnary = true) (hu : Outer ts j u q) : i ≤ j := by
  by_contra hlt
  have hp := (Token.isUnary_iff h.binds).mp hunary
  have hq := Token.priority_le_six hu.binds
  have := h.leftmost hunary hu (by omega)
  omega

/-- One operator is applied last. -/
theorem unique (h : Dominates ts i t p) (h' : Dominates ts j u q) : i = j := by
  wlog hle : i ≤ j generalizing i j t u p q
  · exact (this h' h (by omega)).symm
  have hp : p = q := Nat.le_antisymm (h.loosest h'.toOuter) (h'.loosest h.toOuter)
  subst hp
  by_contra hne
  cases hunary : t.isUnary with
  | false => exact lt_irrefl p (h.rightmost hunary h'.toOuter (by omega))
  | true =>
    have hp := (Token.isUnary_iff h.binds).mp hunary
    have := h'.first_of_unary ((Token.isUnary_iff h'.binds).mpr hp) h.toOuter
    omega

end Dominates

/-! ## One token more -/

theorem Outer.lt (h : Outer ts i t p) : i < ts.length :=
  (List.getElem?_eq_some_iff.mp h.token).1

theorem Outer.concat (h : Outer done i t p) (u : Token) : Outer (done ++ [u]) i t p := by
  have hlt := h.lt
  refine ⟨?_, h.binds, ?_⟩
  · rw [List.getElem?_append_left hlt, h.token]
  · rw [List.take_append_of_le_length hlt.le, h.level]

theorem Outer.of_concat (h : Outer (done ++ [u]) i t p) : Outer done i t p ∨ i = done.length ∧ t = u := by
  obtain hlt | rfl | hgt := Nat.lt_trichotomy i done.length
  · refine .inl ⟨?_, h.binds, ?_⟩
    · rw [← h.token, List.getElem?_append_left hlt]
    · have hlevel := h.level
      rwa [List.take_append_of_le_length hlt.le] at hlevel
  · have htoken := h.token
    rw [List.getElem?_concat_length, Option.some.injEq] at htoken
    exact .inr ⟨rfl, htoken.symm⟩
  · have hlen := h.lt
    rw [List.length_append, List.length_singleton] at hlen
    omega

theorem Outer.binds_inj (h : Outer ts i t p) (h' : Outer ts i t q) : p = q :=
  Option.some.inj (h.binds.symm.trans h'.binds)

/-- What a search has chosen of a part of a row: the operator that is applied last in it, if there is one. -/
def Chosen (done : List Token) : Option (Nat × Nat) → Prop
  | none => ∀ i t p, ¬ Outer done i t p
  | some (i, p) => ∃ t, Dominates done i t p

/-- A token that is no operator outside all parentheses changes nothing. -/
theorem Chosen.skip (h : Chosen done best) (hu : ∀ p, ¬ Outer (done ++ [u]) done.length u p) :
    Chosen (done ++ [u]) best := by
  have hold : ∀ {i t p}, Outer (done ++ [u]) i t p → Outer done i t p := by
    intro i t p hi
    refine hi.of_concat.resolve_right ?_
    rintro ⟨rfl, rfl⟩
    exact hu p hi
  cases best with
  | none => exact fun i t p hi => h i t p (hold hi)
  | some b =>
    obtain ⟨t, ht⟩ := h
    exact ⟨t, ht.toOuter.concat u, fun _ _ _ hj => ht.loosest (hold hj),
      fun hbinary _ _ _ hj => ht.rightmost hbinary (hold hj),
      fun hunary _ _ _ hj => ht.leftmost hunary (hold hj)⟩

/-- The last token of a row is applied last if what is applied last before it binds more tightly, or equally
and the token is a binary operator. -/
theorem Dominates.last (hu : Outer (done ++ [u]) done.length u p)
    (hold : ∀ ⦃j v q⦄, Outer done j v q → p < q ∨ p = q ∧ u.isUnary = false) :
    Dominates (done ++ [u]) done.length u p where
  toOuter := hu
  loosest j v q hj := by
    obtain hj | ⟨rfl, rfl⟩ := hj.of_concat
    · have := hold hj
      omega
    · exact (hu.binds_inj hj).le
  rightmost _ j v q hj hlt := by
    have := hj.lt
    rw [List.length_append, List.length_singleton] at this
    omega
  leftmost hunary j v q hj hlt := by
    obtain hj | ⟨rfl, -⟩ := hj.of_concat
    · exact (hold hj).resolve_right fun h => by simp [hunary] at h
    · exact absurd hlt (lt_irrefl _)

/-- What is applied last in a row stays so before a token that binds as tightly, if that is a prefix
operator, or more tightly. -/
theorem Dominates.stays (ht : Dominates done i t p) (hu : Outer (done ++ [u]) done.length u q)
    (hkeep : p < q ∨ p = q ∧ u.isUnary = true) : Dominates (done ++ [u]) i t p where
  toOuter := ht.toOuter.concat u
  loosest j v r hj := by
    obtain hj | ⟨rfl, rfl⟩ := hj.of_concat
    · exact ht.loosest hj
    · have := hu.binds_inj hj
      omega
  rightmost hbinary j v r hj hlt := by
    obtain hj | ⟨rfl, rfl⟩ := hj.of_concat
    · exact ht.rightmost hbinary hj hlt
    · obtain hlt | ⟨rfl, hunary⟩ := hkeep
      · exact hu.binds_inj hj ▸ hlt
      · -- no binary operator binds as tightly as a prefix operator
        have hp := (Token.isUnary_iff ht.binds).mpr ((Token.isUnary_iff hu.binds).mp hunary)
        exact absurd hp (by simp [hbinary])
  leftmost hunary j v r hj hlt := by
    obtain hj | ⟨rfl, -⟩ := hj.of_concat
    · exact ht.leftmost hunary hj hlt
    · exact absurd (ht.toOuter.lt.trans hlt) (lt_irrefl _)

/-- An operator outside all parentheses is weighed against the best one before it. -/
theorem Chosen.better (h : Chosen done best) (hu : Outer (done ++ [u]) done.length u p) :
    Chosen (done ++ [u]) (better best done.length p u.isUnary) := by
  cases best with
  | none => exact ⟨u, Dominates.last hu fun j v q hj => absurd hj (h j v q)⟩
  | some b =>
    obtain ⟨i, q⟩ := b
    obtain ⟨t, ht⟩ := h
    rw [Expr.better]
    split
    · rename_i hbetter
      refine ⟨u, Dominates.last hu fun j v r hj => ?_⟩
      have hle := ht.loosest hj
      obtain hlt | ⟨rfl, hbinary⟩ := hbetter
      · exact .inl (by omega)
      · exact hle.lt_or_eq.imp_right fun heq => ⟨heq, Bool.eq_false_of_not_eq_true hbinary⟩
    · rename_i hworse
      refine ⟨t, Dominates.stays ht hu ?_⟩
      push Not at hworse
      exact hworse.1.lt_or_eq.imp_right fun heq => ⟨heq, hworse.2 heq.symm⟩

/-! ## The search -/

/-- The search fails where `balanced` does. -/
theorem dominantFrom_of_not_balanced (h : balanced d ts = false) :
    dominantFrom d i best ts = .error .unmatchedParen := by
  induction ts generalizing d i best with
  | nil =>
    rw [dominantFrom, if_neg (by simpa [balanced] using h)]
  | cons t ts ih =>
    cases t with
    | opening => exact ih h
    | closing =>
      cases d with
      | zero => rfl
      | succ d => exact ih h
    | literal | register | binary | unary => cases d <;> exact ih h

/-- What holds of a search that has seen a part of a row: how many parentheses are open, and which operator
is the best. -/
structure Searched (done : List Token) (d : Nat) (best : Option (Nat × Nat)) : Prop where
  depth : done.count .opening = d + done.count .closing
  chosen : Chosen done best

namespace Searched

theorem outer_iff (h : Searched done d best) :
    Outer (done ++ [u]) done.length u p ↔ d = 0 ∧ u.priority? = some p := by
  have hdepth := h.depth
  constructor
  · intro hu
    have hlevel := hu.level
    rw [List.take_left] at hlevel
    exact ⟨by omega, hu.binds⟩
  · rintro ⟨rfl, hp⟩
    exact ⟨List.getElem?_concat_length, hp, by rw [List.take_left]; omega⟩

/-- One step of the search. -/
theorem step (h : Searched done d best) (hb : balanced d (u :: ts) = true) :
    ∃ d' best', dominantFrom d done.length best (u :: ts) = dominantFrom d' (done.length + 1) best' ts ∧
      balanced d' ts = true ∧ Searched (done ++ [u]) d' best' := by
  have hdepth (x y : Nat) {d' : Nat} (hx : [u].count .opening = x) (hy : [u].count .closing = y)
      (hd : d + x = d' + y) : (done ++ [u]).count .opening = d' + (done ++ [u]).count .closing := by
    rw [List.count_append, List.count_append, hx, hy, h.depth]
    omega
  have hskip (hno : d ≠ 0 ∨ u.priority? = none) : Chosen (done ++ [u]) best := by
    refine h.chosen.skip fun p hu => ?_
    obtain ⟨hzero, hp⟩ := h.outer_iff.mp hu
    simp [hzero, hp] at hno
  cases u with
  | opening => exact ⟨d + 1, best, rfl, hb, hdepth 1 0 rfl rfl rfl, hskip (.inr rfl)⟩
  | closing =>
    cases d with
    | zero => cases hb
    | succ d => exact ⟨d, best, rfl, hb, hdepth 0 1 rfl rfl rfl, hskip (.inr rfl)⟩
  | literal | register =>
    exact ⟨d, best, by cases d <;> rfl, hb, hdepth 0 0 rfl rfl rfl, hskip (.inr rfl)⟩
  | binary | unary =>
    cases d with
    | zero => exact ⟨0, _, rfl, hb, hdepth 0 0 rfl rfl rfl, h.chosen.better (h.outer_iff.mpr ⟨rfl, rfl⟩)⟩
    | succ d => exact ⟨d + 1, best, rfl, hb, hdepth 0 0 rfl rfl rfl, hskip (.inl d.succ_ne_zero)⟩

/-- The search ends with the best operator of the whole row. -/
theorem run (h : Searched done d best) (hb : balanced d ts = true) :
    ∃ best', dominantFrom d done.length best ts = .ok (best'.map Prod.fst) ∧ Chosen (done ++ ts) best' := by
  induction ts generalizing done d best with
  | nil =>
    obtain rfl : d = 0 := by simpa [balanced] using hb
    exact ⟨best, rfl, by rw [List.append_nil]; exact h.chosen⟩
  | cons u ts ih =>
    obtain ⟨d', best', hstep, hb, h⟩ := h.step hb
    have hrest := ih h hb
    rwa [List.length_append, List.length_singleton, ← hstep, List.append_assoc, List.singleton_append] at hrest

end Searched

/-- A balanced row is searched to its end. -/
theorem dominant_of_balanced (h : Balanced ts) :
    ∃ best, dominant ts = .ok (best.map Prod.fst) ∧ Chosen ts best := by
  have hstart : Searched [] 0 none := ⟨rfl, fun i t p hi => absurd hi.lt i.not_lt_zero⟩
  exact hstart.run (balanced_iff.mpr h)

theorem dominant_error_iff : dominant ts = .error .unmatchedParen ↔ ¬ Balanced ts := by
  constructor
  · intro herr h
    obtain ⟨best, hd, -⟩ := dominant_of_balanced h
    rw [herr] at hd
    cases hd
  · intro h
    rw [← balanced_iff, Bool.not_eq_true] at h
    exact dominantFrom_of_not_balanced h

theorem dominant_none_iff (h : Balanced ts) : dominant ts = .ok none ↔ ∀ i t p, ¬ Outer ts i t p := by
  obtain ⟨best, hd, hchosen⟩ := dominant_of_balanced h
  rw [hd]
  cases best with
  | none => exact iff_of_true rfl hchosen
  | some b =>
    obtain ⟨t, ht⟩ := hchosen
    exact iff_of_false nofun fun hnone => hnone _ _ _ ht.toOuter

theorem dominant_some_iff (h : Balanced ts) : dominant ts = .ok (some i) ↔ ∃ t p, Dominates ts i t p := by
  obtain ⟨best, hd, hchosen⟩ := dominant_of_balanced h
  rw [hd]
  cases best with
  | none => exact iff_of_false nofun fun ⟨t, p, ht⟩ => hchosen _ _ _ ht.toOuter
  | some b =>
    obtain ⟨t, ht⟩ := hchosen
    rw [Option.map_some, Except.ok.injEq, Option.some.injEq]
    constructor
    · rintro rfl
      exact ⟨t, _, ht⟩
    · rintro ⟨u, q, hu⟩
      exact ht.unique hu

/-- The search for the dominant operator of a range fails just if the parentheses of the range do not match. It
finds nothing just if no operator stands outside all of them, and otherwise the one that dominates: none is looser,
those on its right are tighter if it is binary, and on its left there are none if it is a prefix operator. -/
theorem dominant_range (ts : List Token) {first last : Nat} (h : first ≤ last) (hlast : last < ts.length) :
    let row := segment ts first last
    let found := (dominant row).map (Option.map (first + ·))
    (found = .error .unmatchedParen ↔ ¬ Balanced row) ∧
    (Balanced row → ∃ best, found = .ok best ∧
      (best = none ↔ ∀ k t p, ¬ Outer row k t p) ∧
      ∀ i, best = some i ↔ ∃ k t p, i = first + k ∧ Dominates row k t p) ∧
    (∀ k t p, Dominates row k t p → t.isUnary = true → ∀ j u q, Outer row j u q → k ≤ j) ∧
    (ts.length < 2 ^ 31 → dominantIn ts first last = .ok found) := by
  intro row found
  refine ⟨?_, fun hb => ?_, fun k t p hk hunary j u q hj => hk.first_of_unary hunary hj,
    dominantIn_eq h hlast⟩
  · rw [← dominant_error_iff]
    cases hd : dominant row <;> simp [found, hd, Except.map]
  · obtain ⟨best, hd, -⟩ := dominant_of_balanced hb
    generalize best.map Prod.fst = best at hd
    refine ⟨best.map (first + ·), by simp only [found, hd, Except.map], ?_, fun i => ?_⟩
    · rw [← dominant_none_iff hb, hd, Option.map_eq_none_iff, Except.ok.injEq]
    · rw [Option.map_eq_some_iff]
      constructor
      · rintro ⟨k, rfl, rfl⟩
        obtain ⟨t, p, hk⟩ := (dominant_some_iff hb).mp hd
        exact ⟨k, t, p, rfl, hk⟩
      · rintro ⟨k, t, p, rfl, hk⟩
        have hk := (dominant_some_iff hb).mpr ⟨t, p, hk⟩
        rw [hd, Except.ok.injEq] at hk
        exact ⟨k, hk, rfl⟩

/-- Between the parentheses of `(5 - 2 + !-3)` the right one of two sums dominates, and of the two prefix operators
the left one. With the parentheses nothing does, and with one of them the search fails. -/
theorem dominant_range_sums :
    let ts : List Token := [.opening, .literal .decimal ['5'], .binary .sub, .literal .decimal ['2'],
      .binary .add, .unary .not, .unary .neg, .literal .decimal ['3'], .closing]
    (∃ t p, Dominates (segment ts 1 7) 3 t p) ∧ dominantIn ts 1 7 = .ok (.ok (some 4)) ∧
    (∃ t p, Dominates (segment ts 5 7) 0 t p) ∧ dominantIn ts 5 7 = .ok (.ok (some 5)) ∧
    (∀ k t p, ¬ Outer (segment ts 0 8) k t p) ∧ dominantIn ts 0 8 = .ok (.ok none) ∧
    ¬ Balanced (segment ts 0 7) ∧ dominantIn ts 0 7 = .ok (.error .unmatchedParen) := by
  intro ts
  have hshort : ts.length < 2 ^ 31 := by decide
  have hsums : Balanced (segment ts 1 7) := balanced_iff.mp (by decide)
  have hneg : Balanced (segment ts 5 7) := balanced_iff.mp (by decide)
  have hwhole : Balanced (segment ts 0 8) := balanced_iff.mp (by decide)
  obtain ⟨-, hfound, -, hsumsIn⟩ := dominant_range ts (show 1 ≤ 7 by decide) (show 7 < ts.length by decide)
  obtain ⟨-, hfound', -, hnegIn⟩ := dominant_range ts (show 5 ≤ 7 by decide) (show 7 < ts.length by decide)
  obtain ⟨-, hfound'', -, hwholeIn⟩ := dominant_range ts (show 0 ≤ 8 by decide) (show 8 < ts.length by decide)
  obtain ⟨hcut, -, -, hcutIn⟩ := dominant_range ts (show 0 ≤ 7 by decide) (show 7 < ts.length by decide)
  refine ⟨?_, hsumsIn hshort, ?_, hnegIn hshort, ?_, hwholeIn hshort, hcut.mp rfl, hcutIn hshort⟩
  · obtain ⟨best, hbest, -, hdominates⟩ := hfound hsums
    obtain ⟨k, t, p, hk, hdominates⟩ := (hdominates 4).mp (Except.ok.inj hbest).symm
    obtain rfl : k = 3 := by omega
    exact ⟨t, p, hdominates⟩
  · obtain ⟨best, hbest, -, hdominates⟩ := hfound' hneg
    obtain ⟨k, t, p, hk, hdominates⟩ := (hdominates 5).mp (Except.ok.inj hbest).symm
    obtain rfl : k = 0 := by omega
    exact ⟨t, p, hdominates⟩
  · obtain ⟨best, hbest, hnone, -⟩ := hfound'' hwhole
    exact hnone.mp (Except.ok.inj hbest).symm

end Monitor386.Expr
