import Mathlib
import Monitor386.Proofs.Expr.Dominance
import Monitor386.Proofs.Expr.Observing

/-!
# Parentheses in an evaluation

An expression whose parentheses match is taken apart into ranges whose parentheses match, down to single tokens
and ranges without any. So unmatched parentheses are found before the expression is taken apart, or not at all.

* `Split.ranges`, `Visits`: the ranges that an evaluation goes through, by the indices of their ends.
* `map_ranges`: their rows are the parts of the splits.
* `Balanced.of_split`: the parts of a balanced row are balanced.
* `Visits.balanced`: so is every range that an evaluation goes through.
* `value_ne_unmatchedParen`: a balanced row does not fail because of its parentheses.
* `eval_balanced`: what an evaluation finds out about parentheses.
-/

namespace Monitor386.Expr

variable {ts inner left right : List Token} {s : Split} {op : BinaryOp} {first last : Nat} {ctx : Context}

/-! ## Splits -/

/-- A row that is split and does not stand in parentheses is split around its dominant operator. -/
theorem splitAround_of_split (hlen : 2 ≤ ts.length) (he : enclosed ts = false) (h : split ts = .ok s) :
    ∃ i, dominant ts = .ok (some i) ∧ splitAround ts i = .ok s := by
  obtain ⟨i, hd⟩ := dominant_of_split hlen he h
  exact ⟨i, hd, by rw [← split_of_dominant hlen he hd, h]⟩

/-- Only a row that stands in parentheses is split into the row between them. -/
theorem enclosed_of_split (h : split ts = .ok (.group inner)) : enclosed ts = true := by
  by_contra he
  have hts := split_inv h
  have hlen : 2 ≤ ts.length := by
    rw [hts, List.length_cons, List.length_append, List.length_singleton]
    omega
  obtain ⟨i, -, hs⟩ := splitAround_of_split hlen (Bool.eq_false_of_not_eq_true he) h
  unfold splitAround at hs
  repeat' split at hs
  all_goals cases hs

/-- A binary operator has something on its left. -/
theorem left_ne_nil_of_split (h : split ts = .ok (.binary op left right)) : left ≠ [] := by
  rintro rfl
  obtain ⟨rfl, hd⟩ := split_inv h
  have hlen : 2 ≤ ([] ++ Token.binary op :: right).length := by
    cases right with
    | nil => cases h
    | cons => simp
  obtain ⟨i, hd', hs⟩ := splitAround_of_split hlen rfl h
  cases hd.symm.trans hd'
  cases hs

/-- The parts of a balanced row are balanced. -/
theorem Balanced.of_split (hb : Balanced ts) (h : split ts = .ok s) : ∀ part ∈ s.parts, Balanced part := by
  have hinv := split_inv h
  cases s with
  | single t => exact List.forall_mem_nil _
  | group inner =>
    obtain ⟨inner', hts, hinner⟩ := (enclosed_iff hb).mp (enclosed_of_split h)
    rw [hinv, List.cons.injEq] at hts
    obtain rfl := List.append_cancel_right hts.2
    exact List.forall_mem_singleton.mpr hinner
  | unary op operand =>
    have hsides : Balanced ([] ++ .unary op :: operand) := hinv.1 ▸ hb
    exact List.forall_mem_singleton.mpr (hsides.sides nofun nofun rfl).2
  | binary op left right =>
    obtain ⟨rfl, hd⟩ := hinv
    obtain ⟨t, p, hdominates⟩ := (dominant_some_iff hb).mp hd
    have hlevel := hdominates.level
    rw [List.take_left] at hlevel
    obtain ⟨hleft, hright⟩ := hb.sides nofun nofun hlevel
    simp [Split.parts, hleft, hright]

/-! ## Ranges -/

/-- The ranges of the parts of a split, where the row that is split is the range between two indices. -/
def Split.ranges (first last : Nat) : Split → List (Nat × Nat)
  | single _ => []
  | group _ => [(first + 1, last - 1)]
  | unary _ _ => [(first + 1, last)]
  | binary _ left _ => [(first, first + left.length - 1), (first + left.length + 1, last)]

theorem le_of_split (h : split (segment ts first last) = .ok s) : first ≤ last := by
  by_contra hlt
  rw [segment_eq_nil (Nat.lt_of_not_le hlt)] at h
  cases h

/-- The rows of these ranges are the parts. -/
theorem map_ranges (hin : first ≤ last → last < ts.length) (h : split (segment ts first last) = .ok s) :
    (s.ranges first last).map (fun range => segment ts range.1 range.2) = s.parts := by
  have hlast := hin (le_of_split h)
  have hinv := split_inv h
  cases s with
  | single t => rfl
  | group inner =>
    have hlen := congrArg List.length hinv
    rw [length_segment hlast, List.length_cons, List.length_append, List.length_singleton] at hlen
    have hgroup := split_segment_group (by omega) hlast (enclosed_of_split h)
    rw [h, Except.ok.injEq, Split.group.injEq] at hgroup
    rw [hgroup]
    rfl
  | unary op operand =>
    have hoperand : (segment ts first last).drop 1 = segment ts (first + 1) last := drop_segment 1
    rw [hinv.1, List.drop_one, List.tail_cons] at hoperand
    rw [hoperand]
    rfl
  | binary op left right =>
    obtain ⟨k, hk⟩ := Nat.exists_eq_succ_of_ne_zero (mt List.length_eq_zero_iff.mp (left_ne_nil_of_split h))
    have hlen := congrArg List.length hinv.1
    rw [length_segment hlast, List.length_append, List.length_cons] at hlen
    have hleft : (segment ts first last).take (k + 1) = segment ts first (first + k) :=
      take_segment (by omega)
    have hright : (segment ts first last).drop (left.length + 1) = segment ts (first + left.length + 1) last :=
      drop_segment _
    rw [hinv.1, ← Nat.succ_eq_add_one, ← hk, List.take_left] at hleft
    rw [hinv.1, ← List.drop_drop, List.drop_left, List.drop_one, List.tail_cons] at hright
    -- the left side is not empty, so its range ends before the operator
    have hend : first + left.length - 1 = first + k := by omega
    show [segment ts first (first + left.length - 1), segment ts (first + left.length + 1) last] = [left, right]
    rw [hend, ← hleft, ← hright]

/-- The ranges of the parts do not go beyond the last token. -/
theorem ranges_le {range : Nat × Nat} (hin : first ≤ last → last < ts.length)
    (h : split (segment ts first last) = .ok s) (hrange : range ∈ s.ranges first last) : range.2 ≤ last := by
  have hlast := hin (le_of_split h)
  have hinv := split_inv h
  cases s with
  | single t => cases hrange
  | group inner =>
    rw [List.mem_singleton.mp hrange]
    exact Nat.sub_le last 1
  | unary op operand =>
    rw [List.mem_singleton.mp hrange]
  | binary op left right =>
    have hlen := congrArg List.length hinv.1
    rw [length_segment hlast, List.length_append, List.length_cons] at hlen
    obtain rfl | rfl : range = (first, first + left.length - 1) ∨ range = (first + left.length + 1, last) := by
      simpa [Split.ranges] using hrange
    · show first + left.length - 1 ≤ last
      omega
    · exact le_rfl

/-- The ranges that an evaluation of a row goes through, each with the indices of its first and last token. The
right operand of a binary operator counts also where the left one has no value. -/
inductive Visits (ts : List Token) : Nat → Nat → Prop where
  | whole : Visits ts 0 (ts.length - 1)
  | part {first last : Nat} {s : Split} {range : Nat × Nat} :
      Visits ts first last → split (segment ts first last) = .ok s → range ∈ s.ranges first last →
      Visits ts range.1 range.2

namespace Visits

theorem lt_length (h : Visits ts first last) (hne : ts ≠ []) : first ≤ last → last < ts.length := by
  induction h with
  | whole => exact fun _ => Nat.sub_one_lt (mt List.length_eq_zero_iff.mp hne)
  | part _ hs hrange ih => exact fun _ => (ranges_le ih hs hrange).trans_lt (ih (le_of_split hs))

/-- An evaluation of a balanced row goes through balanced ranges. -/
theorem balanced (h : Visits ts first last) (hne : ts ≠ []) (hb : Balanced ts) :
    Balanced (segment ts first last) := by
  induction h with
  | whole => rwa [segment_whole (Nat.sub_add_cancel (List.length_pos_iff.mpr hne)).symm]
  | part hv hs hrange ih =>
    refine ih.of_split hs _ ?_
    rw [← map_ranges (hv.lt_length hne) hs]
    exact List.mem_map_of_mem hrange

end Visits

/-! ## Values -/

theorem split_ne_unmatchedParen (h : Balanced ts) : split ts ≠ .error .unmatchedParen := by
  intro herr
  match ts with
  | [] => cases herr
  | [t] => cases herr
  | a :: b :: rest =>
    have hlen : 2 ≤ (a :: b :: rest).length := by simp
    generalize a :: b :: rest = ts at h herr hlen
    cases he : enclosed ts with
    | true =>
      rw [split_of_enclosed hlen he] at herr
      cases herr
    | false =>
      rw [split_of_open hlen he] at herr
      obtain hd | ⟨i, -, herr⟩ := bind_eq_error.mp herr
      · exact dominant_error_iff.mp hd h
      · cases i with
        | none => cases herr
        | some i =>
          simp only [splitAround] at herr
          repeat' split at herr
          all_goals cases herr

/-- A balanced row does not fail because of its parentheses. -/
theorem value_ne_unmatchedParen (h : Balanced ts) : value ctx ts ≠ .error .unmatchedParen := by
  intro herr
  induction ts using split_induction with
  | h ts ih =>
    cases hs : split ts with
    | error err =>
      rw [value_of_split_error hs] at herr
      cases herr
      exact split_ne_unmatchedParen h hs
    | ok s =>
      rw [value_of_split hs] at herr
      -- the parts of a balanced row are balanced
      have ih (part) (hpart : part ∈ s.parts) : value ctx part ≠ .error .unmatchedParen :=
        ih s hs part hpart (h.of_split hs part hpart)
      cases s with
      | single t => obtain ⟨_, h⟩ | ⟨_, h⟩ | h := Token.value_error herr <;> cases h
      | group inner => exact ih inner (List.mem_singleton_self _) herr
      | unary op operand =>
        obtain herr | ⟨a, -, herr⟩ := bind_eq_error.mp herr
        · exact ih operand (List.mem_singleton_self _) herr
        · cases UnaryOp.apply_error herr
      | binary op left right =>
        obtain herr | ⟨a, -, herr⟩ := bind_eq_error.mp herr
        · exact ih left List.mem_cons_self herr
        · obtain herr | ⟨b, -, herr⟩ := bind_eq_error.mp herr
          · exact ih right (by simp [Split.parts]) herr
          · cases BinaryOp.apply_error herr

/-! ## Expressions -/

/-- The parentheses of an expression are found not to match just if they do not. If they match, each range that the
evaluation goes through is empty or balanced. Such a range is taken for one in parentheses just if its ends are a
pair, the search for its dominant operator does not fail, and the ranges that it leaves to compute are those of the
parts of its split. -/
theorem eval_balanced (ctx : Context) {e : List Char} {ts : List Token} (htokens : tokens e = .ok ts)
    (hne : ts ≠ []) :
    (eval ctx e = .error .unmatchedParen ↔ ¬ Balanced ts) ∧
    (Balanced ts → ∀ first last, Visits ts first last →
      (last < first ∨ last < ts.length ∧ Balanced (segment ts first last)) ∧
      (enclosed (segment ts first last) = true ↔ Pairs ts first last) ∧
      dominant (segment ts first last) ≠ .error .unmatchedParen ∧
      ∀ s, split (segment ts first last) = .ok s →
        (s.ranges first last).map (fun range => segment ts range.1 range.2) = s.parts) := by
  constructor
  · rw [eval, htokens, ok_bind, if_neg hne]
    cases hb : Expr.balanced 0 ts with
    | true =>
      rw [balanced_iff] at hb
      exact iff_of_false (value_ne_unmatchedParen hb) (not_not_intro hb)
    | false =>
      refine iff_of_true rfl fun h => ?_
      rw [← balanced_iff, hb] at h
      cases h
  · intro hb first last hv
    have hin := hv.lt_length hne
    have hrow := hv.balanced hne hb
    refine ⟨?_, enclosed_iff_pairs hin hrow, fun herr => dominant_error_iff.mp herr hrow,
      fun s => map_ranges hin⟩
    exact (lt_or_ge last first).imp_right fun hle => ⟨hin hle, hrow⟩

/-- The ends of `(1)*(2)` are parentheses but no pair, those of its right operand are one. In `)1(` as much is
closed as is opened, but too early. -/
theorem eval_balanced_product :
    let ctx : Context := ⟨fun _ => none, fun _ => none⟩
    let product : List Token := [.opening, .literal .decimal ['1'], .closing, .binary .mul,
      .opening, .literal .decimal ['2'], .closing]
    let turned : List Token := [.closing, .literal .decimal ['1'], .opening]
    tokens "(1)*(2)".toList = .ok product ∧ Balanced product ∧
    Visits product 0 6 ∧ enclosed (segment product 0 6) = false ∧ ¬ Pairs product 0 6 ∧
    Visits product 4 6 ∧ enclosed (segment product 4 6) = true ∧ Pairs product 4 6 ∧
    tokens ")1(".toList = .ok turned ∧ eval ctx ")1(".toList = .error .unmatchedParen ∧ ¬ Balanced turned := by
  intro ctx product turned
  have hproduct : tokens "(1)*(2)".toList = .ok product := by decide +kernel
  have hturned : tokens ")1(".toList = .ok turned := by decide +kernel
  have hbalanced : Balanced product := balanced_iff.mp (by decide)
  have hwhole : Visits product 0 6 := .whole
  have hsplit : split (segment product 0 6) = .ok (.binary .mul (segment product 0 2) (segment product 4 6)) := by
    decide
  have hmem : (4, 6) ∈ Split.ranges 0 6 (.binary .mul (segment product 0 2) (segment product 4 6)) := by decide
  have hright : Visits product 4 6 := hwhole.part hsplit hmem
  have hends : enclosed (segment product 0 6) = false := by decide
  have henclosed : enclosed (segment product 4 6) = true := by decide
  have hranges := (eval_balanced ctx hproduct (by decide)).2 hbalanced
  obtain ⟨-, hpair, -⟩ := hranges 0 6 hwhole
  obtain ⟨-, hpair', -⟩ := hranges 4 6 hright
  have herr := (eval_balanced ctx hturned (by decide)).1
  have heval : eval ctx ")1(".toList = .error .unmatchedParen := by decide +kernel
  refine ⟨hproduct, hbalanced, hwhole, hends, fun h => ?_, hright, henclosed, hpair'.mp henclosed, hturned, heval,
    herr.mp heval⟩
  rw [hpair.mpr h] at hends
  cases hends

end Monitor386.Expr
