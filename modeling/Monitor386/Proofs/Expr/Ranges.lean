import Mathlib
import Monitor386.Proofs.Expr.Offsets
import Monitor386.Proofs.Expr.Split
import Monitor386.Proofs.Failure

/-!
# Evaluation by index

An expression can be evaluated without taking its row of tokens apart: the rows to compute are ranges of one
list, given by the indices of their first and last token. `guardedEval` does so with the tokens that
`guardedTokens` gives, and looks at every access. An index outside the list, an index below zero, a depth that
no signed word holds, a literal that is cut where it has no character boundary, a range that does not become
smaller, and an operator that is none are slips, and a slip ends the evaluation.

* `dominant_operator`: what is found for the dominant operator is an operator.
* `matchingPair_eq`, `dominantIn_eq`: parentheses and operators are found in a range as in a row.
* `guardedValue_eq`: the value of a range is that of its row.
* `evaluate_slip`: but for a mark that cannot be made there are no slips, and evaluation by index gives the
  value of the expression.
-/

namespace Monitor386.Expr

open Text (byteSize_append)

/-! ## Ranges -/

/-- The tokens from one index to another, both included. -/
def segment (ts : List Token) (first last : Nat) : List Token :=
  (ts.take (last + 1)).drop first

/-- A range may be empty, but then it stands behind the token before it. -/
def rangeAt (ts : List Token) (first last : Nat) : Except Slip (List Token) :=
  if first ≤ last + 1 ∧ last < ts.length then .ok (segment ts first last)
  else .error (.range first last)

/-- How many parentheses a token opens. -/
def Token.nesting : Token → Int
  | opening => 1
  | closing => -1
  | _ => 0

/-- The number of open parentheses after a token, as a signed word. -/
def deepen (depth : Int) (t : Token) : Except Slip Int :=
  if -2 ^ 31 ≤ depth + t.nesting ∧ depth + t.nesting < 2 ^ 31 then .ok (depth + t.nesting)
  else .error .depth

/-! ## Evaluation -/

/-- The text of a literal or a register, as it was written. -/
def Token.text : Token → List Char
  | literal _ text => text
  | register name => '$' :: name
  | _ => []

/-- The value of a single token. -/
def guardedOperand (ctx : Context) (t : Token) : Except Slip (Except Error UInt32) :=
  match t with
  | .literal .decimal text =>
    .ok ((Text.word? 10 text).elim (.error (.badLiteral (String.ofList text))) .ok)
  | .literal .hex text => do
    let (_, digits) ← cutAt 2 t.text
    .ok ((Text.word? 16 digits).elim (.error (.badLiteral (String.ofList text))) .ok)
  | .register _ => do
    let (_, name) ← cutAt 1 t.text
    .ok ((ctx.register (String.ofList name)).elim (.error (.unknownRegister (String.ofList name))) .ok)
  | _ => .ok (.error .malformed)

/-- True if the parentheses that are open before the token at `first + offset` stay open up to the token
at `last`. -/
def staysOpen (first last : Nat) : Nat → Int → List Token → Except Slip Bool
  | _, _, [] => .ok true
  | offset, depth, t :: ts => do
    let depth ← deepen depth t
    if depth = 0 ∧ first + offset ≠ last then .ok false else staysOpen first last (offset + 1) depth ts

/-- True if the first token of a range is an opening parenthesis and its last one closes it. -/
def matchingPair (ts : List Token) (first last : Nat) : Except Slip Bool := do
  if (← tokenAt ts first) ≠ .opening then .ok false
  else if (← tokenAt ts last) ≠ .closing then .ok false
  else staysOpen first last 0 0 (← rangeAt ts first last)

/-- Looks through the next `n` tokens from an index on for the dominant operator. -/
def dominantLoop (ts : List Token) :
    Nat → Nat → Int → Option (Nat × Nat) → Except Slip (Except Error (Option Nat))
  | 0, _, depth, best => .ok (if depth = 0 then .ok (best.map Prod.fst) else .error .unmatchedParen)
  | n + 1, index, depth, best => do
    let t ← tokenAt ts index
    match t with
    | .opening => dominantLoop ts n (index + 1) (← deepen depth t) best
    | .closing =>
      let depth ← deepen depth t
      if depth < 0 then .ok (.error .unmatchedParen) else dominantLoop ts n (index + 1) depth best
    | _ =>
      if 0 < depth then dominantLoop ts n (index + 1) depth best
      else
        match t.priority? with
        | none => dominantLoop ts n (index + 1) depth best
        | some priority =>
          dominantLoop ts n (index + 1) depth (better best index priority t.isUnary)

/-- Index of the operator of a range that is applied last. -/
def dominantIn (ts : List Token) (first last : Nat) : Except Slip (Except Error (Option Nat)) :=
  dominantLoop ts (last + 1 - first) first 0 none

/-- The value of the range from one index to another. -/
def guardedValue (ctx : Context) (ts : List Token) (first last : Nat) :
    Except Slip (Except Error UInt32) :=
  if last < first then .ok (.error .emptyOperand)
  else if first = last then do guardedOperand ctx (← tokenAt ts first)
  else do
    if ← matchingPair ts first last then
      let inner ← previous last
      if _h : inner + 1 - (first + 1) < last + 1 - first then guardedValue ctx ts (first + 1) inner
      else .error (.repeated (first + 1) inner)
    else
      match ← dominantIn ts first last with
      | .error e => .ok (.error e)
      | .ok none => .ok (.error .malformed)
      | .ok (some index) =>
        let t ← tokenAt ts index
        match t with
        | .unary op =>
          if index ≠ first then .ok (.error .malformed)
          else if _h : last + 1 - (index + 1) < last + 1 - first then
            let operand ← guardedValue ctx ts (index + 1) last
            .ok (operand.bind (op.apply ctx ·))
          else .error (.repeated (index + 1) last)
        | _ =>
          if index = first ∨ index = last then .ok (.error .emptyOperand)
          else
            let middle ← previous index
            if _h : middle + 1 - first < last + 1 - first then
              match ← guardedValue ctx ts first middle with
              | .error e => .ok (.error e)
              | .ok a =>
                if _h : last + 1 - (index + 1) < last + 1 - first then
                  match ← guardedValue ctx ts (index + 1) last with
                  | .error e => .ok (.error e)
                  | .ok b =>
                    match t with
                    | .binary op => .ok (op.apply a b)
                    | _ => .error .operator
                else .error (.repeated (index + 1) last)
            else .error (.repeated first middle)
termination_by last + 1 - first

/-- True if parentheses match, of which `depth` are open before the tokens. -/
def guardedBalanced (depth : Int) : List Token → Except Slip Bool
  | [] => .ok (depth = 0)
  | t :: ts => do
    let depth ← deepen depth t
    if depth < 0 then .ok false else guardedBalanced depth ts

/-- The value of an expression, read by offset and computed by index. With debug records the reading is
recorded. -/
def guardedEval (debug : Bool) (ctx : Context) (e : List Char) :
    Except Slip (Except Error UInt32) := do
  match ← guardedTokens debug e with
  | .error err => .ok (.error err)
  | .ok ts =>
    if ts = [] then .ok (.error .emptyOperand)
    else
      if ← guardedBalanced 0 ts then guardedValue ctx ts 0 (← previous ts.length)
      else .ok (.error .unmatchedParen)

/-! ## Accesses -/

section

variable {ts : List Token} {t : Token} {first last index : Nat}

theorem rangeAt_eq (h : first ≤ last + 1) (hlast : last < ts.length) :
    rangeAt ts first last = .ok (segment ts first last) :=
  if_pos ⟨h, hlast⟩

/-- A few parentheses are not too deep. -/
theorem deepen_eq {depth depth' : Int} (hlow : -2 ^ 31 < depth) (hhigh : depth + 1 < 2 ^ 31)
    (ht : depth + t.nesting = depth') : deepen depth t = .ok depth' := by
  subst ht
  refine if_pos ?_
  cases t <;> simp only [Token.nesting] <;> omega

theorem length_segment (hlast : last < ts.length) :
    (segment ts first last).length = last + 1 - first := by
  rw [segment, List.length_drop, List.length_take, Nat.min_eq_left hlast]

theorem getElem?_segment {k : Nat} (h : first + k ≤ last) :
    (segment ts first last)[k]? = ts[first + k]? := by
  rw [segment, List.getElem?_drop, List.getElem?_take_of_lt (by omega)]

theorem segment_eq_nil (h : last < first) : segment ts first last = [] := by
  refine List.drop_eq_nil_of_le ?_
  rw [List.length_take]
  omega

/-- A range is its first token, and the range behind it. -/
theorem segment_cons (h : first ≤ last) (hfirst : ts[first]? = some t) :
    segment ts first last = t :: segment ts (first + 1) last := by
  have hget : (ts.take (last + 1))[first]? = some t := by
    rwa [List.getElem?_take_of_lt (by omega)]
  obtain ⟨hlt, rfl⟩ := List.getElem?_eq_some_iff.mp hget
  exact List.drop_eq_getElem_cons hlt

theorem segment_whole (h : ts.length = last + 1) : segment ts 0 last = ts := by
  rw [segment, List.drop_zero, ← h, List.take_length]

theorem segment_self (h : ts[first]? = some t) : segment ts first first = [t] := by
  rw [segment_cons le_rfl h, segment_eq_nil (Nat.lt_succ_self first)]

theorem take_segment {k : Nat} (h : first + k ≤ last) :
    (segment ts first last).take (k + 1) = segment ts first (first + k) := by
  rw [segment, List.take_drop, List.take_take, segment]
  congr 2
  omega

theorem drop_segment (k : Nat) : (segment ts first last).drop k = segment ts (first + k) last := by
  rw [segment, List.drop_drop, segment]

theorem dropLast_segment (h : first ≤ last + 1) (hlast : last + 1 < ts.length) :
    (segment ts first (last + 1)).dropLast = segment ts first last := by
  rw [List.dropLast_eq_take, length_segment hlast, segment, List.take_drop, List.take_take, segment]
  congr 2
  omega

end

/-! ## Parentheses -/

section

variable {ts : List Token}

theorem guardedBalanced_eq {d : Nat} (h : d + ts.length < 2 ^ 31) :
    guardedBalanced d ts = .ok (balanced d ts) := by
  induction ts generalizing d with
  | nil => simp [guardedBalanced, balanced]
  | cons t ts ih =>
    rw [List.length_cons] at h
    have hmore : ∀ d' : Nat, d' ≤ d + 1 → (d : Int) + t.nesting = d' →
        guardedBalanced d (t :: ts) = .ok (balanced d' ts) := by
      intro d' hle hd'
      have hopen : ¬ (d' : Int) < 0 := by omega
      rw [guardedBalanced, deepen_eq (by omega) (by omega) hd']
      simp only [ok_bind]
      rw [if_neg hopen, ih (by omega)]
    cases t with
    | opening => exact hmore (d + 1) le_rfl rfl
    | closing =>
      cases d with
      | zero => rfl
      | succ d => exact hmore d (by omega) (by simp [Token.nesting])
    | literal | register | binary | unary => exact hmore d (by omega) (add_zero _)

/-- The end of a row is found by its index. -/
theorem staysOpen_eq {first last offset d : Nat} (hend : first + offset + ts.length = last + 1)
    (hd : 0 < d) (hdeep : d + ts.length < 2 ^ 31) :
    staysOpen first last offset d ts = .ok (closesLast d ts) := by
  induction ts generalizing d offset with
  | nil => rfl
  | cons t ts ih =>
    rw [List.length_cons] at hend hdeep
    have hlast : first + offset = last ↔ ts = [] := by
      rw [← List.length_eq_zero_iff]
      omega
    have hmore : ∀ d' : Nat, d' ≤ d + 1 → (d : Int) + t.nesting = d' →
        staysOpen first last offset d (t :: ts) =
          .ok ((d' ≠ 0 || ts.isEmpty) && closesLast d' ts) := by
      intro d' hle hd'
      rw [staysOpen, deepen_eq (by omega) (by omega) hd']
      rcases Nat.eq_zero_or_pos d' with rfl | hpos
      · cases ts with
        | nil => simp [ok_bind, hlast, closesLast, staysOpen]
        | cons t ts => simp [ok_bind, hlast]
      · simp only [ok_bind]
        rw [if_neg (by omega), ih (by omega) hpos (by omega)]
        simp [hpos.ne']
    cases t with
    | opening => exact hmore (d + 1) le_rfl rfl
    | closing => exact hmore (d - 1) (by omega) (by simp only [Token.nesting]; omega)
    | literal | register | binary | unary => exact hmore d (by omega) (add_zero _)

theorem getLast?_segment {first last : Nat} (h : first ≤ last) (hlast : last < ts.length) :
    (segment ts first last).getLast? = ts[last]? := by
  rw [List.getLast?_eq_getElem?, length_segment hlast, getElem?_segment (by omega)]
  congr 1
  omega

/-- That parentheses enclose a range is found by its indices. -/
theorem matchingPair_eq {first last : Nat} (h : first < last) (hlast : last < ts.length)
    (hdeep : ts.length < 2 ^ 31) :
    matchingPair ts first last = .ok (enclosed (segment ts first last)) := by
  have hfirst : ∃ t, ts[first]? = some t := ⟨_, List.getElem?_eq_getElem (h.trans hlast)⟩
  have hget : ∃ u, ts[last]? = some u := ⟨_, List.getElem?_eq_getElem hlast⟩
  obtain ⟨⟨t, hfirst⟩, u, hget⟩ := And.intro hfirst hget
  have hlen : (segment ts (first + 1) last).length = last + 1 - (first + 1) := length_segment hlast
  have hend : (segment ts (first + 1) last).getLast? = ts[last]? := getLast?_segment h hlast
  rw [matchingPair, tokenAt_of_getElem? hfirst, tokenAt_of_getElem? hget,
    rangeAt_eq (by omega) hlast, segment_cons h.le hfirst]
  simp only [ok_bind]
  by_cases ht : t = .opening
  · subst ht
    have hstays : staysOpen first last 0 0 (.opening :: segment ts (first + 1) last) =
        .ok (closesLast 1 (segment ts (first + 1) last)) := by
      have hrest : first + 1 + (segment ts (first + 1) last).length = last + 1 := by omega
      exact staysOpen_eq (d := 1) hrest Nat.one_pos (by omega)
    rw [enclosed, hend, hget, hstays]
    by_cases hu : u = .closing <;> simp [hu]
  · have hnot : enclosed (t :: segment ts (first + 1) last) = false := by
      cases t <;> first | rfl | exact absurd rfl ht
    rw [hnot, if_pos ht]

end

/-! ## The dominant operator -/

section

variable {ts : List Token} {best : Option (Nat × Nat)}

theorem dominantLoop_eq {n i d : Nat} (hin : i + n ≤ ts.length) (hdeep : d + n < 2 ^ 31) :
    dominantLoop ts n i d best = .ok (dominantFrom d i best ((ts.drop i).take n)) := by
  induction n generalizing i d best with
  | zero => simp [dominantLoop, dominantFrom]
  | succ n ih =>
    have hlt : i < ts.length := by omega
    rw [List.drop_eq_getElem_cons hlt, List.take_succ_cons, dominantLoop,
      tokenAt_of_getElem? (List.getElem?_eq_getElem hlt), ok_bind]
    cases ht : ts[i] with
    | opening =>
      -- a depth below 2 ^ 31 does not wrap
      have hopen : deepen d .opening = .ok ((d + 1 : Nat) : Int) := deepen_eq (by omega) (by omega) rfl
      simp only [hopen, ok_bind, dominantFrom]
      exact ih (by omega) (by omega)
    | closing =>
      -- a parenthesis that closes too much ends both searches
      cases d with
      | zero => rfl
      | succ d =>
        have hclose : deepen ((d + 1 : Nat) : Int) .closing = .ok (d : Int) :=
          deepen_eq (by omega) (by omega) (by simp [Token.nesting])
        have hopen : ¬ (d : Int) < 0 := by omega
        simp only [hclose, ok_bind, dominantFrom]
        rw [if_neg hopen]
        exact ih (by omega) (by omega)
    | literal | register | binary | unary =>
      cases d with
      | zero => simpa [dominantFrom, Token.priority?] using ih (d := 0) (by omega) (by omega)
      | succ d =>
        have hopen : (0 : Int) < (d + 1 : Nat) := by omega
        simp only [dominantFrom]
        rw [if_pos hopen]
        exact ih (by omega) (by omega)

/-- A best operator so far, in a row that starts at an index. -/
def shift (first : Nat) (best : Option (Nat × Nat)) : Option (Nat × Nat) :=
  best.map fun (i, p) => (first + i, p)

theorem better_shift (first i p : Nat) (unary : Bool) :
    better (shift first best) (first + i) p unary = shift first (better best i p unary) := by
  rcases best with _ | ⟨j, q⟩
  · rfl
  · simp only [shift, better, Option.map_some]
    split <;> rfl

theorem dominantFrom_shift (first d i : Nat) :
    dominantFrom d (first + i) (shift first best) ts =
      (dominantFrom d i best ts).map (Option.map (first + ·)) := by
  induction ts generalizing d i best with
  | nil =>
    rw [dominantFrom, dominantFrom]
    split
    · cases best <;> rfl
    · rfl
  | cons t ts ih =>
    cases t with
    | opening => exact ih (d + 1) (i + 1)
    | closing =>
      cases d with
      | zero => rfl
      | succ d => exact ih d (i + 1)
    | literal | register => cases d <;> exact ih _ (i + 1)
    | binary op =>
      cases d with
      | zero =>
        rw [dominantFrom_binary, dominantFrom_binary, better_shift]
        exact ih 0 (i + 1)
      | succ d => exact ih (d + 1) (i + 1)
    | unary op =>
      cases d with
      | zero =>
        rw [dominantFrom_unary, dominantFrom_unary, better_shift]
        exact ih 0 (i + 1)
      | succ d => exact ih (d + 1) (i + 1)

/-- The dominant operator of a range is that of its row, found by its index. -/
theorem dominantIn_eq {first last : Nat} (h : first ≤ last) (hlast : last < ts.length)
    (hdeep : ts.length < 2 ^ 31) :
    dominantIn ts first last =
      .ok ((dominant (segment ts first last)).map (Option.map (first + ·))) := by
  have hloop : dominantLoop ts (last + 1 - first) first ((0 : Nat) : Int) none = _ :=
    dominantLoop_eq (by omega) (by omega)
  rw [dominantIn, ← Int.natCast_zero, hloop, ← List.drop_take, ← segment, dominant,
    ← dominantFrom_shift]
  rfl

theorem better_eq (best : Option (Nat × Nat)) (i p : Nat) (unary : Bool) :
    better best i p unary = best ∨ better best i p unary = some (i, p) := by
  unfold better
  split
  · exact .inr rfl
  · split
    · exact .inr rfl
    · exact .inl rfl

theorem dominantFrom_operator {d i k : Nat} (h : dominantFrom d i best ts = .ok (some k)) :
    (∃ p, best = some (k, p)) ∨ ∃ j t, k = i + j ∧ ts[j]? = some t ∧ t.priority?.isSome := by
  induction ts generalizing d i best with
  | nil =>
    rw [dominantFrom] at h
    split at h
    · obtain ⟨⟨k', p⟩, hbest, rfl⟩ := Option.map_eq_some_iff.mp (Except.ok.inj h)
      exact .inl ⟨p, hbest⟩
    · cases h
  | cons t ts ih =>
    -- what is found later has an index that is one higher
    have hlater : ∀ {best' : Option (Nat × Nat)} {d' : Nat},
        dominantFrom d' (i + 1) best' ts = .ok (some k) → (∃ p, best' = some (k, p)) ∨
          ∃ j u, k = i + j ∧ (t :: ts)[j]? = some u ∧ u.priority?.isSome := by
      intro best' d' h
      obtain hbest | ⟨j, u, rfl, hu, hop⟩ := ih h
      · exact .inl hbest
      · exact .inr ⟨j + 1, u, by omega, hu, hop⟩
    unfold dominantFrom at h
    split at h
    · exact hlater h
    · split at h
      · cases h
      · exact hlater h
    · split at h
      · rename_i p hp
        obtain ⟨q, hbest⟩ | hlater := hlater h
        -- the token itself, where it is better than the best one before it
        · obtain hkeep | hnew := better_eq best i p t.isUnary
          · exact .inl ⟨q, hkeep ▸ hbest⟩
          · rw [hnew] at hbest
            cases hbest
            exact .inr ⟨0, t, rfl, rfl, by rw [hp]; rfl⟩
        · exact .inr hlater
      · exact hlater h

/-- What is found for the dominant operator is an operator. -/
theorem dominant_operator {k : Nat} (h : dominant ts = .ok (some k)) :
    ∃ t, ts[k]? = some t ∧ t.priority?.isSome := by
  obtain ⟨p, hnone⟩ | ⟨j, t, rfl, ht, hop⟩ := dominantFrom_operator h
  · cases hnone
  · exact ⟨t, by rwa [Nat.zero_add], hop⟩

end

/-! ## Values -/

section

variable {ctx : Context} {ts : List Token}

section

variable {first last k : Nat}

/-- The row between the parentheses around a range. -/
theorem split_segment_group (h : first < last) (hlast : last < ts.length)
    (he : enclosed (segment ts first last) = true) :
    split (segment ts first last) = .ok (.group (segment ts (first + 1) (last - 1))) := by
  obtain ⟨last, rfl⟩ : ∃ l, last = l + 1 := ⟨last - 1, by omega⟩
  have hlen : (segment ts first (last + 1)).length = last + 1 + 1 - first := length_segment hlast
  rw [split_of_enclosed (by omega) he, ← List.drop_one, drop_segment, dropLast_segment (by omega) hlast]
  rfl

/-- A row that does not stand in parentheses is split at its dominant operator. -/
theorem split_segment_open (h : first < last) (hlast : last < ts.length)
    (he : enclosed (segment ts first last) = false) :
    split (segment ts first last) = (do
      let some k ← dominant (segment ts first last) | .error .malformed
      splitAround (segment ts first last) k) :=
  split_of_open (by rw [length_segment hlast]; omega) he

theorem value_segment_unary {op : UnaryOp} (hk : first + k ≤ last)
    (hop : ts[first + k]? = some (.unary op))
    (hsplit : split (segment ts first last) = splitAround (segment ts first last) k) :
    value ctx (segment ts first last) =
      if k = 0 then do op.apply ctx (← value ctx (segment ts (first + 1) last))
      else .error .malformed := by
  rw [splitAround, getElem?_segment hk, hop, ← List.drop_one, drop_segment] at hsplit
  by_cases hk0 : k = 0
  · simp only [if_pos hk0] at hsplit ⊢
    exact value_of_split hsplit
  · simp only [if_neg hk0] at hsplit ⊢
    exact value_of_split_error hsplit

theorem value_segment_binary {op : BinaryOp} (hk : first + k ≤ last) (hlast : last < ts.length)
    (hop : ts[first + k]? = some (.binary op))
    (hsplit : split (segment ts first last) = splitAround (segment ts first last) k) :
    value ctx (segment ts first last) =
      if k = 0 ∨ first + k = last then .error .emptyOperand
      else (do
        let a ← value ctx (segment ts first (first + k - 1))
        let b ← value ctx (segment ts (first + k + 1) last)
        op.apply a b) := by
  have hend : k + 1 = (segment ts first last).length ↔ first + k = last := by
    rw [length_segment hlast]
    omega
  rw [splitAround, getElem?_segment hk, hop] at hsplit
  simp only [hend] at hsplit
  by_cases hedge : k = 0 ∨ first + k = last
  · rw [if_pos hedge] at hsplit ⊢
    exact value_of_split_error hsplit
  · rw [if_neg hedge, drop_segment] at hsplit
    obtain ⟨k, rfl⟩ : ∃ l, k = l + 1 := ⟨k - 1, by omega⟩
    rw [take_segment (by omega)] at hsplit
    rw [if_neg hedge]
    exact value_of_split hsplit

end

/-- The literals of a row have the texts that their rule takes. -/
def Token.Spelled (t : Token) : Prop :=
  ∀ text, t = .literal .hex text → Rule.hex.Matches text

theorem cutAt_hex {text : List Char} (h : Rule.hex.Matches text) :
    cutAt 2 text = .ok (text.take 2, text.drop 2) := by
  obtain ⟨x, ds, rfl, hx, -⟩ := h
  obtain rfl | rfl := hx
  · exact cutAt_append (show Text.byteSize ['0', 'x'] = 2 by decide) ds
  · exact cutAt_append (show Text.byteSize ['0', 'X'] = 2 by decide) ds

theorem guardedOperand_eq {t : Token} (ht : t.Spelled) : guardedOperand ctx t = .ok (t.value ctx) := by
  cases t with
  | literal radix text =>
    cases radix with
    | decimal => rfl
    | hex =>
      rw [guardedOperand, Token.text, cutAt_hex (ht text rfl)]
      rfl
  | register name =>
    have hname : cutAt 1 ('$' :: name) = .ok (['$'], name) :=
      cutAt_append (show Text.byteSize ['$'] = 1 by decide) name
    rw [guardedOperand, Token.text, hname]
    rfl
  | binary | unary | opening | closing => rfl

/-- The value of a range is that of its row. -/
theorem guardedValue_eq (hts : ∀ t ∈ ts, t.Spelled) (hdeep : ts.length < 2 ^ 31) {first last : Nat}
    (hin : first ≤ last → last < ts.length) :
    guardedValue ctx ts first last = .ok (value ctx (segment ts first last)) := by
  -- by induction on the number of tokens, because a range becomes smaller on either side
  induction hn : last + 1 - first using Nat.strong_induction_on generalizing first last with
  | _ n ih =>
  subst hn
  rw [guardedValue]
  obtain hempty | rfl | hlt := Nat.lt_trichotomy last first
  -- an empty range has no operand, and a range of one token is an operand
  · have hnil : split [] = .error .emptyOperand := rfl
    rw [if_pos hempty, segment_eq_nil hempty, value_of_split_error hnil]
  · have hlast := hin le_rfl
    have hget := List.getElem?_eq_getElem hlast
    have hsingle : split [ts[last]] = .ok (.single ts[last]) := rfl
    rw [if_neg (lt_irrefl last), if_pos rfl, tokenAt_of_getElem? hget, ok_bind, segment_self hget,
      value_of_split hsingle]
    exact guardedOperand_eq (hts _ (List.getElem_mem hlast))
  have hlast := hin hlt.le
  rw [if_neg hlt.not_gt, if_neg hlt.ne, matchingPair_eq hlt hlast hdeep, ok_bind]
  cases he : enclosed (segment ts first last) with
  | true =>
    -- a pair of parentheses around the range is taken off
    have hsplit := split_segment_group hlt hlast he
    obtain ⟨last, rfl⟩ : ∃ l, last = l + 1 := ⟨last - 1, by omega⟩
    rw [if_pos rfl, previous_succ, ok_bind, dif_pos (by omega), value_of_split hsplit]
    exact ih _ (by omega) (by omega) rfl
  | false =>
    have hsplit := split_segment_open hlt hlast he
    rw [if_neg Bool.false_ne_true, dominantIn_eq hlt.le hlast hdeep, ok_bind]
    -- the search ends with an error, without an operator or with the one at `first + k`
    rcases hd : dominant (segment ts first last) with err | _ | k
    · rw [hd] at hsplit
      rw [value_of_split_error hsplit]
      rfl
    · rw [hd] at hsplit
      rw [value_of_split_error hsplit]
      rfl
    obtain ⟨t, ht, hop⟩ := dominant_operator hd
    have hk : first + k ≤ last := by
      have hlt := (List.getElem?_eq_some_iff.mp ht).1
      rw [length_segment hlast] at hlt
      omega
    rw [getElem?_segment hk] at ht
    rw [hd, ok_bind] at hsplit
    simp only [Except.map, Option.map, tokenAt_of_getElem? ht, ok_bind]
    cases t with
    | unary op =>
      -- a prefix operator is dominant only at the start of its range
      rw [value_segment_unary hk ht hsplit]
      cases k with
      | zero =>
        simp only [Nat.add_zero, ne_eq, not_true_eq_false, ↓reduceIte]
        rw [dif_pos (by omega), ih _ (by omega) (by omega) rfl, ok_bind]
        rfl
      | succ k =>
        simp only
        rw [if_pos (by omega), if_neg k.succ_ne_zero]
    | binary op =>
      rw [value_segment_binary hk hlast ht hsplit]
      by_cases hedge : k = 0 ∨ first + k = last
      · simp only
        rw [if_pos (by omega), if_pos hedge]
      -- neither side is empty, so the range on the left ends before the operator without an underflow
      · obtain ⟨middle, hmiddle⟩ : ∃ middle, first + k = middle + 1 := ⟨first + k - 1, by omega⟩
        simp only [hmiddle, Nat.add_sub_cancel] at hedge ⊢
        rw [if_neg (by omega), if_neg hedge, previous_succ, ok_bind, dif_pos (by omega),
          ih _ (by omega) (by omega) rfl, ok_bind]
        cases value ctx (segment ts first middle) with
        | error err => rfl
        | ok a =>
          simp only [ok_bind]
          rw [dif_pos (by omega), ih _ (by omega) (by omega) rfl, ok_bind]
          cases value ctx (segment ts (middle + 1 + 1) last) <;> rfl
    | literal | register | opening | closing => cases hop

end

/-! ## Tokens -/

theorem Reads.length_eq {previous : Option (List Char)} {texts : List (List Char)} {ts : List Token}
    (h : Reads previous texts ts) : ts.length = texts.length := by
  induction h with
  | nil => rfl
  | cons _ _ ih => rw [List.length_cons, List.length_cons, ih]

theorem Reads.spelled {previous : Option (List Char)} {texts : List (List Char)} {ts : List Token}
    (h : Reads previous texts ts) : ∀ t ∈ ts, t.Spelled := by
  induction h with
  | nil => exact List.forall_mem_nil _
  | cons hof _ ih =>
    refine List.forall_mem_cons.mpr ⟨?_, ih⟩
    rintro text rfl
    cases hof
    assumption

/-- The text of an operand is what its lexeme took. -/
theorem Lexeme.token?_text {l : Lexeme} {a : Bool} {t : Token} (hl : l.rule.Matches l.text)
    (h : l.token? a = some t) (ht : t.isOperand) : t.text = l.text := by
  cases hr : l.rule <;> simp only [token?, hr] at h <;> (try split at h) <;> cases h <;>
    first | rfl | cases ht
  rw [hr] at hl
  obtain ⟨name, hname, -⟩ := hl
  rw [hname]
  rfl

/-- An expression that can be marked, or is not recorded, is computed by index as it is. -/
theorem guardedEval_eq {debug : Bool} {e : List Char} (h : marked debug (tokens e) = .ok (tokens e))
    (ctx : Context) : guardedEval debug ctx e = .ok (eval ctx e) := by
  rw [guardedEval, guardedTokens_eq, h, ok_bind, eval]
  cases htokens : tokens e with
  | error err => rfl
  | ok ts =>
    obtain ⟨ps, -, hlen, hreads⟩ := exists_cuts_of_tokens htokens
    rw [← hreads.length_eq] at hlen
    rw [ok_bind]
    simp only
    by_cases hnil : ts = []
    · rw [if_pos hnil, if_pos hnil]
    obtain ⟨last, hlast⟩ : ∃ last, ts.length = last + 1 :=
      ⟨ts.length - 1, (Nat.sub_add_cancel (List.length_pos_iff.mpr hnil)).symm⟩
    have hbalanced : guardedBalanced (0 : Nat) ts = .ok (balanced 0 ts) := guardedBalanced_eq (by omega)
    rw [if_neg hnil, if_neg hnil, ← Int.natCast_zero, hbalanced, ok_bind]
    cases balanced 0 ts with
    | false => rfl
    | true =>
      rw [if_pos rfl, if_pos rfl, hlast, previous_succ, ok_bind,
        guardedValue_eq hreads.spelled (by omega) (by omega), segment_whole hlast]

/-- An expression that cannot be marked ends the evaluation if it is recorded. -/
theorem guardedEval_slip {e : List Char} {position : Nat} (h : tokens e = .error (.noMatch position))
    (hwide : UInt16.size ≤ position + 1) (ctx : Context) :
    guardedEval true ctx e = .error (.column (position + 1)) := by
  rw [guardedEval, guardedTokens_eq, h, marked_of_wide hwide]
  rfl

/-! ## Slips -/

/-- The evaluator slips at one place only. Each piece that is cut off an expression takes a byte or more,
starts where the piece before it ends, and starts and ends at character boundaries; a point where no piece
starts is such a boundary before the end. Literals and registers keep what was cut off. If debug records are
kept and the point where no piece starts is so far to the right that it cannot be marked, the mark is a slip
and the evaluation aborts. Otherwise, with every offset, index, range, depth, cut and recursive call looked at,
the result is the value of the expression or the reason why it has none. -/
theorem evaluate_slip (log : Log) (ctx : Context) (e : List Char) :
    let debug := log.admits .debug
    let log' := log.addTexts .debug (records e)
    (∀ before l after, (scan e).lexemes = before ++ l :: after →
      l.Sits e ∧ l.position = Text.byteSize (before.flatMap Lexeme.text) ∧
      ∀ a t, l.token? a = some t → t.isOperand → t.text = l.text) ∧
    (∀ position, tokens e = .error (.noMatch position) →
      position < Text.byteSize e ∧ String.Pos.Raw.IsValid (String.ofList e) ⟨position⟩) ∧
    (∀ position, tokens e = .error (.noMatch position) → debug = true → UInt16.size ≤ position + 1 →
      guardedEval debug ctx e = .error (.column (position + 1)) ∧
      evaluate log ctx e = .error ⟨.columnTooWide, log'⟩) ∧
    ((∀ position, tokens e = .error (.noMatch position) → debug = true → position + 1 < UInt16.size) →
      guardedEval debug ctx e = .ok (eval ctx e) ∧ evaluate log ctx e = .ok (eval ctx e, log')) := by
  intro debug log'
  refine ⟨fun before l after h => ⟨scan_sits h, ?_, fun a t => ?_⟩, fun position h => ?_,
    fun position h hdebug hwide => ⟨?_, ?_⟩, fun h => ⟨?_, ?_⟩⟩
  · rw [scanFrom_position 0 e before l after h, Nat.zero_add]
  · have hmem : l ∈ (scan e).lexemes := by simp [h]
    exact Lexeme.token?_text (matches_of_mem_scan hmem)
  · obtain ⟨ps, rest, hcuts, hne, -, -, rfl⟩ := tokens_noMatch_iff.mp h
    rw [hcuts.eq_append]
    refine ⟨?_, isValid_byteSize _ _⟩
    rw [byteSize_append]
    exact Nat.lt_add_of_pos_right (byteSize_pos hne)
  · rw [hdebug]
    exact guardedEval_slip h hwide ctx
  · exact evaluate_abort hdebug ⟨position, h, hwide⟩ ctx
  · exact guardedEval_eq (marked_of_markable h) ctx
  · refine evaluate_ok ?_ ctx
    rintro ⟨hdebug, position, hstuck, hwide⟩
    exact (h position hstuck hdebug).not_ge hwide

/-- The blank takes three bytes, so that the register starts at the byte 6, and a text that starts no lexeme
at the byte 4. Both expressions are recorded. -/
theorem evaluate_slip_wide_blank :
    let log : Log := { threshold := some .debug }
    let ctx : Context := ⟨fun name => if name = "eax" then some 5 else none, fun _ => none⟩
    let e := "(7\u3000+$eax)".toList
    let stuck := "7\u3000=".toList
    let before : List Lexeme :=
      [⟨.opening, ['('], 0⟩, ⟨.decimal, ['7'], 1⟩, ⟨.blank, ['\u3000'], 2⟩, ⟨.plus, ['+'], 5⟩]
    let l : Lexeme := ⟨.register, "$eax".toList, 6⟩
    let after : List Lexeme := [⟨.closing, [')'], 10⟩]
    (scan e).lexemes = before ++ l :: after ∧ l.Sits e ∧
    l.token? false = some (.register "eax".toList) ∧
    (Token.register "eax".toList).text = "$eax".toList ∧
    tokens stuck = .error (.noMatch 4) ∧ 4 < Text.byteSize stuck ∧
    String.Pos.Raw.IsValid (String.ofList stuck) ⟨4⟩ ∧
    guardedEval true ctx e = .ok (.ok 12) ∧
    guardedEval true ctx stuck = .ok (.error (.noMatch 4)) ∧
    evaluate log ctx stuck = .ok (.error (.noMatch 4), log.addTexts .debug (records stuck)) := by
  intro log ctx e stuck before l after
  have hscan : (scan e).lexemes = before ++ l :: after := by decide +kernel
  have htoken : l.token? false = some (.register "eax".toList) := by decide
  have hstuck : tokens stuck = .error (.noMatch 4) := by decide +kernel
  have hvalue : eval ctx e = .ok 12 := by decide +kernel
  have hnone : eval ctx stuck = .error (.noMatch 4) := by decide +kernel
  obtain ⟨hpieces, -, -, hvalues⟩ := evaluate_slip log ctx e
  obtain ⟨-, hpoint, -, herrors⟩ := evaluate_slip log ctx stuck
  obtain ⟨hsits, -, htext⟩ := hpieces before l after hscan
  obtain ⟨hlt, hvalid⟩ := hpoint 4 hstuck
  obtain ⟨hguarded, -⟩ := hvalues fun position h => by
    rw [eval, h] at hvalue
    cases hvalue
  obtain ⟨hguarded', hevaluate⟩ := herrors fun position h _ => by
    cases hstuck.symm.trans h
    decide
  rw [hvalue] at hguarded
  rw [hnone] at hguarded' hevaluate
  exact ⟨hscan, hsits, htoken, htext false _ htoken rfl, hstuck, hlt, hvalid, hguarded, hguarded',
    hevaluate⟩

/-- Behind 65535 blanks comes a character that starts no lexeme. Without debug records the evaluation says so,
and with them it aborts. -/
theorem evaluate_slip_blanks :
    let ctx : Context := ⟨fun _ => none, fun _ => none⟩
    let e := List.replicate 65535 ' ' ++ ['#']
    let quiet : Log := { threshold := some .info }
    let log : Log := { threshold := some .debug }
    evaluate quiet ctx e = .ok (.error (.noMatch 65535), quiet) ∧
    guardedEval true ctx e = .error (.column 65536) ∧
    ∃ log', evaluate log ctx e = .error ⟨.columnTooWide, log'⟩ := by
  intro ctx e quiet log
  have hstuck : tokens e = .error (.noMatch 65535) := tokens_noMatch_iff.mpr (stuckAt_blanks (by decide))
  have hvalue : eval ctx e = .error (.noMatch 65535) := by
    rw [eval, hstuck]
    rfl
  have hquiet : quiet.admits .debug = false := by decide
  have hevaluate : evaluate quiet ctx e = .ok (eval ctx e, quiet.addTexts .debug (records e)) :=
    evaluate_ok (fun h => by cases hquiet.symm.trans h.1) ctx
  rw [hvalue, Log.addTexts_of_not_admits hquiet] at hevaluate
  exact ⟨hevaluate, guardedEval_slip hstuck (by decide) ctx, _,
    evaluate_abort rfl ⟨65535, hstuck, by decide⟩ ctx⟩

end Monitor386.Expr
