import Mathlib
import Monitor386.Proofs.Expr.Trails
import Monitor386.Proofs.Failure
import Monitor386.Proofs.Text.Fitting

/-!
# Reading by byte offset

An expression can be read without taking its text apart: the point that the search has come to is a byte
offset, and the rest of the text and the lexeme at its start are cut out there. `guardedTokens` does so and
looks at every cut, at every step forward and at the column of a mark. What goes wrong is a slip, and a slip
ends the reading.

* `cutAt_append`: a text is cut at the end of one of its characters.
* `guardedScan_eq`: the search by offset finds the lexemes of the scan.
* `rolesFrom_eq`: the token before a minus or a star is found by its index.
* `guardedTokens_eq`: what is read by offset is what is read, but for a mark that cannot be made.
* `scan_sits`: each lexeme takes a byte or more, from the end of one character to the end of another.
-/

namespace Monitor386.Expr

open Text (byteSize_append utf8ByteSize_eq)

/-! ## Slips -/

/-- What must not happen when an expression is read by offset and computed by index. -/
inductive Slip where
  /-- A text has no character boundary at this offset. -/
  | offset (n : Nat)
  /-- The search does not go on from this offset. -/
  | stalled (position : Nat)
  /-- A mark is to be put into the last column of so many, which are too many. -/
  | column (width : Nat)
  /-- No token has this index. -/
  | token (index : Nat)
  /-- From one index to the other is no range of tokens. -/
  | range (first last : Nat)
  /-- An index before the first one. -/
  | below
  /-- More or fewer open parentheses than a signed word holds. -/
  | depth
  /-- To compute a range, another one is to be computed that is not smaller. -/
  | repeated (first last : Nat)
  /-- A token that is neither a prefix nor a binary operator is to be applied. -/
  | operator
  deriving DecidableEq

/-- The text before an offset and the text from there on, if a character ends there. -/
def splitAtByte? : Nat → List Char → Option (List Char × List Char)
  | 0, cs => some ([], cs)
  | _ + 1, [] => none
  | n + 1, c :: cs =>
    if c.utf8Size ≤ n + 1 then
      (splitAtByte? (n + 1 - c.utf8Size) cs).map fun (before, after) => (c :: before, after)
    else none

def cutAt (n : Nat) (text : List Char) : Except Slip (List Char × List Char) :=
  (splitAtByte? n text).elim (.error (.offset n)) .ok

def tokenAt (ts : List Token) (index : Nat) : Except Slip Token :=
  (ts[index]?).elim (.error (.token index)) .ok

/-- The index before another. -/
def previous (index : Nat) : Except Slip Nat :=
  if index = 0 then .error .below else .ok (index - 1)

/-! ## Reading -/

/-- The result of a search. If the search is recorded, the point where it got stuck is marked. -/
def marked {α : Type} (debug : Bool) : Except Error α → Except Slip (Except Error α)
  | .error (.noMatch position) =>
    if debug ∧ UInt16.size ≤ position + 1 then .error (.column (position + 1))
    else .ok (.error (.noMatch position))
  | r => .ok r

/-- The lexemes from an offset on, with `n` tokens before it. -/
def guardedScan (debug : Bool) (e : List Char) (position n : Nat) :
    Except Slip (Except Error (List Lexeme)) :=
  if _h : position < Text.byteSize e then do
    let (_, rest) ← cutAt position e
    match first? rest with
    | none => marked debug (.error (.noMatch position))
    | some (rule, found) => do
      let (text, _) ← cutAt (Text.byteSize found) rest
      if rule ≠ .blank ∧ n = maxTokens then .ok (.error .tooManyTokens)
      else if _h : 0 < Text.byteSize found then
        let n := if rule = .blank then n else n + 1
        let more ← guardedScan debug e (position + Text.byteSize found) n
        .ok (more.map (⟨rule, text, position⟩ :: ·))
      else .error (.stalled position)
  else .ok (.ok [])
termination_by Text.byteSize e - position

/-- The prefix operator that is written like a binary one. -/
def Token.asPrefix : Token → Token
  | binary .sub => unary .neg
  | binary .mul => unary .deref
  | t => t

/-- The token at an index, of tokens among which each operator that may be binary is. It is a prefix operator
unless an operand ends before it. -/
def roleAt (ts : List Token) (index : Nat) : Except Slip Token := do
  let t ← tokenAt ts index
  if index = 0 then .ok t.asPrefix
  else do
    let before ← tokenAt ts (← previous index)
    .ok (if before.endsOperand then t else t.asPrefix)

/-- The next `n` tokens from an index on. -/
def rolesFrom (ts : List Token) : Nat → Nat → Except Slip (List Token)
  | 0, _ => .ok []
  | n + 1, index => do
    let t ← roleAt ts index
    let more ← rolesFrom ts n (index + 1)
    .ok (t :: more)

/-- The tokens of an expression, read by offset. -/
def guardedTokens (debug : Bool) (e : List Char) : Except Slip (Except Error (List Token)) := do
  match ← guardedScan debug e 0 0 with
  | .error err => .ok (.error err)
  | .ok ls => do
    let ts := ls.filterMap (Lexeme.token? true)
    .ok (.ok (← rolesFrom ts ts.length 0))

/-! ## Cuts -/

section

variable {cs ds e : List Char} {n position : Nat} {debug : Bool}

theorem splitAtByte?_append (cs ds : List Char) :
    splitAtByte? (Text.byteSize cs) (cs ++ ds) = some (cs, ds) := by
  induction cs with
  | nil => rw [Text.byteSize_nil, List.nil_append, splitAtByte?]
  | cons c cs ih =>
    obtain ⟨n, hn⟩ := Nat.exists_eq_succ_of_ne_zero (Nat.ne_of_gt c.utf8Size_pos)
    have hsize : Text.byteSize (c :: cs) = n + Text.byteSize cs + 1 := by
      rw [Text.byteSize_cons, hn]
      omega
    have hrest : n + Text.byteSize cs + 1 - c.utf8Size = Text.byteSize cs := by omega
    rw [hsize, List.cons_append, splitAtByte?, if_pos (by omega), hrest, ih]
    rfl

/-- A text is cut at the end of one of its characters. -/
theorem cutAt_append (hn : Text.byteSize cs = n) (ds : List Char) :
    cutAt n (cs ++ ds) = .ok (cs, ds) := by
  rw [cutAt, ← hn, splitAtByte?_append]
  rfl

theorem byteSize_pos (h : cs ≠ []) : 0 < Text.byteSize cs := by
  obtain ⟨c, cs, rfl⟩ := List.exists_cons_of_ne_nil h
  rw [Text.byteSize_cons]
  exact Nat.add_pos_left c.utf8Size_pos _

/-! ## Marks -/

theorem marked_map {α β : Type} (f : α → β) (r : Except Error α) :
    (marked debug r >>= fun r => .ok (r.map f)) = marked debug (r.map f) := by
  rcases r with err | a
  · cases err with
    | noMatch position =>
      simp only [marked, Except.map]
      split <;> rfl
    | _ => rfl
  · rfl

/-- A search that is not recorded or that can be marked is left as it is. -/
theorem marked_of_markable {α : Type} {r : Except Error α}
    (h : ∀ position, r = .error (.noMatch position) → debug = true → position + 1 < UInt16.size) :
    marked debug r = .ok r := by
  unfold marked
  split
  next position =>
    refine if_neg ?_
    rintro ⟨hdebug, hwide⟩
    exact (h position rfl hdebug).not_ge hwide
  next => rfl

theorem marked_of_wide {α : Type} (h : UInt16.size ≤ position + 1) :
    marked true (.error (.noMatch position) : Except Error α) = .error (.column (position + 1)) :=
  if_pos ⟨rfl, h⟩

/-! ## Lexemes -/

/-- The lexemes of a text whose first character has an offset, if they make at most `room` tokens. -/
def searched (room position : Nat) (cs : List Char) : Except Error (List Lexeme) :=
  let s := scanFrom position cs
  if exceeds room s.lexemes then .error .tooManyTokens
  else if s.rest ≠ [] then .error (.noMatch (position + Text.byteSize cs - Text.byteSize s.rest))
  else .ok s.lexemes

theorem tokens_eq_map_searched (e : List Char) :
    tokens e = (searched maxTokens 0 e).map (tokensAfter false) := by
  rw [tokens, searched, scan, Nat.zero_add]
  split_ifs <;> rfl

theorem exceeds_cons (room : Nat) (l : Lexeme) (ls : List Lexeme) :
    exceeds room (l :: ls) =
      if l.rule = .blank then exceeds room ls else decide (room = 0) || exceeds (room - 1) ls := by
  unfold exceeds
  by_cases h : l.rule = .blank
  · simp [h]
  · rw [List.filter_cons_of_pos (by simpa using h), List.length_cons, if_neg h, ← Bool.decide_or]
    congr 1
    apply propext
    omega

theorem searched_of_stuck (h : Stuck cs) (room : Nat) :
    searched room position cs = if cs = [] then .ok [] else .error (.noMatch position) := by
  rw [searched, scanFrom_of_stuck h, Nat.add_sub_cancel]
  by_cases hcs : cs = [] <;> simp [hcs, exceeds]

theorem searched_of_takes {text : List Char} {r : Rule} (h : Takes (text ++ cs) r text) (room : Nat) :
    searched room position (text ++ cs) =
      if r ≠ .blank ∧ room = 0 then .error .tooManyTokens
      else (searched (if r = .blank then room else room - 1) (position + Text.byteSize text) cs).map
        (⟨r, text, position⟩ :: ·) := by
  have hsize : position + Text.byteSize (text ++ cs) = position + Text.byteSize text + Text.byteSize cs := by
    rw [byteSize_append, Nat.add_assoc]
  simp only [searched, scanFrom_of_takes h, exceeds_cons, hsize]
  by_cases hr : r = .blank
  · subst hr
    simp only [ne_eq, not_true_eq_false, false_and, ↓reduceIte]
    split_ifs <;> rfl
  · by_cases hroom : room = 0
    · simp [hr, hroom]
    · simp only [ne_eq, hr, hroom, not_false_eq_true, and_false, decide_false, Bool.false_or, ↓reduceIte]
      split_ifs <;> rfl

/-- The search by offset finds the lexemes of the scan, or gives up where the scan does. -/
theorem guardedScan_eq (before : List Char) (hn : n ≤ maxTokens) :
    guardedScan debug (before ++ cs) (Text.byteSize before) n =
      marked debug (searched (maxTokens - n) (Text.byteSize before) cs) := by
  -- by induction on what is left, since each lexeme moves from the rest to what is before it
  induction hlen : cs.length using Nat.strong_induction_on generalizing before cs n with
  | _ len ih =>
  subst hlen
  rw [guardedScan]
  obtain rfl | hcs := eq_or_ne cs []
  · rw [List.append_nil, dif_neg (lt_irrefl _), searched_of_stuck stuck_nil, if_pos rfl]
    rfl
  have hlt : Text.byteSize before < Text.byteSize (before ++ cs) := by
    rw [byteSize_append]
    exact Nat.lt_add_of_pos_right (byteSize_pos hcs)
  rw [dif_pos hlt, cutAt_append rfl, ok_bind]
  simp only
  cases hfirst : first? cs with
  | none => rw [searched_of_stuck (first?_eq_none_iff.mp hfirst), if_neg hcs]
  | some found =>
    obtain ⟨r, text⟩ := found
    have htakes := first?_eq_some_iff.mp hfirst
    obtain ⟨rest, rfl⟩ := htakes.start
    have hpos : 0 < Text.byteSize text := byteSize_pos htakes.matched.ne_nil
    have hshort : rest.length < (text ++ rest).length := by
      have := List.length_pos_iff.mpr htakes.matched.ne_nil
      rw [List.length_append]
      omega
    have hfull : maxTokens - n = 0 ↔ n = maxTokens := by omega
    simp only [cutAt_append rfl, ok_bind, searched_of_takes htakes, hfull]
    split
    · rfl
    next hroom =>
      have hroom' : (if r = .blank then n else n + 1) ≤ maxTokens ∧
          maxTokens - (if r = .blank then n else n + 1) =
            if r = .blank then maxTokens - n else maxTokens - n - 1 := by
        split
        next => exact ⟨hn, rfl⟩
        next hr =>
          have hne : n ≠ maxTokens := fun h => hroom ⟨hr, h⟩
          omega
      rw [← byteSize_append, ← List.append_assoc, ih _ hshort _ hroom'.1 rfl, hroom'.2,
        marked_map]

end

/-! ## Roles -/

/-- The roles of tokens that stand after the end of an operand, or not. -/
def retag (afterOperand : Bool) : List Token → List Token
  | [] => []
  | t :: ts => (if afterOperand then t else t.asPrefix) :: retag t.endsOperand ts

theorem Token.endsOperand_asPrefix (t : Token) : t.asPrefix.endsOperand = t.endsOperand := by
  unfold asPrefix
  split <;> rfl

theorem Lexeme.token?_eq_map (l : Lexeme) (a : Bool) :
    l.token? a = (l.token? true).map fun t => if a then t else t.asPrefix := by
  cases hr : l.rule <;> cases a <;> simp [token?, hr, Token.asPrefix]

theorem tokensAfter_eq_retag (a : Bool) (ls : List Lexeme) :
    tokensAfter a ls = retag a (ls.filterMap (Lexeme.token? true)) := by
  induction ls generalizing a with
  | nil => rfl
  | cons l ls ih =>
    rw [tokensAfter, l.token?_eq_map a]
    cases htoken : l.token? true with
    | none => rw [List.filterMap_cons_none htoken, Option.map_none, ih]
    | some t =>
      have hends : (if a then t else t.asPrefix).endsOperand = t.endsOperand := by
        split
        · rfl
        · exact t.endsOperand_asPrefix
      rw [List.filterMap_cons_some htoken, Option.map_some, retag, ← hends, ← ih]

section

variable {ts : List Token} {t : Token} {index : Nat}

theorem tokenAt_of_getElem? (h : ts[index]? = some t) : tokenAt ts index = .ok t := by
  rw [tokenAt, h]
  rfl

theorem previous_succ (index : Nat) : previous (index + 1) = .ok index :=
  rfl

end

theorem roleAt_eq (us : List Token) (t : Token) (vs : List Token) :
    roleAt (us ++ t :: vs) us.length =
      .ok (if us.getLast?.any Token.endsOperand then t else t.asPrefix) := by
  have hget : (us ++ t :: vs)[us.length]? = some t := by simp
  rw [roleAt, tokenAt_of_getElem? hget, ok_bind]
  rcases us.eq_nil_or_concat with rfl | ⟨us, u, rfl⟩
  · rfl
  · have hbefore : (us.concat u ++ t :: vs)[us.length]? = some u := by simp
    rw [List.length_concat, if_neg us.length.succ_ne_zero, previous_succ, ok_bind,
      tokenAt_of_getElem? hbefore, List.concat_eq_append, List.getLast?_concat]
    rfl

/-- The token before another is found by its index. -/
theorem rolesFrom_eq (us vs : List Token) :
    rolesFrom (us ++ vs) vs.length us.length = .ok (retag (us.getLast?.any Token.endsOperand) vs) := by
  induction vs generalizing us with
  | nil => rfl
  | cons t vs ih =>
    have hmore := ih (us ++ [t])
    rw [List.append_assoc, List.singleton_append, List.length_append, List.length_singleton,
      List.getLast?_concat] at hmore
    rw [List.length_cons, rolesFrom, roleAt_eq, ok_bind, hmore]
    rfl

/-! ## Tokens -/

/-- What is read by offset is what is read, but for a mark that cannot be made. -/
theorem guardedTokens_eq (debug : Bool) (e : List Char) :
    guardedTokens debug e = marked debug (tokens e) := by
  have hscan : guardedScan debug e 0 0 = marked debug (searched maxTokens 0 e) :=
    guardedScan_eq [] (Nat.zero_le _)
  have hroles (ls : List Lexeme) :
      rolesFrom (ls.filterMap (Lexeme.token? true)) (ls.filterMap (Lexeme.token? true)).length 0 =
        .ok (tokensAfter false ls) := by
    rw [tokensAfter_eq_retag]
    exact rolesFrom_eq [] _
  rw [tokens_eq_map_searched, ← marked_map, guardedTokens, hscan]
  congr 1
  funext r
  cases r with
  | error err => rfl
  | ok ls =>
    simp only [hroles, ok_bind]
    rfl

/-! ## Where lexemes sit -/

/-- A piece of a text that takes a byte or more, from the end of one character to the end of another. -/
structure Lexeme.Sits (e : List Char) (l : Lexeme) : Prop where
  consumes : 0 < Text.byteSize l.text
  copied : ∃ before after, e = before ++ l.text ++ after ∧ l.position = Text.byteSize before
  starts : String.Pos.Raw.IsValid (String.ofList e) ⟨l.position⟩
  ends : String.Pos.Raw.IsValid (String.ofList e) ⟨l.position + Text.byteSize l.text⟩

/-- A character boundary is what the bytes before it end with. -/
theorem isValid_byteSize (before after : List Char) :
    String.Pos.Raw.IsValid (String.ofList (before ++ after)) ⟨Text.byteSize before⟩ := by
  refine String.Pos.Raw.isValid_iff_exists_append.mpr ⟨String.ofList before, String.ofList after, ?_, ?_⟩
  · rw [String.ofList_append]
  · rw [← utf8ByteSize_eq]
    rfl

/-- Every lexeme starts where the one before it ends. -/
theorem scanFrom_position (position : Nat) (cs : List Char) :
    ∀ before l after, (scanFrom position cs).lexemes = before ++ l :: after →
      l.position = position + Text.byteSize (before.flatMap Lexeme.text) := by
  fun_induction scanFrom position cs with
  | case1 => simp
  | case2 position cs rule text _ _ tail ih =>
    rintro (_ | ⟨b, before⟩) l after h
    · cases h
      rfl
    · obtain ⟨rfl, htail⟩ := List.cons.inj h
      rw [ih before l after htail, List.flatMap_cons, byteSize_append, Nat.add_assoc]

theorem matches_of_mem_scan {e : List Char} {l : Lexeme} (h : l ∈ (scan e).lexemes) :
    l.rule.Matches l.text :=
  (scanFrom_cuts 0 e).1.matched l.piece (List.mem_map_of_mem h)

theorem scan_sits {e : List Char} {before after : List Lexeme} {l : Lexeme}
    (h : (scan e).lexemes = before ++ l :: after) : l.Sits e := by
  have hposition := scanFrom_position 0 e before l after h
  rw [Nat.zero_add] at hposition
  have hmem : l ∈ (scan e).lexemes := by simp [h]
  obtain ⟨rest, he⟩ : ∃ rest, e = before.flatMap Lexeme.text ++ l.text ++ rest := by
    refine ⟨after.flatMap Lexeme.text ++ (scan e).rest, ?_⟩
    conv_lhs => rw [← scan_append e, h]
    simp
  refine ⟨byteSize_pos (matches_of_mem_scan hmem).ne_nil, ⟨_, rest, he, hposition⟩, ?_, ?_⟩
  · rw [hposition, he, List.append_assoc]
    exact isValid_byteSize _ _
  · rw [hposition, he, ← byteSize_append]
    exact isValid_byteSize _ _

end Monitor386.Expr
