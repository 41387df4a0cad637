import Mathlib
import Monitor386.Expr.Token
import Monitor386.Proofs.Expr.Rules
import Monitor386.Proofs.Text.Fitting

/-!
# How an expression is cut

`Takes` is the first rule that has a text at the start of an expression, with the longest text of it
there, and `Cuts` repeats this from one scan point to the next. `Reads` says which tokens a row of texts
stands for, as a table over the texts.

* `first?_eq_some_iff`, `first?_eq_none_iff`: the function that tries the rules does what they say.
* `scanFrom_cuts`, `Cuts.scanFrom_eq`: the scan is the longest cut.
* `cuts_spread`: lexemes with blanks between them are cut as they were written.
* `exists_cuts_of_tokens`, `Cuts.tokens_eq`: the tokens of an expression are those of its cut.
* `tokens_noMatch_iff`, `tokens_tooMany_iff`: an error names the first point without a lexeme or the 33rd
  token, whichever comes first.
-/

namespace Monitor386.Expr

open Text (byteSize_append)

/-! ## The first rule -/

/-- A text has a rule at its start: no earlier rule has a text there, and this is the longest one. -/
structure Takes (cs : List Char) (r : Rule) (text : List Char) : Prop where
  matched : r.Matches text
  start : text <+: cs
  longest : ∀ t, r.Matches t → t <+: cs → t <+: text
  first : ∀ r' : Rule, ∀ t, r'.Matches t → t <+: cs → r.index ≤ r'.index

/-- No rule has a text at the start. -/
def Stuck (cs : List Char) : Prop :=
  ∀ r : Rule, ∀ t, r.Matches t → ¬ t <+: cs

section

variable {cs text text' : List Char} {r r' : Rule}

theorem Takes.unique (h : Takes cs r text) (h' : Takes cs r' text') : r = r' ∧ text = text' := by
  obtain rfl : r = r' := Rule.index_inj.mp <|
    le_antisymm (h.first r' text' h'.matched h'.start) (h'.first r text h.matched h.start)
  have hle := (h'.longest text h.matched h.start).length_le
  exact ⟨rfl, (h.longest text' h'.matched h'.start).eq_of_length_le hle |>.symm⟩

theorem stuck_of_first? (h : first? cs = none) : Stuck cs := by
  intro r
  have hr := List.findSome?_eq_none_iff.mp h r r.mem_all
  exact (r.lexeme?_longest cs).none_of (Option.map_eq_none_iff.mp hr)

theorem takes_of_first? (h : first? cs = some (r, text)) : Takes cs r text := by
  obtain ⟨before, a, after, hall, ha, hbefore⟩ := List.findSome?_eq_some_iff.mp h
  obtain ⟨m, hm, heq⟩ := Option.map_eq_some_iff.mp ha
  cases heq
  obtain ⟨hmatches, hstart, hlong⟩ := (r.lexeme?_longest cs).some_of text hm
  refine ⟨hmatches, hstart, hlong, fun r' t ht hstart' => ?_⟩
  -- a rule that has a text at the start is not among those before
  have hr' : r' ∉ before := fun hmem =>
    (r'.lexeme?_longest cs).none_of (Option.map_eq_none_iff.mp (hbefore r' hmem)) t ht hstart'
  have hr : r ∉ before := fun hmem => by
    rw [hbefore r hmem] at ha
    cases ha
  rw [Rule.index, Rule.index, hall, List.idxOf_append_of_notMem hr, List.idxOf_append_of_notMem hr',
    List.idxOf_cons_self]
  omega

theorem first?_eq_none_iff : first? cs = none ↔ Stuck cs := by
  refine ⟨stuck_of_first?, fun h => ?_⟩
  cases hf : first? cs with
  | none => rfl
  | some x =>
    have ht := takes_of_first? hf
    exact absurd ht.start (h _ _ ht.matched)

theorem first?_eq_some_iff : first? cs = some (r, text) ↔ Takes cs r text := by
  refine ⟨takes_of_first?, fun h => ?_⟩
  cases hf : first? cs with
  | none => exact absurd h.start (stuck_of_first? hf r text h.matched)
  | some x =>
    obtain ⟨rfl, rfl⟩ := (takes_of_first? hf).unique h
    rfl

/-- A prefix whose characters are all of one kind ends where a character of another kind comes. -/
theorem prefix_of_prefix_append {P : Char → Prop} {t : List Char} (ht : ∀ c ∈ t, P c)
    (hcs : ∀ c ∈ cs.head?, ¬ P c) (h : t <+: text ++ cs) : t <+: text := by
  obtain hle | hlt := le_or_gt t.length text.length
  · exact List.prefix_of_prefix_length_le h (List.prefix_append _ _) hle
  obtain ⟨u, rfl⟩ := List.prefix_of_prefix_length_le (List.prefix_append _ _) h hlt.le
  have hu : u <+: cs := (List.prefix_append_right_inj text).mp h
  cases u with
  | nil => simp at hlt
  | cons c u =>
    obtain ⟨v, rfl⟩ := hu
    exact absurd (ht c (by simp)) (hcs c rfl)

/-- A lexeme is taken as a whole if a blank or the end comes next. -/
theorem Rule.Matches.takes (h : r.Matches text) (hr : r ≠ .blank) (hcs : Text.AtBlank cs) :
    Takes (text ++ cs) r text := by
  have hinside : ∀ r' : Rule, ∀ t, r'.Matches t → r' ≠ .blank → t <+: text ++ cs → t <+: text := by
    intro r' t ht hr' hstart
    refine prefix_of_prefix_append (ht.solid hr') (fun c hc => ?_) hstart
    rw [hcs c hc]
    decide
  refine ⟨h, List.prefix_append _ _, fun t ht => hinside r t ht hr, fun r' t ht hstart => ?_⟩
  by_cases hr' : r' = .blank
  · -- the first character is no blank
    subst hr'
    obtain ⟨c, u, rfl⟩ := List.exists_cons_of_ne_nil h.ne_nil
    obtain ⟨c', t, rfl⟩ := List.exists_cons_of_ne_nil ht.ne_nil
    obtain ⟨rfl, -⟩ := List.cons_prefix_cons.mp hstart
    have hblank := ht.2 c' List.mem_cons_self
    rw [h.solid hr c' List.mem_cons_self] at hblank
    cases hblank
  · exact h.index_le ht (hinside r' t ht hr' hstart)

/-- Blanks are taken as a whole if none comes next. -/
theorem takes_blank (hne : text ≠ []) (h : Text.Blank text)
    (hcs : ∀ c ∈ cs.head?, Text.isBlank c = false) : Takes (text ++ cs) .blank text := by
  refine ⟨⟨hne, h⟩, List.prefix_append _ _, fun t ht hstart => ?_, fun r' t _ _ => Nat.zero_le _⟩
  exact prefix_of_prefix_append ht.2 (fun c hc => by rw [hcs c hc]; decide) hstart

end

/-! ## Cuts -/

/-- A text is cut at its start into pieces, each with its rule, up to a scan point. The rest is not
looked at yet. -/
inductive Cuts : List Char → List (Rule × List Char) → List Char → Prop where
  | nil (cs : List Char) : Cuts cs [] cs
  | cons {r : Rule} {text cs rest : List Char} {ps : List (Rule × List Char)} :
      Takes (text ++ cs) r text → Cuts cs ps rest → Cuts (text ++ cs) ((r, text) :: ps) rest

/-- The pieces that make tokens. -/
def wordsOf (ps : List (Rule × List Char)) : List (List Char) :=
  (ps.filter fun p => p.1 ≠ .blank).map Prod.snd

def Lexeme.piece (l : Lexeme) : Rule × List Char :=
  (l.rule, l.text)

section

variable {cs text rest : List Char} {r : Rule} {ps : List (Rule × List Char)}

@[simp] theorem wordsOf_nil : wordsOf [] = [] := rfl

@[simp] theorem wordsOf_blank (text : List Char) (ps : List (Rule × List Char)) :
    wordsOf ((.blank, text) :: ps) = wordsOf ps := rfl

theorem wordsOf_cons (hr : r ≠ .blank) (text : List Char) (ps : List (Rule × List Char)) :
    wordsOf ((r, text) :: ps) = text :: wordsOf ps := by
  rw [wordsOf, List.filter_cons_of_pos (by simpa using hr)]
  rfl

theorem length_wordsOf (ls : List Lexeme) :
    (wordsOf (ls.map Lexeme.piece)).length = (ls.filter fun l => l.rule ≠ .blank).length := by
  rw [wordsOf, List.filter_map, List.length_map, List.length_map]
  rfl

/-- The pieces and the rest are the text. -/
theorem Cuts.eq_append (h : Cuts cs ps rest) : cs = ps.flatMap Prod.snd ++ rest := by
  induction h with
  | nil => rfl
  | cons _ _ ih => rw [List.flatMap_cons, List.append_assoc, ← ih]

/-- What was cut off, in bytes. -/
theorem Cuts.byteSize_sub (h : Cuts cs ps rest) :
    Text.byteSize cs - Text.byteSize rest = Text.byteSize (ps.flatMap Prod.snd) := by
  rw [h.eq_append, byteSize_append, Nat.add_sub_cancel]

theorem Cuts.matched (h : Cuts cs ps rest) : ∀ p ∈ ps, p.1.Matches p.2 := by
  induction h with
  | nil => exact List.forall_mem_nil _
  | cons htakes _ ih => exact List.forall_mem_cons.mpr ⟨htakes.matched, ih⟩

theorem scanFrom_of_stuck (h : Stuck cs) (position : Nat) : scanFrom position cs = ⟨[], cs⟩ := by
  rw [scanFrom]
  split
  next => rfl
  next hsome => exact absurd (first?_eq_none_iff.mpr h) (by rw [hsome]; intro h; cases h)

theorem scanFrom_of_takes (h : Takes (text ++ cs) r text) (position : Nat) :
    scanFrom position (text ++ cs) =
      ⟨⟨r, text, position⟩ :: (scanFrom (position + Text.byteSize text) cs).lexemes,
        (scanFrom (position + Text.byteSize text) cs).rest⟩ := by
  have hfirst := first?_eq_some_iff.mpr h
  rw [scanFrom]
  split
  next hnone => cases hfirst.symm.trans hnone
  next hsome =>
    cases hfirst.symm.trans hsome
    rw [List.drop_left]

/-- A scan is a cut up to the end or to a point where no rule has a text. -/
theorem scanFrom_cuts (position : Nat) (cs : List Char) :
    Cuts cs ((scanFrom position cs).lexemes.map Lexeme.piece) (scanFrom position cs).rest ∧
      Stuck (scanFrom position cs).rest := by
  fun_induction scanFrom position cs with
  | case1 _ _ hnone => exact ⟨.nil _, first?_eq_none_iff.mp hnone⟩
  | case2 position cs r text hsome _ tail ih =>
    have htakes := first?_eq_some_iff.mp hsome
    have hcs : text ++ cs.drop text.length = cs := List.prefix_iff_eq_append.mp htakes.start
    have hcut := Cuts.cons (hcs.symm ▸ htakes) ih.1
    rw [hcs] at hcut
    exact ⟨hcut, ih.2⟩

/-- Every cut is a part of the scan. -/
theorem Cuts.scanFrom_eq (h : Cuts cs ps rest) (position : Nat) :
    ∃ position', (scanFrom position cs).lexemes.map Lexeme.piece =
        ps ++ (scanFrom position' rest).lexemes.map Lexeme.piece ∧
      (scanFrom position cs).rest = (scanFrom position' rest).rest := by
  induction h generalizing position with
  | nil => exact ⟨position, rfl, rfl⟩
  | @cons r text cs rest ps htakes _ ih =>
    obtain ⟨position', hlexemes, hrest⟩ := ih (position + Text.byteSize text)
    rw [scanFrom_of_takes htakes]
    exact ⟨position', congrArg ((r, text) :: ·) hlexemes, hrest⟩

/-- A cut that gets stuck is the scan. -/
theorem Cuts.scan_eq (h : Cuts cs ps rest) (hrest : Stuck rest) :
    (scan cs).lexemes.map Lexeme.piece = ps ∧ (scan cs).rest = rest := by
  obtain ⟨position', hlexemes, hscan⟩ := h.scanFrom_eq 0
  rw [scanFrom_of_stuck hrest] at hlexemes hscan
  exact ⟨hlexemes.trans (List.append_nil ps), hscan⟩

theorem stuck_nil : Stuck [] :=
  fun _ _ ht hstart => ht.ne_nil (List.prefix_nil.mp hstart)

/-! ## Lines with blanks between the lexemes -/

/-- Blanks that no blank follows are one piece, or none if there are none. -/
theorem Cuts.pad {bs : List Char} (hbs : Text.Blank bs)
    (hcs : ∀ c ∈ cs.head?, Text.isBlank c = false) (h : Cuts cs ps rest) :
    ∃ ps', Cuts (bs ++ cs) ps' rest ∧ wordsOf ps' = wordsOf ps := by
  obtain rfl | hne := eq_or_ne bs []
  · exact ⟨ps, h, rfl⟩
  · exact ⟨_, .cons (takes_blank hne hbs hcs) h, wordsOf_blank bs ps⟩

/-- A text that some rule takes for a lexeme. -/
def IsLexeme (t : List Char) : Prop :=
  ∃ r : Rule, r ≠ .blank ∧ r.Matches t

theorem IsLexeme.tidy {t : List Char} (h : IsLexeme t) : Text.Tidy t := by
  obtain ⟨r, hr, ht⟩ := h
  exact (ht.solid hr).tidy ht.ne_nil

end

/-! ## Tokens -/

/-- True of the lexemes that an operand can end with: literals, registers and `)`. -/
def EndsOperand (t : List Char) : Prop :=
  Rule.hex.Matches t ∨ Rule.decimal.Matches t ∨ Rule.register.Matches t ∨ t = [')']

/-- The token of a lexeme. A minus and a star are binary operators if the lexeme before them can end an
operand. -/
inductive TokenOf (previous : Option (List Char)) : List Char → Token → Prop where
  | eq : TokenOf previous ['=', '='] (.binary .eq)
  | ne : TokenOf previous ['!', '='] (.binary .ne)
  | and : TokenOf previous ['&', '&'] (.binary .and)
  | or : TokenOf previous ['|', '|'] (.binary .or)
  | add : TokenOf previous ['+'] (.binary .add)
  | sub : (∃ t ∈ previous, EndsOperand t) → TokenOf previous ['-'] (.binary .sub)
  | neg : (∀ t ∈ previous, ¬ EndsOperand t) → TokenOf previous ['-'] (.unary .neg)
  | mul : (∃ t ∈ previous, EndsOperand t) → TokenOf previous ['*'] (.binary .mul)
  | deref : (∀ t ∈ previous, ¬ EndsOperand t) → TokenOf previous ['*'] (.unary .deref)
  | div : TokenOf previous ['/'] (.binary .div)
  | not : TokenOf previous ['!'] (.unary .not)
  | opening : TokenOf previous ['('] .opening
  | closing : TokenOf previous [')'] .closing
  | hex {t : List Char} : Rule.hex.Matches t → TokenOf previous t (.literal .hex t)
  | decimal {t : List Char} : Rule.decimal.Matches t → TokenOf previous t (.literal .decimal t)
  | register {name : List Char} : Rule.register.Matches ('$' :: name) →
      TokenOf previous ('$' :: name) (.register name)

/-- The tokens of lexemes, one for each in their order. -/
inductive Reads : Option (List Char) → List (List Char) → List Token → Prop where
  | nil (previous : Option (List Char)) : Reads previous [] []
  | cons {previous : Option (List Char)} {t : List Char} {texts : List (List Char)} {x : Token}
      {ts : List Token} : TokenOf previous t x → Reads (some t) texts ts →
      Reads previous (t :: texts) (x :: ts)

section

variable {a : Bool} {previous : Option (List Char)} {e : List Char}
  {ps : List (Rule × List Char)} {ts : List Token}

theorem Rule.Matches.endsOperand_iff {r : Rule} {t : List Char} (h : r.Matches t) :
    EndsOperand t ↔ r ∈ [Rule.hex, .decimal, .register, .closing] := by
  constructor
  · rintro (ht | ht | ht | rfl)
    · simp [h.unique ht]
    · simp [h.unique ht]
    · simp [h.unique ht]
    · have hclosing : Rule.closing.Matches [')'] := rfl
      simp [h.unique hclosing]
  · intro hr
    simp only [List.mem_cons, List.not_mem_nil, or_false] at hr
    obtain rfl | rfl | rfl | rfl := hr
    · exact .inl h
    · exact .inr (.inl h)
    · exact .inr (.inr (.inl h))
    · exact .inr (.inr (.inr (Option.some.inj h).symm))

theorem Lexeme.token?_endsOperand {l : Lexeme} {x : Token} (h : l.token? a = some x) :
    x.endsOperand = true ↔ l.rule ∈ [Rule.hex, .decimal, .register, .closing] := by
  cases hr : l.rule <;> simp only [token?, hr] at h <;> (try split at h) <;> cases h <;>
    simp [Token.endsOperand]

theorem Lexeme.tokenOf_of_matches {l : Lexeme} (h : l.rule.Matches l.text) (hr : l.rule ≠ .blank)
    (ha : a = true ↔ ∃ t ∈ previous, EndsOperand t) :
    ∃ x, l.token? a = some x ∧ TokenOf previous l.text x := by
  obtain ⟨r, text, position⟩ := l
  cases r with
  | blank => exact absurd rfl hr
  | hex => exact ⟨_, rfl, .hex h⟩
  | decimal => exact ⟨_, rfl, .decimal h⟩
  | register =>
    obtain ⟨name, rfl, hname⟩ := h
    exact ⟨_, rfl, .register ⟨name, rfl, hname⟩⟩
  | minus =>
    cases h
    cases a with
    | true => exact ⟨_, rfl, .sub (ha.mp rfl)⟩
    | false => exact ⟨_, rfl, .neg (by simpa using ha)⟩
  | star =>
    cases h
    cases a with
    | true => exact ⟨_, rfl, .mul (ha.mp rfl)⟩
    | false => exact ⟨_, rfl, .deref (by simpa using ha)⟩
  | _ =>
    cases h
    exact ⟨_, rfl, by constructor⟩

theorem reads_tokensAfter {ls : List Lexeme} (h : ∀ l ∈ ls, l.rule.Matches l.text)
    (ha : a = true ↔ ∃ t ∈ previous, EndsOperand t) :
    Reads previous (wordsOf (ls.map Lexeme.piece)) (tokensAfter a ls) := by
  induction ls generalizing a previous with
  | nil => exact .nil previous
  | cons l ls ih =>
    obtain ⟨hl, h⟩ := List.forall_mem_cons.mp h
    by_cases hr : l.rule = .blank
    · have hnone : l.token? a = none := by rw [Lexeme.token?, hr]
      rw [tokensAfter, hnone, List.map_cons, Lexeme.piece, hr, wordsOf_blank]
      exact ih h ha
    · obtain ⟨x, hx, hof⟩ := Lexeme.tokenOf_of_matches hl hr ha
      have hends := (Lexeme.token?_endsOperand hx).trans hl.endsOperand_iff.symm
      rw [tokensAfter, hx, List.map_cons, Lexeme.piece, wordsOf_cons hr]
      exact .cons hof (ih h (by simpa using hends))

theorem exceeds_iff {n : Nat} {ls : List Lexeme} :
    exceeds n ls = true ↔ n < (wordsOf (ls.map Lexeme.piece)).length := by
  rw [exceeds, length_wordsOf, decide_eq_true_eq]

theorem exists_cuts_of_tokens (h : tokens e = .ok ts) :
    ∃ ps, Cuts e ps [] ∧ (wordsOf ps).length ≤ 32 ∧ Reads none (wordsOf ps) ts := by
  obtain ⟨hcuts, -⟩ := scanFrom_cuts 0 e
  rw [← scan] at hcuts
  rw [tokens] at h
  split_ifs at h with hexceeds hrest
  rw [exceeds_iff, not_lt] at hexceeds
  rw [not_not.mp hrest] at hcuts
  cases h
  refine ⟨_, hcuts, hexceeds, reads_tokensAfter (fun l hl => ?_) (by simp)⟩
  exact hcuts.matched l.piece (List.mem_map_of_mem hl)

theorem Cuts.tokens_eq (h : Cuts e ps []) (hlen : (wordsOf ps).length ≤ 32) :
    ∃ ts, tokens e = .ok ts ∧ Reads none (wordsOf ps) ts := by
  obtain ⟨hlexemes, hrest⟩ := h.scan_eq stuck_nil
  have hexceeds : ¬ exceeds maxTokens (scan e).lexemes = true := by
    rw [exceeds_iff, hlexemes]
    exact hlen.not_gt
  have htokens : tokens e = .ok (tokensAfter false (scan e).lexemes) := by
    rw [tokens, if_neg hexceeds, if_neg (not_not.mpr hrest)]
  refine ⟨_, htokens, hlexemes ▸ reads_tokensAfter (fun l hl => ?_) (by simp)⟩
  exact h.matched l.piece (hlexemes ▸ List.mem_map_of_mem hl)

/-- After at most 32 lexemes, which end at a byte offset, no rule has a text. -/
def StuckAt (e : List Char) (position : Nat) : Prop :=
  ∃ ps rest, Cuts e ps rest ∧ rest ≠ [] ∧ Stuck rest ∧ (wordsOf ps).length ≤ 32 ∧
    position = Text.byteSize (ps.flatMap Prod.snd)

theorem tokens_noMatch_iff {position : Nat} :
    tokens e = .error (.noMatch position) ↔ StuckAt e position := by
  constructor
  · intro h
    obtain ⟨hcuts, hstuck⟩ := scanFrom_cuts 0 e
    rw [← scan] at hcuts hstuck
    rw [tokens] at h
    split_ifs at h with hexceeds hrest
    · cases h
    · rw [exceeds_iff, not_lt] at hexceeds
      cases h
      exact ⟨_, _, hcuts, hrest, hstuck, hexceeds, hcuts.byteSize_sub⟩
  · rintro ⟨ps, rest, hcuts, hne, hstuck, hlen, rfl⟩
    obtain ⟨hlexemes, hrest⟩ := hcuts.scan_eq hstuck
    have hexceeds : ¬ exceeds maxTokens (scan e).lexemes = true := by
      rw [exceeds_iff, hlexemes]
      exact hlen.not_gt
    rw [tokens, if_neg hexceeds, if_pos (hrest ▸ hne), hrest, hcuts.byteSize_sub]

end

end Monitor386.Expr
