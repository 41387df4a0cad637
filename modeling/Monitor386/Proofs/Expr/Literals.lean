import Mathlib
import Monitor386.Proofs.Expr.Scanning
import Monitor386.Proofs.Expr.Split
import Monitor386.Proofs.Failure
import Monitor386.Proofs.Text.Digits

/-!
# Numerals in an expression

`Numeral w text` says that a text is a numeral for a word: decimal digits, or `0x` and hexadecimal ones.
`Spells n text` says how the numerals for a number are written.

* `numeral_toDigits`, `numeral_hexWord`: the two ways in which the monitor prints a word are numerals for
  it.
* `spells_iff`: the numerals for a number are the texts of two rules with this number as their value.
* `Cuts.tokens_of_pieces`: the tokens of an expression whose cut is known.
* `Numeral.eval_deref`: a star and a numeral have the word at its address as their value.
* `Spells.eval_eq`: a numeral has its number as its value, if a word holds it.
-/

namespace Monitor386.Expr

variable {n : Nat} {w : UInt32} {text e : List Char} {ps : List (Rule × List Char)}

/-- A numeral for a word. -/
inductive Numeral (w : UInt32) : List Char → Prop where
  | decimal {ds : List Char} : Run Char.isDigit ds → Text.value 10 ds = w.toNat → Numeral w ds
  | hex {x : Char} {ds : List Char} : x = 'x' ∨ x = 'X' → Run Text.isHexDigit ds →
      Text.value 16 ds = w.toNat → Numeral w ('0' :: x :: ds)

/-- The decimal digits of a word are a numeral for it. -/
theorem numeral_toDigits (w : UInt32) : Numeral w (Nat.toDigits 10 w.toNat) :=
  .decimal ⟨Nat.toDigits_ne_nil, fun _ hd => Nat.isDigit_of_mem_toDigits (by decide) (by decide) hd⟩
    (Text.value_toDigits (by decide) (by decide) _)

/-- A word as it is printed in hexadecimal is a numeral for it. -/
theorem numeral_hexWord (w : UInt32) : Numeral w (Text.hexWord w).toList := by
  obtain ⟨k, hchars⟩ := Text.toList_hexWord w
  rw [hchars]
  exact .hex (.inl rfl)
    ⟨List.append_ne_nil_of_right_ne_nil _ Nat.toDigits_ne_nil, Text.isHexDigit_zeros k w.toNat⟩
    (Text.value_zeros_toDigits (by decide) (by decide) k w.toNat)

/-! ## The numerals for a number -/

/-- The numerals for a number: zeros and its decimal digits, or `0x`, zeros and its hexadecimal digits. The
letters have either case. -/
inductive Spells (n : Nat) : List Char → Prop where
  | decimal (k : Nat) : Spells n (List.replicate k '0' ++ Nat.toDigits 10 n)
  | hex {x : Char} {ds : List Char} (k : Nat) : x = 'x' ∨ x = 'X' →
      ds.map Char.toLower = List.replicate k '0' ++ Nat.toDigits 16 n → Spells n ('0' :: x :: ds)

/-- The numerals for a number are the texts of two rules, with the number as the value of their digits. -/
theorem spells_iff : Spells n text ↔
    (Rule.decimal.Matches text ∧ Text.value 10 text = n) ∨
    (Rule.hex.Matches text ∧ Text.value 16 (text.drop 2) = n) := by
  constructor
  -- zeros in front change neither the rule nor the value
  · rintro (k | @⟨x, ds, k, hx, hds⟩)
    · refine .inl ⟨⟨List.append_ne_nil_of_right_ne_nil _ Nat.toDigits_ne_nil, fun c hc => ?_⟩,
        Text.value_zeros_toDigits (by decide) (by decide) k n⟩
      obtain hc | hc := List.mem_append.mp hc
      · rw [List.eq_of_mem_replicate hc]
        decide
      · exact Nat.isDigit_of_mem_toDigits (by decide) (by decide) hc
    · have hne : ds ≠ [] := by
        rintro rfl
        exact List.append_ne_nil_of_right_ne_nil _ Nat.toDigits_ne_nil hds.symm
      have hrun : ∀ c ∈ ds, Text.isHexDigit c = true :=
        Text.isHexDigit_of_map_toLower (hds ▸ Text.isHexDigit_zeros k n)
      refine .inr ⟨⟨x, ds, rfl, hx, hne, hrun⟩, ?_⟩
      show Text.value 16 ds = n
      rw [← Text.value_toLower, hds, Text.value_zeros_toDigits (by decide) (by decide)]
  -- without the zeros in front, the digits are those of the value
  · rintro (⟨⟨hne, hrun⟩, rfl⟩ | ⟨⟨x, ds, rfl, hx, hne, hrun⟩, rfl⟩)
    · obtain ⟨k, hk⟩ := Text.exists_zeros (by decide) hne fun c hc => Text.digitChar_of_isDigit (hrun c hc)
      have h := Spells.decimal (n := Text.value 10 text) k
      rwa [← hk] at h
    · have hlower : ∀ c ∈ ds.map Char.toLower, Text.digitValue c < 16 ∧ (Text.digitValue c).digitChar = c := by
        intro c hc
        obtain ⟨c, hmem, rfl⟩ := List.mem_map.mp hc
        rw [(Text.digit_toLower c).2]
        exact Text.digitChar_digitValue (hrun c hmem)
      obtain ⟨k, hk⟩ := Text.exists_zeros (by decide) (mt List.map_eq_nil_iff.mp hne) hlower
      rw [Text.value_toLower] at hk
      exact .hex k hx hk

/-- A numeral is one for one number only. -/
theorem Spells.unique {m : Nat} (h : Spells m text) (h' : Spells n text) : m = n := by
  rw [spells_iff] at h h'
  obtain ⟨hr, rfl⟩ | ⟨hr, rfl⟩ := h <;> obtain ⟨hr', rfl⟩ | ⟨hr', rfl⟩ := h'
  · rfl
  · cases hr.unique hr'
  · cases hr.unique hr'
  · rfl

theorem exists_spells_iff :
    (∃ n, Spells n text) ↔ Rule.decimal.Matches text ∨ Rule.hex.Matches text := by
  simp only [spells_iff]
  constructor
  · rintro ⟨n, ⟨h, -⟩ | ⟨h, -⟩⟩
    · exact .inl h
    · exact .inr h
  · rintro (h | h)
    · exact ⟨_, .inl ⟨h, rfl⟩⟩
    · exact ⟨_, .inr ⟨h, rfl⟩⟩

theorem Numeral.spells {w : UInt32} (h : Numeral w text) : Spells w.toNat text := by
  rw [spells_iff]
  cases h with
  | decimal hrun hvalue => exact .inl ⟨hrun, hvalue⟩
  | hex hx hrun hvalue => exact .inr ⟨⟨_, _, rfl, hx, hrun⟩, hvalue⟩

/-! ## Tokens of a cut -/

/-- Where the lexemes stand makes no difference to their tokens. -/
theorem tokensAfter_of_pieces {ls ls' : List Lexeme}
    (h : ls.map Lexeme.piece = ls'.map Lexeme.piece) (a : Bool) :
    tokensAfter a ls = tokensAfter a ls' := by
  induction ls generalizing a ls' with
  | nil =>
    rw [List.map_nil, eq_comm, List.map_eq_nil_iff] at h
    rw [h]
  | cons l ls ih =>
    obtain ⟨l', ls', rfl, hpiece, htail⟩ := List.map_eq_cons_iff.mp h.symm
    obtain ⟨hrule, htext⟩ := Prod.mk.inj hpiece
    have htoken : l'.token? a = l.token? a := by
      simp only [Lexeme.token?, hrule, htext]
    simp only [tokensAfter, htoken, ih htail.symm]

/-- The lexemes of pieces. -/
def lexemesOf (ps : List (Rule × List Char)) : List Lexeme :=
  ps.map fun p => ⟨p.1, p.2, 0⟩

theorem length_wordsOf_le (ps : List (Rule × List Char)) : (wordsOf ps).length ≤ ps.length := by
  rw [wordsOf, List.length_map]
  exact List.length_filter_le _ _

/-- An expression that is cut into pieces has their tokens. -/
theorem Cuts.tokens_of_pieces (h : Cuts e ps []) (hlen : (wordsOf ps).length ≤ 32) :
    tokens e = .ok (tokensAfter false (lexemesOf ps)) := by
  obtain ⟨hlexemes, hrest⟩ := h.scan_eq stuck_nil
  have hexceeds : ¬ exceeds maxTokens (scan e).lexemes = true := by
    rw [exceeds_iff, hlexemes]
    exact hlen.not_gt
  have hpieces : (scan e).lexemes.map Lexeme.piece = (lexemesOf ps).map Lexeme.piece := by
    rw [hlexemes, lexemesOf, List.map_map]
    exact (List.map_id ps).symm
  rw [tokens, if_neg hexceeds, if_neg (not_not.mpr hrest), tokensAfter_of_pieces hpieces]

/-! ## Numerals and their words -/

theorem word?_of_value {base : Nat} {ds : List Char} (h : Text.value base ds = w.toNat) :
    Text.word? base ds = some w := by
  rw [Text.word?, h, if_pos w.toNat_lt, UInt32.ofNat_toNat]

/-- A numeral is the text of a rule, and its token has the word as its value. -/
theorem Numeral.exists_token (h : Numeral w text) : ∃ (r : Rule) (radix : Radix),
    r ≠ .blank ∧ r.Matches text ∧
    (∀ a position, (⟨r, text, position⟩ : Lexeme).token? a = some (.literal radix text)) ∧
    ∀ ctx, (Token.literal radix text).value ctx = .ok w := by
  cases h with
  | decimal hrun hvalue =>
    refine ⟨.decimal, .decimal, by decide, hrun, fun _ _ => rfl, fun ctx => ?_⟩
    rw [Token.value, word?_of_value hvalue, Option.elim_some]
  | @hex x ds hx hrun hvalue =>
    refine ⟨.hex, .hex, by decide, ⟨x, ds, rfl, hx, hrun⟩, fun _ _ => rfl, fun ctx => ?_⟩
    rw [Token.value, List.drop_succ_cons, List.drop_succ_cons, List.drop_zero, word?_of_value hvalue,
      Option.elim_some]

/-- A star and a numeral have the word at its address as their value. -/
theorem Numeral.eval_deref (h : Numeral w text) (ctx : Context) :
    eval ctx ('*' :: text) = (ctx.read w).elim (.error (.badAddress w)) .ok := by
  obtain ⟨r, radix, hr, hmatches, htoken, hvalue⟩ := h.exists_token
  have hstar : Takes (['*'] ++ text) .star ['*'] := takes_of_first? rfl
  have hnumeral : Takes (text ++ []) r text := hmatches.takes hr nofun
  have hcuts := Cuts.cons hnumeral (.nil [])
  rw [List.append_nil] at hcuts
  have hcuts : Cuts ('*' :: text) [(.star, ['*']), (r, text)] [] := .cons hstar hcuts
  have htokens : tokens ('*' :: text) = .ok [.unary .deref, .literal radix text] := by
    have hlen : (wordsOf [(.star, ['*']), (r, text)]).length ≤ 32 :=
      (length_wordsOf_le _).trans (Nat.le_add_right 2 30)
    rw [hcuts.tokens_of_pieces hlen, lexemesOf, List.map_cons, List.map_cons, List.map_nil,
      tokensAfter_cons (t := .unary .deref) rfl, tokensAfter_cons (htoken _ _)]
    rfl
  have hsplit : split [.unary .deref, .literal radix text] =
      .ok (.unary .deref [.literal radix text]) := rfl
  have hoperand : value ctx [.literal radix text] = .ok w := by
    rw [value_of_split rfl]
    exact hvalue ctx
  have hbalanced : balanced 0 [.unary .deref, .literal radix text] = true := rfl
  rw [eval, htokens]
  simp only [bind, Except.bind, reduceCtorEq, ↓reduceIte, hbalanced, value_of_split hsplit,
    Split.value, hoperand]
  rfl

/-- An expression that is an operand has its value. -/
theorem eval_operand {r : Rule} {t : Token} (hmatches : r.Matches text) (ht : t.isOperand)
    (htoken : (⟨r, text, 0⟩ : Lexeme).token? false = some t) (ctx : Context) :
    eval ctx text = t.value ctx := by
  have hr : r ≠ .blank := by
    rintro rfl
    cases htoken
  have htakes : Takes (text ++ []) r text := hmatches.takes hr nofun
  have hcuts := Cuts.cons htakes (.nil [])
  rw [List.append_nil] at hcuts
  have hlen : (wordsOf [(r, text)]).length ≤ 32 := (length_wordsOf_le _).trans (Nat.le_add_right 1 31)
  have htokens : tokens text = .ok [t] := by
    rw [hcuts.tokens_of_pieces hlen, lexemesOf, List.map_cons, List.map_nil, tokensAfter_cons htoken]
    rfl
  have hbalanced : balanced 0 [t] = true := by cases t <;> first | rfl | cases ht
  have hsingle : split [t] = .ok (.single t) := rfl
  rw [eval, htokens, ok_bind, if_neg (List.cons_ne_nil t []), if_pos hbalanced, value_of_split hsingle]
  rfl

/-- A numeral has its number as its value, if a word holds it. -/
theorem Spells.eval_eq (h : Spells n text) (ctx : Context) :
    eval ctx text =
      if n < 2 ^ 32 then .ok (UInt32.ofNat n) else .error (.badLiteral (String.ofList text)) := by
  obtain ⟨hr, rfl⟩ | ⟨hr, rfl⟩ := spells_iff.mp h
  · rw [eval_operand (t := .literal .decimal text) hr rfl rfl, Token.value, word?_elim, numeral]
  · rw [eval_operand (t := .literal .hex text) hr rfl rfl, Token.value, word?_elim, numeral]

end Monitor386.Expr
