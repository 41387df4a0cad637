import Monitor386.Proofs.Expr.Split
import Monitor386.Proofs.Failure

/-!
# Evaluation is the value of the derivation

`words e` are the lexemes of an expression without the blanks, the row that the grammar is asked
about.

* `exists_derives_of_value`: a row of lexemes whose tokens have a value is derivable.
* `Derives.unique`: a row has one derivation tree.
* `eval_eq_denote`: an expression of 1 to 32 words that the grammar derives evaluates to the value
  of its derivation tree, failure or not; one that it does not derive never has a value.
-/

namespace Monitor386.Expr

/-! ## Rows with a value are derivable -/

theorem Token.isOperand_of_value {ctx : Context} {t : Token} {v : UInt32}
    (h : t.value ctx = .ok v) : t.isOperand := by
  cases t <;> first | rfl | cases h

theorem exists_derives_of_value {ctx : Context} {ls : List Lexeme} {v : UInt32}
    (hb : ∀ x ∈ ls, x.rule ≠ .blank) (h : value ctx (tokensAfter false ls) = .ok v) :
    ∃ t, Derives .disjunction ls t := by
  -- by induction on the length, as each part of a split is shorter than the row
  induction hn : ls.length using Nat.strongRecOn generalizing ls v with
  | _ n ih =>
    cases hs : split (tokensAfter false ls) with
    | error e => rw [value_of_split_error hs] at h; cases h
    | ok s =>
      rw [value_of_split hs] at h
      have hinv := split_inv hs
      cases s with
      | single t =>
        obtain ⟨x, rfl, hx⟩ := lexemes_single hb hinv (Token.isOperand_of_value h)
        exact ⟨_, (Derives.operand hx).lower (by decide)⟩
      | group inner =>
        obtain ⟨a, rs, b, rfl, ha, hb', rfl⟩ := lexemes_group hb hinv
        have hbs : ∀ x ∈ rs, x.rule ≠ .blank := fun x hx => hb x (by simp [hx])
        obtain ⟨t, ht⟩ := ih rs.length (by simp at hn; omega) hbs h rfl
        exact ⟨_, (Derives.group ha ht hb').lower (by decide)⟩
      | unary op operand =>
        obtain ⟨x, rs, rfl, hx, rfl⟩ := lexemes_unary hb hinv.1
        have hbs : ∀ x ∈ rs, x.rule ≠ .blank := fun x hx => hb x (by simp [hx])
        obtain ⟨w, hw, -⟩ := bind_eq_ok.mp h
        obtain ⟨t, ht⟩ := ih rs.length (by simp at hn; omega) hbs hw rfl
        have hrank := ht.parses.six_le_rank (tokens_unary rs hx ▸ hinv.2)
        exact ⟨_, (Derives.unary hx (ht.inner hrank)).lower (by decide)⟩
      | binary op left right =>
        obtain ⟨l₁, x, rs, layer, rfl, hx, rfl, rfl⟩ := lexemes_binary hb hinv.1
        have hbl : ∀ x ∈ l₁, x.rule ≠ .blank := fun x hx => hb x (by simp [hx])
        have hbr : ∀ x ∈ rs, x.rule ≠ .blank := fun x hx => hb x (by simp [hx])
        obtain ⟨v₁, hv₁, h⟩ := bind_eq_ok.mp h
        obtain ⟨v₂, hv₂, -⟩ := bind_eq_ok.mp h
        obtain ⟨l, hl⟩ := ih l₁.length (by simp at hn; omega) hbl hv₁ rfl
        obtain ⟨r, hr⟩ := ih rs.length (by simp at hn; omega) hbr hv₂ rfl
        -- the operator is dominant, so the right side binds tighter, and the left one at least as tightly
        have htokens := hl.tokens_binary rs hx
        obtain ⟨hle, hlt⟩ := hl.parses.priority_le_rank hr.parses (htokens ▸ hinv.2)
        have hrank := Layer.rank_of_mem_operators hx
        have hne : layer ≠ .primary := by
          rintro rfl
          cases hx
        have hnext := Layer.rank_next hne
        exact ⟨_, (Derives.binary hx (hl.inner (by omega)) (hr.inner (by omega))).lower
          layer.one_le_rank⟩

/-! ## A row has one derivation tree -/

/-- The split has the operator of the root, at its place. -/
def Tree.Roots : Tree → Split → Prop
  | operand _, .single _ => True
  | group _, .group _ => True
  | unary op _, .unary op' _ => op = op'
  | binary op l _, .binary op' left _ => op = op' ∧ left.length = l.width
  | _, _ => False

theorem Parses.roots {ts : List Token} {t : Tree} (h : Parses ts t) :
    ∃ s, split ts = .ok s ∧ t.Roots s := by
  cases h with
  | operand => exact ⟨_, rfl, trivial⟩
  | group h => exact ⟨_, h.split_group, trivial⟩
  | unary hrank h => exact ⟨_, h.split_unary _ hrank, rfl⟩
  | binary hle hlt hl hr => exact ⟨_, hl.split_binary hr hle hlt, rfl, hl.length_eq⟩

theorem Derives.length_eq {layer : Layer} {ls : List Lexeme} {t : Tree} (h : Derives layer ls t) :
    ls.length = t.width := by
  rw [← length_tokensAfter h.not_blank false, h.parses.length_eq]

/-- The operands of the root are derived from the parts of the row where the tree has them. -/
def Tree.Covers (ls : List Lexeme) : Tree → Prop
  | operand x => ls = [x]
  | group t => Derives .disjunction ls.tail.dropLast t
  | unary _ t => Derives .prefixed ls.tail t
  | binary _ l r => ∃ layer : Layer, Derives layer (ls.take l.width) l ∧
      Derives layer.next (ls.drop (l.width + 1)) r

theorem Derives.covers {layer : Layer} {ls : List Lexeme} {t : Tree} (h : Derives layer ls t) :
    t.Covers ls := by
  induction h with
  | operand => rfl
  | group _ h _ _ =>
    rw [Tree.Covers, List.tail_cons, List.dropLast_concat]
    exact h
  | unary _ h _ => exact h
  | @binary layer x op ls rs l r _ hl hr _ _ =>
    refine ⟨layer, ?_, ?_⟩
    · rwa [List.take_left' hl.length_eq]
    · rw [← hl.length_eq]
      simpa using hr
  | tighter _ _ ih => exact ih

/-- Two derivation trees of a row have the root that its split has. -/
theorem Derives.exists_roots {a b : Layer} {ls : List Lexeme} {t t' : Tree} (h : Derives a ls t)
    (h' : Derives b ls t') : ∃ s, t.Roots s ∧ t'.Roots s := by
  obtain ⟨s, hs, hroot⟩ := h.parses.roots
  obtain ⟨s', hs', hroot'⟩ := h'.parses.roots
  obtain rfl : s = s' := Except.ok.inj (hs.symm.trans hs')
  exact ⟨s, hroot, hroot'⟩

/-- A row has one derivation tree, from whatever layer it is derived. -/
theorem Derives.unique {a b : Layer} {ls : List Lexeme} {t t' : Tree} (h : Derives a ls t)
    (h' : Derives b ls t') : t = t' := by
  induction t generalizing a b ls t' with
  | operand x =>
    obtain ⟨s, hroot, hroot'⟩ := h.exists_roots h'
    cases s <;> cases t' <;> simp only [Tree.Roots] at hroot hroot'
    have hcov' := h'.covers
    rw [h.covers] at hcov'
    rw [List.head_eq_of_cons_eq hcov']
  | group t ih =>
    obtain ⟨s, hroot, hroot'⟩ := h.exists_roots h'
    cases s <;> cases t' <;> simp only [Tree.Roots] at hroot hroot'
    rw [ih h.covers h'.covers]
  | unary op t ih =>
    obtain ⟨s, hroot, hroot'⟩ := h.exists_roots h'
    cases s <;> cases t' <;> simp only [Tree.Roots] at hroot hroot'
    rw [hroot, ← hroot', ih h.covers h'.covers]
  | binary op l r ihl ihr =>
    obtain ⟨s, hroot, hroot'⟩ := h.exists_roots h'
    cases s <;> cases t' <;> simp only [Tree.Roots] at hroot hroot'
    rename_i l' r'
    obtain ⟨_, hl, hr⟩ := h.covers
    obtain ⟨_, hl', hr'⟩ := h'.covers
    rw [← hroot'.2, hroot.2] at hl' hr'
    rw [hroot.1, ← hroot'.1, ihl hl hl', ihr hr hr']

/-! ## Expressions -/

/-- The lexemes of an expression, without the blanks. -/
def words (e : List Char) : List Lexeme :=
  (scan e).lexemes.filter fun x => x.rule ≠ .blank

theorem words_not_blank (e : List Char) : ∀ x ∈ words e, x.rule ≠ .blank := fun x hx => by
  simpa using (List.mem_filter.mp hx).2

theorem tokens_eq {e : List Char} (hrest : (scan e).rest = [])
    (hmax : (words e).length ≤ maxTokens) : tokens e = .ok (tokensAfter false (words e)) := by
  have hex : exceeds maxTokens (scan e).lexemes = false :=
    decide_eq_false (Nat.not_lt.mpr hmax)
  rw [words, tokensAfter_filter]
  simp only [tokens, hex, hrest, Bool.false_eq_true, ↓reduceIte, ne_eq, not_true_eq_false]

/-- The causes for which a derivation tree has no value. -/
def Error.IsOfValue : Error → Prop
  | badLiteral _ | unknownRegister _ | badAddress _ | divideByZero => True
  | _ => False

theorem numeral_error {base : Nat} {digits written : List Char} {err : Error}
    (h : numeral base digits written = .error err) : err.IsOfValue := by
  unfold numeral at h
  split at h <;> cases h
  trivial

theorem Lexeme.denote_error {ctx : Context} {x : Lexeme} {err : Error}
    (h : x.denote ctx = .error err) : err.IsOfValue := by
  unfold denote at h
  split at h
  · exact numeral_error h
  · exact numeral_error h
  · split at h <;> cases h
    trivial

theorem UnaryOp.denote_error {ctx : Context} {a : UInt32} {op : UnaryOp} {err : Error}
    (h : op.denote ctx a = .error err) : err.IsOfValue := by
  cases op with
  | not | neg => cases h
  | deref =>
    simp only [denote] at h
    split at h <;> cases h
    trivial

theorem BinaryOp.denote_error {a b : UInt32} {op : BinaryOp} {err : Error}
    (h : op.denote a b = .error err) : err.IsOfValue := by
  cases op with
  | div =>
    simp only [denote] at h
    split at h <;> cases h
    trivial
  | mul | add | sub | eq | ne | and | or => cases h

/-- A derivation tree fails in an operand, in a division or in a dereference. -/
theorem Tree.denote_error {ctx : Context} {t : Tree} {err : Error}
    (h : t.denote ctx = .error err) : err.IsOfValue := by
  induction t generalizing err with
  | operand x => exact Lexeme.denote_error h
  | group t ih => exact ih h
  | unary op t ih =>
    obtain h | ⟨_, -, h⟩ := bind_eq_error.mp h
    · exact ih h
    · exact UnaryOp.denote_error h
  | binary op l r ihl ihr =>
    obtain h | ⟨_, -, h⟩ := bind_eq_error.mp h
    · exact ihl h
    · obtain h | ⟨_, -, h⟩ := bind_eq_error.mp h
      · exact ihr h
      · exact BinaryOp.denote_error h

/-- An expression of 1 to 32 words. If the grammar derives the row of its words, the expression has
the value of the one derivation tree, or fails as the tree does; if it does not, the expression
fails. -/
theorem eval_eq_denote (ctx : Context) (e : List Char) (hrest : (scan e).rest = [])
    (hmin : 1 ≤ (words e).length) (hmax : (words e).length ≤ 32) :
    (∀ t, Derives .disjunction (words e) t →
      eval ctx e = t.denote ctx ∧ (∀ t', Derives .disjunction (words e) t' → t' = t) ∧
        ∀ err, eval ctx e = .error err → err.IsOfValue) ∧
    ((¬ ∃ t, Derives .disjunction (words e) t) → ∃ err, eval ctx e = .error err) := by
  have hne : tokensAfter false (words e) ≠ [] := by
    intro hnil
    have hlen := length_tokensAfter (words_not_blank e) false
    rw [hnil] at hlen
    simp only [List.length_nil] at hlen
    omega
  have heval : eval ctx e = if Expr.balanced 0 (tokensAfter false (words e)) then
      value ctx (tokensAfter false (words e)) else .error .unmatchedParen := by
    simp only [eval, tokens_eq hrest hmax, bind, Except.bind, hne, ↓reduceIte]
  constructor
  · intro t ht
    have hval : eval ctx e = t.denote ctx := by
      rw [heval, if_pos ht.parses.balanced, ht.parses.value_eq]
    exact ⟨hval, fun t' ht' => ht'.unique ht, fun err herr => Tree.denote_error (hval ▸ herr)⟩
  · intro hnot
    rw [heval]
    split
    · cases hv : value ctx (tokensAfter false (words e)) with
      | error err => exact ⟨err, rfl⟩
      | ok v => exact absurd (exists_derives_of_value (words_not_blank e) hv) hnot
    · exact ⟨_, rfl⟩

/-- `7-3 *-$eax` is derived as a difference, and `)1(` is not derived. -/
theorem eval_eq_denote_difference :
    let ctx : Context := ⟨fun name => if name = "eax" then some 5 else none, fun _ => none⟩
    let e := "7-3 *-$eax".toList
    let junk := ")1(".toList
    (scan e).rest = [] ∧ 1 ≤ (words e).length ∧ (words e).length ≤ 32 ∧
    (∃ t, Derives .disjunction (words e) t ∧ eval ctx e = t.denote ctx ∧ t.denote ctx = .ok 22) ∧
    (scan junk).rest = [] ∧ 1 ≤ (words junk).length ∧ (words junk).length ≤ 32 ∧
    (¬ ∃ t, Derives .disjunction (words junk) t) ∧ ∃ err, eval ctx junk = .error err := by
  intro ctx e junk
  have hrest : (scan e).rest = [] := by decide +kernel
  have hmin : 1 ≤ (words e).length := by decide +kernel
  have hmax : (words e).length ≤ 32 := by decide +kernel
  have hrest' : (scan junk).rest = [] := by decide +kernel
  have hmin' : 1 ≤ (words junk).length := by decide +kernel
  have hmax' : (words junk).length ≤ 32 := by decide +kernel
  have hwords : words e = [⟨.decimal, ['7'], 0⟩] ++ ⟨.minus, ['-'], 1⟩ ::
      ([⟨.decimal, ['3'], 2⟩] ++ ⟨.star, ['*'], 4⟩ ::
        ⟨.minus, ['-'], 5⟩ :: [⟨.register, ['$', 'e', 'a', 'x'], 6⟩]) := by
    decide +kernel
  -- the derivation from the inside: the sign, the product, the difference
  have hneg : Derives .prefixed
      (⟨.minus, ['-'], 5⟩ :: [⟨.register, ['$', 'e', 'a', 'x'], 6⟩]) (.unary .neg _) :=
    .unary (by decide) ((Derives.operand (by decide)).lower (by decide))
  have hmul : Derives .product ([⟨.decimal, ['3'], 2⟩] ++ ⟨.star, ['*'], 4⟩ :: _)
      (.binary .mul _ _) :=
    .binary (by decide) ((Derives.operand (by decide)).lower (by decide)) hneg
  have hsub : Derives .sum ([⟨.decimal, ['7'], 0⟩] ++ ⟨.minus, ['-'], 1⟩ :: _)
      (.binary .sub _ _) :=
    .binary (by decide) ((Derives.operand (by decide)).lower (by decide)) hmul
  have ht : Derives .disjunction (words e) _ := hwords ▸ hsub.lower (by decide)
  have hnot : ¬ ∃ t, Derives .disjunction (words junk) t := by
    rintro ⟨t, ht⟩
    exact absurd ht.parses.balanced (by decide +kernel)
  refine ⟨hrest, hmin, hmax, ⟨_, ht, ?_, ?_⟩, hrest', hmin', hmax', hnot, ?_⟩
  · exact ((eval_eq_denote ctx e hrest hmin hmax).1 _ ht).1
  · rfl
  · exact (eval_eq_denote ctx junk hrest' hmin' hmax').2 hnot

end Monitor386.Expr
