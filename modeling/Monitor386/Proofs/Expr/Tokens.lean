import Monitor386.Proofs.Expr.Grammar

/-!
# The tokens of a row of lexemes

What a minus or a star stands for is decided by looking at the token before it, and in a row that
the grammar derives this is what the derivation says.

* `tokensAfter_append`: the tokens of a row are those of its two halves, where the second half
  starts after an operand if the first one ends with one (`afterRow`).
* `tokensAfter_eq_append`: conversely, tokens that fall into two halves do so with their lexemes.
* `Derives.afterRow`: a row that the grammar derives ends with an operand.
* `tokens_group`, `tokens_unary`, `Derives.tokens_binary`: the tokens of the productions.
-/

namespace Monitor386.Expr

/-! ## Single lexemes -/

theorem word?_elim (base : Nat) (digits written : List Char) :
    (Text.word? base digits).elim (.error (.badLiteral (String.ofList written))) .ok =
      numeral base digits written := by
  by_cases h : Text.value base digits < 2 ^ 32
  · have hsize : Text.value base digits < UInt32.size := h
    simp only [Text.word?, numeral, h, hsize, ↓reduceIte, Option.elim_some]
  · have hsize : ¬ Text.value base digits < UInt32.size := h
    simp only [Text.word?, numeral, h, hsize, ↓reduceIte, Option.elim_none]

theorem Lexeme.token?_ne_none {x : Lexeme} (h : x.rule ≠ .blank) (a : Bool) :
    x.token? a ≠ none := by
  unfold token?
  split <;> simp_all

theorem Lexeme.token?_binary {x : Lexeme} {op : BinaryOp} {layer : Layer}
    (h : (x.rule, op) ∈ layer.operators) : x.token? true = some (.binary op) := by
  cases layer <;> simp only [Layer.operators, List.mem_cons, Prod.mk.injEq, List.not_mem_nil] at h <;>
    grind [token?]

theorem Lexeme.token?_unary {x : Lexeme} {op : UnaryOp} (h : (x.rule, op) ∈ prefixOperators) :
    x.token? false = some (.unary op) := by
  simp only [prefixOperators, List.mem_cons, Prod.mk.injEq, List.not_mem_nil] at h
  grind [token?]

/-- A lexeme that is taken for a binary operator is one in some layer. -/
theorem Lexeme.mem_operators {x : Lexeme} {a : Bool} {op : BinaryOp}
    (h : x.token? a = some (.binary op)) : ∃ layer : Layer, (x.rule, op) ∈ layer.operators := by
  cases hr : x.rule <;> simp only [token?, hr] at h <;> (try split at h) <;> cases h
  · exact ⟨.equality, by decide⟩
  · exact ⟨.equality, by decide⟩
  · exact ⟨.conjunction, by decide⟩
  · exact ⟨.disjunction, by decide⟩
  · exact ⟨.sum, by decide⟩
  · exact ⟨.sum, by decide⟩
  · exact ⟨.product, by decide⟩
  · exact ⟨.product, by decide⟩

theorem Lexeme.mem_prefixOperators {x : Lexeme} {a : Bool} {op : UnaryOp}
    (h : x.token? a = some (.unary op)) : (x.rule, op) ∈ prefixOperators := by
  cases hr : x.rule <;> simp only [token?, hr] at h <;> (try split at h) <;> cases h <;> decide

theorem Lexeme.token?_opening {x : Lexeme} {a : Bool} :
    x.token? a = some .opening ↔ x.rule = .opening := by
  cases hr : x.rule <;> simp only [token?, hr] <;> (try split) <;> simp

theorem Lexeme.token?_closing {x : Lexeme} {a : Bool} :
    x.token? a = some .closing ↔ x.rule = .closing := by
  cases hr : x.rule <;> simp only [token?, hr] <;> (try split) <;> simp

/-- The token of an operand ends an operand and has the value of the lexeme. -/
theorem Lexeme.token?_operand {x : Lexeme} (h : x.rule ∈ operandRules) (a : Bool) :
    ∃ t : Token, x.token? a = some t ∧ t.endsOperand ∧ t.isOperand ∧
      ∀ ctx, t.value ctx = x.denote ctx := by
  simp only [operandRules, List.mem_cons, List.not_mem_nil, or_false] at h
  rcases h with h | h | h
  · refine ⟨_, by rw [token?, h], rfl, rfl, fun ctx => ?_⟩
    simp only [Token.value, denote, h, word?_elim]
  · refine ⟨_, by rw [token?, h], rfl, rfl, fun ctx => ?_⟩
    simp only [Token.value, denote, h, word?_elim]
  · refine ⟨_, by rw [token?, h], rfl, rfl, fun ctx => ?_⟩
    simp only [Token.value, denote, h]
    cases ctx.register (String.ofList x.text.tail) <;> rfl

theorem Lexeme.mem_operandRules {x : Lexeme} {a : Bool} {t : Token} (h : x.token? a = some t)
    (ht : t.isOperand) : x.rule ∈ operandRules := by
  cases hr : x.rule <;> simp only [token?, hr] at h <;> (try split at h) <;> cases h <;>
    first | decide | cases ht

/-! ## Rows -/

/-- True if a row ends with an operand; an empty row leaves this as it is. -/
def afterRow (afterOperand : Bool) : List Lexeme → Bool
  | [] => afterOperand
  | l :: ls =>
    match l.token? afterOperand with
    | none => afterRow afterOperand ls
    | some t => afterRow t.endsOperand ls

section Cons

variable {a : Bool} {x : Lexeme} {t : Token}

theorem tokensAfter_cons (h : x.token? a = some t) (ls : List Lexeme) :
    tokensAfter a (x :: ls) = t :: tokensAfter t.endsOperand ls := by
  simp only [tokensAfter, h]

theorem tokensAfter_skip (h : x.token? a = none) (ls : List Lexeme) :
    tokensAfter a (x :: ls) = tokensAfter a ls := by
  simp only [tokensAfter, h]

theorem afterRow_cons (h : x.token? a = some t) (ls : List Lexeme) :
    afterRow a (x :: ls) = afterRow t.endsOperand ls := by
  simp only [afterRow, h]

theorem afterRow_skip (h : x.token? a = none) (ls : List Lexeme) :
    afterRow a (x :: ls) = afterRow a ls := by
  simp only [afterRow, h]

end Cons

theorem tokensAfter_append (a : Bool) (ls rs : List Lexeme) :
    tokensAfter a (ls ++ rs) = tokensAfter a ls ++ tokensAfter (afterRow a ls) rs := by
  induction ls generalizing a with
  | nil => rfl
  | cons x ls ih =>
    rw [List.cons_append]
    cases hx : x.token? a with
    | none => rw [tokensAfter_skip hx, tokensAfter_skip hx, afterRow_skip hx, ih]
    | some t => rw [tokensAfter_cons hx, tokensAfter_cons hx, afterRow_cons hx, ih, List.cons_append]

theorem afterRow_append (a : Bool) (ls rs : List Lexeme) :
    afterRow a (ls ++ rs) = afterRow (afterRow a ls) rs := by
  induction ls generalizing a with
  | nil => rfl
  | cons x ls ih =>
    rw [List.cons_append]
    cases hx : x.token? a with
    | none => rw [afterRow_skip hx, afterRow_skip hx, ih]
    | some t => rw [afterRow_cons hx, afterRow_cons hx, ih]

theorem tokensAfter_eq_append {a : Bool} {ls : List Lexeme} {us vs : List Token}
    (h : tokensAfter a ls = us ++ vs) :
    ∃ l₁ l₂, ls = l₁ ++ l₂ ∧ tokensAfter a l₁ = us ∧ tokensAfter (afterRow a l₁) l₂ = vs := by
  induction ls generalizing a us with
  | nil =>
    obtain ⟨rfl, rfl⟩ := List.nil_eq_append_iff.mp h
    exact ⟨[], [], rfl, rfl, rfl⟩
  | cons x ls ih =>
    cases us with
    | nil => exact ⟨[], x :: ls, rfl, rfl, h⟩
    | cons u us =>
      cases hx : x.token? a with
      | none =>
        rw [tokensAfter_skip hx] at h
        obtain ⟨l₁, l₂, rfl, h₁, h₂⟩ := ih h
        exact ⟨x :: l₁, l₂, rfl, by rw [tokensAfter_skip hx, h₁], by rwa [afterRow_skip hx]⟩
      | some t =>
        rw [tokensAfter_cons hx, List.cons_append, List.cons.injEq] at h
        obtain ⟨rfl, h⟩ := h
        obtain ⟨l₁, l₂, rfl, h₁, h₂⟩ := ih h
        exact ⟨x :: l₁, l₂, rfl, by rw [tokensAfter_cons hx, h₁], by rwa [afterRow_cons hx]⟩

/-- The first token of a row without blanks is that of its first lexeme. -/
theorem tokensAfter_eq_cons {a : Bool} {ls : List Lexeme} {t : Token} {ts : List Token}
    (hb : ∀ x ∈ ls, x.rule ≠ .blank) (h : tokensAfter a ls = t :: ts) :
    ∃ x rs, ls = x :: rs ∧ x.token? a = some t ∧ tokensAfter t.endsOperand rs = ts := by
  cases ls with
  | nil => cases h
  | cons x rs =>
    cases hx : x.token? a with
    | none => exact absurd hx (x.token?_ne_none (hb x List.mem_cons_self) a)
    | some u =>
      rw [tokensAfter_cons hx, List.cons.injEq] at h
      obtain ⟨rfl, h⟩ := h
      exact ⟨x, rs, rfl, hx, h⟩

theorem length_tokensAfter {ls : List Lexeme} (hb : ∀ x ∈ ls, x.rule ≠ .blank) (a : Bool) :
    (tokensAfter a ls).length = ls.length := by
  induction ls generalizing a with
  | nil => rfl
  | cons x ls ih =>
    have hls := fun y hy => hb y (List.mem_cons_of_mem x hy)
    cases hx : x.token? a with
    | none => exact absurd hx (x.token?_ne_none (hb x List.mem_cons_self) a)
    | some t => rw [tokensAfter_cons hx, List.length_cons, List.length_cons, ih hls]

/-- Blanks make no difference. -/
theorem tokensAfter_filter (a : Bool) (ls : List Lexeme) :
    tokensAfter a (ls.filter fun x => x.rule ≠ .blank) = tokensAfter a ls := by
  induction ls generalizing a with
  | nil => rfl
  | cons x ls ih =>
    by_cases hx : x.rule = .blank
    · have ht : x.token? a = none := by simp only [Lexeme.token?, hx]
      rw [List.filter_cons_of_neg (by simp [hx]), tokensAfter_skip ht, ih]
    · rw [List.filter_cons_of_pos (by simp [hx])]
      cases ht : x.token? a with
      | none => rw [tokensAfter_skip ht, tokensAfter_skip ht, ih]
      | some t => rw [tokensAfter_cons ht, tokensAfter_cons ht, ih]

/-! ## Derivable rows -/

theorem Derives.not_blank {layer : Layer} {ls : List Lexeme} {t : Tree} (h : Derives layer ls t) :
    ∀ x ∈ ls, x.rule ≠ .blank := by
  -- every lexeme of a derivation has the rule of an operand, a parenthesis or an operator
  induction h with
  | operand hx =>
    intro y hy heq
    rw [List.mem_singleton.mp hy] at heq
    exact absurd (heq ▸ hx) (by decide)
  | group ha _ hb ih =>
    intro y hy
    simp only [List.mem_cons, List.mem_append, List.not_mem_nil, or_false] at hy
    rcases hy with rfl | hy | rfl
    · simp [ha]
    · exact ih y hy
    · simp [hb]
  | unary hop _ ih =>
    intro y hy heq
    rcases List.mem_cons.mp hy with rfl | hy
    · exact absurd (heq ▸ hop) (by simp [prefixOperators])
    · exact ih y hy heq
  | @binary layer x _ _ _ _ _ hop _ _ ihl ihr =>
    intro y hy heq
    rcases List.mem_append.mp hy with hy | hy
    · exact ihl y hy heq
    · rcases List.mem_cons.mp hy with rfl | hy
      · have := heq ▸ hop
        cases layer <;> simp [Layer.operators] at this
      · exact ihr y hy heq
  | tighter _ _ ih => exact ih

/-- A row that the grammar derives ends with an operand. -/
theorem Derives.afterRow {layer : Layer} {ls : List Lexeme} {t : Tree} (h : Derives layer ls t) :
    afterRow false ls = true := by
  induction h with
  | operand hx =>
    obtain ⟨t, ht, hend, -, -⟩ := Lexeme.token?_operand hx false
    rw [afterRow_cons ht]
    exact hend
  | group ha _ hb ih =>
    rw [afterRow_cons (Lexeme.token?_opening.mpr ha), afterRow_append,
      afterRow_cons (Lexeme.token?_closing.mpr hb)]
    rfl
  | unary hop _ ih =>
    rw [afterRow_cons (Lexeme.token?_unary hop)]
    exact ih
  | binary hop _ _ ihl ihr =>
    rw [afterRow_append, ihl, afterRow_cons (Lexeme.token?_binary hop)]
    exact ihr
  | tighter _ _ ih => exact ih

/-! ## The tokens of a production -/

theorem tokens_group {a b : Lexeme} (ls : List Lexeme) (ha : a.rule = .opening)
    (hb : b.rule = .closing) :
    tokensAfter false (a :: (ls ++ [b])) = .opening :: (tokensAfter false ls ++ [.closing]) := by
  rw [tokensAfter_cons (Lexeme.token?_opening.mpr ha), tokensAfter_append,
    tokensAfter_cons (Lexeme.token?_closing.mpr hb)]
  rfl

theorem tokens_unary {x : Lexeme} {op : UnaryOp} (ls : List Lexeme)
    (h : (x.rule, op) ∈ prefixOperators) :
    tokensAfter false (x :: ls) = .unary op :: tokensAfter false ls :=
  tokensAfter_cons (Lexeme.token?_unary h) ls

theorem Derives.tokens_binary {layer layer' : Layer} {x : Lexeme} {op : BinaryOp}
    {ls : List Lexeme} {l : Tree} (h : Derives layer ls l) (rs : List Lexeme)
    (hop : (x.rule, op) ∈ layer'.operators) :
    tokensAfter false (ls ++ x :: rs) =
      tokensAfter false ls ++ .binary op :: tokensAfter false rs := by
  rw [tokensAfter_append, h.afterRow, tokensAfter_cons (Lexeme.token?_binary hop)]
  rfl

/-! ## The lexemes behind tokens -/

section Lexemes

variable {ls : List Lexeme} (hb : ∀ x ∈ ls, x.rule ≠ .blank)
include hb

theorem lexemes_single {t : Token} (h : tokensAfter false ls = [t]) (ht : t.isOperand) :
    ∃ x, ls = [x] ∧ x.rule ∈ operandRules := by
  obtain ⟨x, rs, rfl, hx, -⟩ := tokensAfter_eq_cons hb h
  have hlen := length_tokensAfter hb false
  rw [h] at hlen
  obtain rfl : rs = [] := List.length_eq_zero_iff.mp (by simpa using hlen.symm)
  exact ⟨x, rfl, Lexeme.mem_operandRules hx ht⟩

theorem lexemes_group {inner : List Token}
    (h : tokensAfter false ls = .opening :: (inner ++ [.closing])) :
    ∃ a rs b, ls = a :: (rs ++ [b]) ∧ a.rule = .opening ∧ b.rule = .closing ∧
      tokensAfter false rs = inner := by
  obtain ⟨a, ls', rfl, ha, h'⟩ := tokensAfter_eq_cons hb h
  obtain ⟨rs, l₂, rfl, hrs, hl₂⟩ := tokensAfter_eq_append h'
  have hb₂ : ∀ x ∈ l₂, x.rule ≠ .blank := fun x hx => hb x (by simp [hx])
  obtain ⟨b, l₃, rfl, hbt, -⟩ := tokensAfter_eq_cons hb₂ hl₂
  have hlen := length_tokensAfter hb₂ (afterRow Token.opening.endsOperand rs)
  rw [hl₂] at hlen
  obtain rfl : l₃ = [] := List.length_eq_zero_iff.mp (by simpa using hlen.symm)
  exact ⟨a, rs, b, rfl, Lexeme.token?_opening.mp ha, Lexeme.token?_closing.mp hbt, hrs⟩

theorem lexemes_unary {op : UnaryOp} {operand : List Token}
    (h : tokensAfter false ls = .unary op :: operand) :
    ∃ x rs, ls = x :: rs ∧ (x.rule, op) ∈ prefixOperators ∧ tokensAfter false rs = operand := by
  obtain ⟨x, rs, rfl, hx, hrs⟩ := tokensAfter_eq_cons hb h
  exact ⟨x, rs, rfl, Lexeme.mem_prefixOperators hx, hrs⟩

theorem lexemes_binary {op : BinaryOp} {left right : List Token}
    (h : tokensAfter false ls = left ++ .binary op :: right) :
    ∃ l₁ x rs, ∃ layer : Layer, ls = l₁ ++ x :: rs ∧ (x.rule, op) ∈ layer.operators ∧
      tokensAfter false l₁ = left ∧ tokensAfter false rs = right := by
  obtain ⟨l₁, l₂, rfl, hl₁, hl₂⟩ := tokensAfter_eq_append h
  have hb₂ : ∀ x ∈ l₂, x.rule ≠ .blank := fun x hx => hb x (by simp [hx])
  obtain ⟨x, rs, rfl, hx, hrs⟩ := tokensAfter_eq_cons hb₂ hl₂
  obtain ⟨layer, hlayer⟩ := Lexeme.mem_operators hx
  exact ⟨l₁, x, rs, layer, rfl, hlayer, hl₁, hrs⟩

end Lexemes

end Monitor386.Expr
