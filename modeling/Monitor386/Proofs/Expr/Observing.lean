import Mathlib
import Monitor386.Proofs.Expr.Split
import Monitor386.Proofs.Failure

/-!
# What an expression observes

The value of an expression depends on a context through the registers that it names and the words that
it dereferences. Which words these are depends on the values on the way: `dereferences` lists their
addresses in order, up to the first failure. A context in which a word is hidden (`Context.hide`) tells
whether it is among them.

* `split_induction`: what holds of a row whenever it holds of the parts of its split, holds of all rows.
* `value_congr`, `eval_congr`: contexts that agree in what is observed give the same value, or the same
  error.
* `mem_dereferences_iff`: a word is dereferenced just if hiding it makes the expression fail there.
* `dereferences_eq_nil`: without the operator nothing is dereferenced.
* `eval_congr_of_not_hasDeref`: and then only the registers matter.
-/

namespace Monitor386.Expr

/-! ## Rows and their parts -/

/-- What holds of a row if it holds of the parts of its split, holds of all rows. -/
theorem split_induction {P : List Token → Prop}
    (h : ∀ ts, (∀ s, split ts = .ok s → ∀ part ∈ s.parts, P part) → P ts) (ts : List Token) :
    P ts := by
  induction hn : ts.length using Nat.strongRecOn generalizing ts with
  | _ n ih =>
    subst hn
    exact h ts fun s hs part hpart => ih _ (length_lt_of_split hs part hpart) part rfl

variable {ts part : List Token} {s : Split} {ctx c₁ c₂ : Context} {a : UInt32} {e : List Char}

/-- The parts of a split have no tokens of their own. -/
theorem subset_of_split (h : split ts = .ok s) (hpart : part ∈ s.parts) : part ⊆ ts := by
  have hinv := split_inv h
  cases s with
  | single t => cases hpart
  | group inner =>
    obtain rfl := List.mem_singleton.mp hpart
    rw [hinv]
    exact List.subset_cons_of_subset _ (List.subset_append_left _ _)
  | unary op operand =>
    obtain rfl := List.mem_singleton.mp hpart
    rw [hinv.1]
    exact List.subset_cons_self _ _
  | binary op left right =>
    rw [hinv.1]
    obtain rfl | rfl : part = left ∨ part = right := by simpa [Split.parts] using hpart
    · exact List.subset_append_left _ _
    · exact List.Subset.trans (List.subset_cons_self _ _) (List.subset_append_right _ _)

/-! ## What is read -/

/-- What is read behind a computation, which may have failed. -/
def readsAfter (r : Except Error UInt32) (reads : UInt32 → List UInt32) : List UInt32 :=
  match r with
  | .error _ => []
  | .ok a => reads a

/-- The address that a prefix operator reads. -/
def UnaryOp.reads (a : UInt32) : UnaryOp → List UInt32
  | deref => [a]
  | not | neg => []

/-- The addresses that are read for the value of a row, in order, up to the first failure. -/
def reads (ctx : Context) (ts : List Token) : List UInt32 :=
  match h : split ts with
  | .error _ | .ok (.single _) => []
  | .ok (.group inner) =>
    have := length_lt_of_split h inner (by simp [Split.parts])
    reads ctx inner
  | .ok (.unary op operand) =>
    have := length_lt_of_split h operand (by simp [Split.parts])
    reads ctx operand ++ readsAfter (value ctx operand) fun a => op.reads a
  | .ok (.binary _ left right) =>
    have := length_lt_of_split h left (by simp [Split.parts])
    have := length_lt_of_split h right (by simp [Split.parts])
    reads ctx left ++ readsAfter (value ctx left) fun _ => reads ctx right
termination_by ts.length

/-- The addresses that are read for the parts of a row. -/
def Split.reads (ctx : Context) : Split → List UInt32
  | single _ => []
  | group inner => Expr.reads ctx inner
  | unary op operand =>
    Expr.reads ctx operand ++ readsAfter (Expr.value ctx operand) fun a => op.reads a
  | binary _ left right =>
    Expr.reads ctx left ++ readsAfter (Expr.value ctx left) fun _ => Expr.reads ctx right

theorem reads_of_split (h : split ts = .ok s) : reads ctx ts = s.reads ctx := by
  rw [reads]
  split <;> rename_i h' <;> rw [h] at h' <;> cases h' <;> rfl

theorem reads_of_split_error {err : Error} (h : split ts = .error err) : reads ctx ts = [] := by
  rw [reads]
  split <;> rename_i h' <;> rw [h] at h' <;> cases h'

/-- The addresses that an expression dereferences, in order, up to its first failure. -/
def dereferences (ctx : Context) (e : List Char) : List UInt32 :=
  match tokens e with
  | .error _ => []
  | .ok ts => if balanced 0 ts then reads ctx ts else []

/-- A register is named in an expression. -/
def Names (e name : List Char) : Prop :=
  ∃ ts, tokens e = .ok ts ∧ Token.register name ∈ ts

/-- The operator for dereferences is in an expression. -/
def HasDeref (e : List Char) : Prop :=
  ∃ ts, tokens e = .ok ts ∧ Token.unary .deref ∈ ts

theorem names_iff (h : tokens e = .ok ts) (name : List Char) :
    Names e name ↔ Token.register name ∈ ts := by
  constructor
  · rintro ⟨ts', hts, hmem⟩
    cases h.symm.trans hts
    exact hmem
  · exact fun hmem => ⟨ts, h, hmem⟩

theorem hasDeref_iff (h : tokens e = .ok ts) : HasDeref e ↔ Token.unary .deref ∈ ts := by
  constructor
  · rintro ⟨ts', hts, hmem⟩
    cases h.symm.trans hts
    exact hmem
  · exact fun hmem => ⟨ts, h, hmem⟩

/-! ## Two contexts -/

theorem Token.value_congr {t : Token} (h : ∀ name, t = .register name →
    c₁.register (String.ofList name) = c₂.register (String.ofList name)) :
    t.value c₁ = t.value c₂ := by
  cases t with
  | register name => rw [value, value, h name rfl]
  | literal radix text => cases radix <;> rfl
  | binary | unary | opening | closing => rfl

theorem UnaryOp.apply_congr {op : UnaryOp} (h : ∀ b ∈ op.reads a, c₁.read b = c₂.read b) :
    op.apply c₁ a = op.apply c₂ a := by
  cases op with
  | not | neg => rfl
  | deref => rw [apply, apply, h a (List.mem_singleton_self a)]

/-- Contexts that agree in the registers of a row and in the words that are read for it give it the same
value, and what is read is the same too. -/
theorem value_congr (ts : List Token)
    (hregister : ∀ name, Token.register name ∈ ts →
      c₁.register (String.ofList name) = c₂.register (String.ofList name))
    (hread : ∀ a ∈ reads c₁ ts, c₁.read a = c₂.read a) :
    value c₁ ts = value c₂ ts ∧ reads c₁ ts = reads c₂ ts := by
  induction ts using split_induction with
  | h ts ih =>
    cases hs : split ts with
    | error err =>
      rw [value_of_split_error hs, value_of_split_error hs, reads_of_split_error hs,
        reads_of_split_error hs]
      exact ⟨rfl, rfl⟩
    | ok s =>
      have ih (part) (hpart : part ∈ s.parts) := ih s hs part hpart fun name hname =>
        hregister name (subset_of_split hs hpart hname)
      rw [reads_of_split hs] at hread
      rw [value_of_split hs, value_of_split hs, reads_of_split hs, reads_of_split hs]
      -- the parts are read in order, so that agreement on what is read passes from each to the next
      cases s with
      | single t =>
        refine ⟨Token.value_congr fun name hname => hregister name ?_, rfl⟩
        rw [split_inv hs, hname]
        exact List.mem_singleton_self _
      | group inner => exact ih inner (List.mem_singleton_self _) hread
      | unary op operand =>
        obtain ⟨hvalue, hreads⟩ := ih operand (List.mem_singleton_self _) fun a ha =>
          hread a (List.mem_append_left _ ha)
        rw [Split.value, Split.value, Split.reads, Split.reads, ← hvalue, ← hreads]
        -- what the operator reads depends on the value of the operand
        cases hv : value c₁ operand with
        | error err => exact ⟨rfl, rfl⟩
        | ok a =>
          refine ⟨UnaryOp.apply_congr fun b hb => hread b (List.mem_append_right _ ?_), rfl⟩
          rwa [hv]
      | binary op left right =>
        obtain ⟨hvalue, hreads⟩ := ih left List.mem_cons_self fun a ha =>
          hread a (List.mem_append_left _ ha)
        rw [Split.value, Split.value, Split.reads, Split.reads, ← hvalue, ← hreads]
        -- the right side is read only if the left one has a value
        cases hv : value c₁ left with
        | error err => exact ⟨rfl, rfl⟩
        | ok a =>
          obtain ⟨hvalue', hreads'⟩ := ih right (by simp [Split.parts]) fun b hb =>
            hread b (List.mem_append_right _ (by rwa [hv]))
          rw [← hvalue', ← hreads']
          exact ⟨rfl, rfl⟩

/-- The same for expressions. -/
theorem eval_congr
    (hregister : ∀ name, Names e name →
      c₁.register (String.ofList name) = c₂.register (String.ofList name))
    (hread : ∀ a ∈ dereferences c₁ e, c₁.read a = c₂.read a) :
    eval c₁ e = eval c₂ e ∧ dereferences c₁ e = dereferences c₂ e := by
  unfold dereferences at hread ⊢
  unfold eval
  cases ht : tokens e with
  | error err => exact ⟨rfl, rfl⟩
  | ok ts =>
    rw [ht] at hread
    simp only [bind, Except.bind] at hread ⊢
    cases hb : balanced 0 ts with
    | false => exact ⟨rfl, rfl⟩
    | true =>
      simp only [hb, ↓reduceIte] at hread ⊢
      obtain ⟨hvalue, hreads⟩ :=
        value_congr ts (fun name hname => hregister name ⟨ts, ht, hname⟩) hread
      rw [hvalue, hreads]
      exact ⟨rfl, rfl⟩

/-! ## Hidden words -/

/-- The context without the word at an address. -/
def Context.hide (ctx : Context) (a : UInt32) : Context :=
  { ctx with read := fun b => if b = a then none else ctx.read b }

theorem Context.hide_read_self (ctx : Context) (a : UInt32) : (ctx.hide a).read a = none :=
  if_pos rfl

theorem Context.hide_read_of_ne {b : UInt32} (h : b ≠ a) : (ctx.hide a).read b = ctx.read b :=
  if_neg h

/-- A word that is not read for a row can be hidden. -/
theorem value_hide_of_not_mem (h : a ∉ reads ctx ts) : value (ctx.hide a) ts = value ctx ts := by
  have hregister : ∀ name, Token.register name ∈ ts →
      ctx.register (String.ofList name) = (ctx.hide a).register (String.ofList name) :=
    fun _ _ => rfl
  have hread : ∀ b ∈ reads ctx ts, ctx.read b = (ctx.hide a).read b := fun b hb =>
    (Context.hide_read_of_ne (ne_of_mem_of_not_mem hb h)).symm
  exact (value_congr ts hregister hread).1.symm

/-- If a word that is read for a row is hidden, the row fails there. -/
theorem value_hide_of_mem (h : a ∈ reads ctx ts) :
    value (ctx.hide a) ts = .error (.badAddress a) := by
  induction ts using split_induction with
  | h ts ih =>
    cases hs : split ts with
    | error err =>
      rw [reads_of_split_error hs] at h
      cases h
    | ok s =>
      rw [reads_of_split hs] at h
      rw [value_of_split hs]
      have ih := ih s hs
      cases s with
      | single t => cases h
      | group inner => exact ih inner (List.mem_singleton_self _) h
      | unary op operand =>
        by_cases hoperand : a ∈ reads ctx operand
        · exact bind_eq_error.mpr (.inl (ih operand (List.mem_singleton_self _) hoperand))
        -- the operand is not affected, so the word is what the operator reads
        · have hop := (List.mem_append.mp h).resolve_left hoperand
          rw [Split.value, value_hide_of_not_mem hoperand]
          cases hv : value ctx operand with
          | error err =>
            rw [hv] at hop
            cases hop
          | ok b =>
            rw [hv] at hop
            cases op with
            | not | neg => cases hop
            | deref =>
              obtain rfl : a = b := List.mem_singleton.mp hop
              show UnaryOp.apply (ctx.hide a) a .deref = _
              rw [UnaryOp.apply, Context.hide_read_self]
              rfl
      | binary op left right =>
        by_cases hleft : a ∈ reads ctx left
        · exact bind_eq_error.mpr (.inl (ih left List.mem_cons_self hleft))
        -- the left side is not affected, and it has a value, since the right one is read
        · have hright := (List.mem_append.mp h).resolve_left hleft
          cases hv : value ctx left with
          | error err =>
            rw [hv] at hright
            cases hright
          | ok b =>
            rw [hv] at hright
            refine bind_eq_error.mpr (.inr ⟨b, (value_hide_of_not_mem hleft).trans hv, ?_⟩)
            exact bind_eq_error.mpr (.inl (ih right (by simp [Split.parts]) hright))

/-! ## Failures -/

theorem dominantFrom_error {depth index : Nat} {best : Option (Nat × Nat)} {err : Error}
    (h : dominantFrom depth index best ts = .error err) : err = .unmatchedParen := by
  induction ts generalizing depth index best with
  | nil =>
    rw [dominantFrom] at h
    split at h <;> cases h
    rfl
  | cons t ts ih =>
    unfold dominantFrom at h
    split at h
    · exact ih h
    · split at h
      · cases h
        rfl
      · exact ih h
    · split at h
      · exact ih h
      · exact ih h

/-- The causes for which a row is not split. -/
theorem split_error {err : Error} (h : split ts = .error err) :
    err ∈ [Error.emptyOperand, .malformed, .unmatchedParen] := by
  unfold split at h
  split at h
  · cases h
    simp
  · cases h
  · split at h
    · cases h
    · obtain h | ⟨o, -, h⟩ := bind_eq_error.mp h
      · rw [dominantFrom_error h]
        simp
      · repeat' split at h
        all_goals cases h
        all_goals simp

/-- The causes for which a single token has no value. -/
theorem Token.value_error {t : Token} {err : Error} (h : t.value ctx = .error err) :
    (∃ text, err = .badLiteral text) ∨ (∃ name, err = .unknownRegister name) ∨ err = .malformed := by
  cases t with
  | register name =>
    rw [value] at h
    cases hr : ctx.register (String.ofList name) <;> rw [hr] at h <;> cases h
    exact .inr (.inl ⟨_, rfl⟩)
  | literal radix text =>
    cases radix <;> rw [value] at h
    · cases hw : Text.word? 10 text <;> rw [hw] at h <;> cases h
      exact .inl ⟨_, rfl⟩
    · cases hw : Text.word? 16 (text.drop 2) <;> rw [hw] at h <;> cases h
      exact .inl ⟨_, rfl⟩
  | binary | unary | opening | closing =>
    cases h
    exact .inr (.inr rfl)

theorem BinaryOp.apply_error {b c : UInt32} {op : BinaryOp} {err : Error}
    (h : op.apply b c = .error err) : err = .divideByZero := by
  cases op with
  | div =>
    rw [apply] at h
    split at h <;> cases h
    rfl
  | mul | add | sub | eq | ne | and | or => cases h

theorem UnaryOp.apply_error {b : UInt32} {op : UnaryOp} {err : Error}
    (h : op.apply ctx b = .error err) : err = .badAddress b := by
  cases op with
  | not | neg => cases h
  | deref =>
    rw [apply] at h
    cases hr : ctx.read b <;> rw [hr] at h <;> cases h
    rfl

theorem UnaryOp.mem_reads_of_badAddress {b : UInt32} {op : UnaryOp}
    (h : op.apply ctx b = .error (.badAddress a)) : a ∈ op.reads b := by
  cases op with
  | not | neg => cases h
  | deref =>
    cases apply_error h
    exact List.mem_singleton_self _

/-- A row fails only at an address that is read for it. -/
theorem mem_reads_of_badAddress (h : value ctx ts = .error (.badAddress a)) : a ∈ reads ctx ts := by
  induction ts using split_induction with
  | h ts ih =>
    cases hs : split ts with
    | error err =>
      rw [value_of_split_error hs] at h
      cases h
      exact absurd (split_error hs) (by simp)
    | ok s =>
      rw [value_of_split hs] at h
      rw [reads_of_split hs]
      have ih := ih s hs
      cases s with
      | single t => obtain ⟨_, h⟩ | ⟨_, h⟩ | h := Token.value_error h <;> cases h
      | group inner => exact ih inner (List.mem_singleton_self _) h
      | unary op operand =>
        -- the operand fails, or the operator that reads at its value
        obtain h | ⟨b, hb, h⟩ := bind_eq_error.mp h
        · exact List.mem_append_left _ (ih operand (List.mem_singleton_self _) h)
        · refine List.mem_append_right _ ?_
          rw [hb]
          exact UnaryOp.mem_reads_of_badAddress h
      | binary op left right =>
        obtain h | ⟨b, hb, h⟩ := bind_eq_error.mp h
        · exact List.mem_append_left _ (ih left List.mem_cons_self h)
        · refine List.mem_append_right _ ?_
          rw [hb]
          obtain h | ⟨b', -, h⟩ := bind_eq_error.mp h
          · exact ih right (by simp [Split.parts]) h
          · cases BinaryOp.apply_error h

theorem tokens_ne_badAddress (e : List Char) : tokens e ≠ .error (.badAddress a) := by
  intro h
  rw [tokens] at h
  split_ifs at h <;> cases h

/-- A word is dereferenced just if hiding it makes the expression fail there. -/
theorem mem_dereferences_iff :
    a ∈ dereferences ctx e ↔ eval (ctx.hide a) e = .error (.badAddress a) := by
  unfold dereferences eval
  cases ht : tokens e with
  | error err =>
    have hne : err ≠ .badAddress a := fun heq => tokens_ne_badAddress e (heq ▸ ht)
    simpa [bind, Except.bind] using hne
  | ok ts =>
    simp only [bind, Except.bind]
    by_cases hnil : ts = []
    · have hreads : reads ctx [] = [] := reads_of_split_error rfl
      simp [hnil, hreads]
    cases hb : balanced 0 ts with
    | false => simp [hnil]
    | true =>
      simp only [hnil, ↓reduceIte]
      constructor
      · exact value_hide_of_mem
      · intro h
        by_contra hmem
        rw [value_hide_of_not_mem hmem] at h
        exact hmem (mem_reads_of_badAddress h)

/-! ## Expressions without dereferences -/

theorem reads_eq_nil (h : Token.unary .deref ∉ ts) : reads ctx ts = [] := by
  induction ts using split_induction with
  | h ts ih =>
    cases hs : split ts with
    | error err => exact reads_of_split_error hs
    | ok s =>
      rw [reads_of_split hs]
      have ih (part) (hpart : part ∈ s.parts) : reads ctx part = [] :=
        ih s hs part hpart fun hmem => h (subset_of_split hs hpart hmem)
      cases s with
      | single t => rfl
      | group inner => exact ih inner (List.mem_singleton_self _)
      | unary op operand =>
        rw [Split.reads, ih operand (List.mem_singleton_self _), List.nil_append]
        -- the operator is a token of the row
        have hop : op ≠ .deref := by
          rintro rfl
          rw [(split_inv hs).1] at h
          exact h List.mem_cons_self
        cases value ctx operand with
        | error err => rfl
        | ok a =>
          cases op with
          | not | neg => rfl
          | deref => exact absurd rfl hop
      | binary op left right =>
        rw [Split.reads, ih left List.mem_cons_self, ih right (by simp [Split.parts])]
        cases value ctx left <;> rfl

theorem dereferences_eq_nil (h : ¬ HasDeref e) (ctx : Context) : dereferences ctx e = [] := by
  unfold dereferences
  cases ht : tokens e with
  | error err => rfl
  | ok ts =>
    have hts : Token.unary .deref ∉ ts := fun hmem => h ⟨ts, ht, hmem⟩
    simp only [reads_eq_nil hts, ite_self]

/-- Without dereferences only the registers matter. -/
theorem eval_congr_of_not_hasDeref (hderef : ¬ HasDeref e)
    (hregister : ∀ name, Names e name →
      c₁.register (String.ofList name) = c₂.register (String.ofList name)) :
    eval c₁ e = eval c₂ e := by
  have hread : ∀ a ∈ dereferences c₁ e, c₁.read a = c₂.read a := by
    rw [dereferences_eq_nil hderef]
    exact List.forall_mem_nil _
  exact (eval_congr hregister hread).1

end Monitor386.Expr
