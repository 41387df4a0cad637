import Mathlib
import Monitor386.Expr.Lexeme
import Monitor386.Proofs.Text.Spacing

/-!
# The texts of the rules

What a rule takes is described by the set of its texts, `Rule.Matches`, and not by how it is found:
a rule takes the longest of its texts that the expression starts with (`Longest`).

* `Rule.lexeme?_longest`: the function of each rule does that.
* `Rule.Matches.solid`: there are no blanks in a lexeme.
* `Rule.Matches.index_le`: no lexeme starts with a lexeme of an earlier rule. The first character tells
  the rule up to `!` and `!=`, and up to the two kinds of numeral (`Rule.eq_or_pair`).
* `Rule.Matches.unique`: no text has two rules.
-/

namespace Monitor386.Expr

/-- What is taken from the start of a text: the longest prefix in a set of texts, if there is one. -/
structure Longest (P : List Char → Prop) (cs : List Char) (taken : Option (List Char)) : Prop where
  none_of : taken = none → ∀ t, P t → ¬ t <+: cs
  some_of : ∀ m, taken = some m → P m ∧ m <+: cs ∧ ∀ t, P t → t <+: cs → t <+: m

/-- A text of one character or more, all with a property. -/
def Run (p : Char → Bool) (t : List Char) : Prop :=
  t ≠ [] ∧ ∀ c ∈ t, p c = true

instance (p : Char → Bool) (t : List Char) : Decidable (Run p t) :=
  @instDecidableAnd _ _ inferInstance (List.decidableBAll _ t)

namespace Rule

/-- The texts of a rule. -/
def Matches (r : Rule) (t : List Char) : Prop :=
  match r with
  | blank => Run Text.isBlank t
  | hex => ∃ x ds, t = '0' :: x :: ds ∧ (x = 'x' ∨ x = 'X') ∧ Run Text.isHexDigit ds
  | decimal => Run Char.isDigit t
  | register => ∃ name, t = '$' :: name ∧ Run Char.isAlpha name
  | r => r.spelling? = some t

end Rule

/-! ## One rule -/

section

variable {P Q : List Char → Prop} {cs : List Char} {taken : Option (List Char)}

theorem Longest.of_none (h : ∀ t, P t → ¬ t <+: cs) : Longest P cs none :=
  ⟨fun _ => h, nofun⟩

/-- Only the prefixes matter. -/
theorem Longest.congr (h : Longest P cs taken) (hPQ : ∀ t, t <+: cs → (P t ↔ Q t)) :
    Longest Q cs taken where
  none_of hnone t ht hstart := h.none_of hnone t ((hPQ t hstart).mpr ht) hstart
  some_of m hm := by
    obtain ⟨hP, hstart, hlong⟩ := h.some_of m hm
    exact ⟨(hPQ m hstart).mp hP, hstart, fun t ht ht' => hlong t ((hPQ t ht').mpr ht) ht'⟩

theorem Longest.cons (h : Longest P cs taken) (c : Char) :
    Longest (fun t => ∃ u, t = c :: u ∧ P u) (c :: cs) (taken.map (c :: ·)) where
  none_of hnone := by
    rintro _ ⟨u, rfl, hu⟩ hstart
    exact h.none_of (Option.map_eq_none_iff.mp hnone) u hu (List.cons_prefix_cons.mp hstart).2
  some_of _ hmap := by
    obtain ⟨m, hm, rfl⟩ := Option.map_eq_some_iff.mp hmap
    obtain ⟨hP, hstart, hlong⟩ := h.some_of m hm
    refine ⟨⟨m, rfl, hP⟩, List.cons_prefix_cons.mpr ⟨rfl, hstart⟩, ?_⟩
    rintro _ ⟨u, rfl, hu⟩ hu'
    exact List.cons_prefix_cons.mpr ⟨rfl, hlong u hu (List.cons_prefix_cons.mp hu').2⟩

theorem Longest.run (p : Char → Bool) (cs : List Char) : Longest (Run p) cs (Rule.run? p cs) := by
  have hle : ∀ t, (∀ c ∈ t, p c = true) → t <+: cs → t <+: cs.takeWhile p := by
    rintro t ht ⟨u, rfl⟩
    rw [List.takeWhile_append_of_pos ht]
    exact List.prefix_append _ _
  constructor
  · rintro hnone t ⟨hne, ht⟩ hstart
    have hnil : cs.takeWhile p = [] := by
      unfold Rule.run? at hnone
      split at hnone
      next hnil => exact hnil
      next => cases hnone
    exact hne (List.prefix_nil.mp (hnil ▸ hle t ht hstart))
  · intro m hm
    obtain ⟨hne, rfl⟩ := Rule.run?_eq_some hm
    exact ⟨⟨hne, fun c hc => List.mem_takeWhile_imp hc⟩, List.takeWhile_prefix _,
      fun t ht => hle t ht.2⟩

end

namespace Rule

theorem matches_fixed {r : Rule} {s t : List Char} (hs : r.spelling? = some s) :
    r.Matches t ↔ t = s := by
  cases r <;> cases hs <;> simp [Matches, spelling?, eq_comm]

theorem lexeme?_fixed {r : Rule} {s : List Char} (hs : r.spelling? = some s) (cs : List Char) :
    r.lexeme? cs = if s.isPrefixOf cs then some s else none := by
  cases r <;> cases hs <;> rfl

theorem fixed_longest {r : Rule} {s : List Char} (hs : r.spelling? = some s) (cs : List Char) :
    Longest r.Matches cs (r.lexeme? cs) := by
  have hiff := fun t => matches_fixed (t := t) hs
  rw [lexeme?_fixed hs]
  split
  next hstart =>
    rw [List.isPrefixOf_iff_prefix] at hstart
    refine ⟨nofun, fun m hm => ?_⟩
    cases hm
    exact ⟨(hiff s).mpr rfl, hstart, fun t ht _ => (hiff t).mp ht ▸ List.prefix_rfl⟩
  next hstart =>
    rw [List.isPrefixOf_iff_prefix] at hstart
    exact .of_none fun t ht => (hiff t).mp ht ▸ hstart

theorem register_longest (cs : List Char) : Longest register.Matches cs (register.lexeme? cs) := by
  unfold lexeme?
  split
  case h_4 cs _ => exact (Longest.run Char.isAlpha cs).cons '$'
  case h_5 hno =>
    refine .of_none ?_
    rintro _ ⟨name, rfl, -⟩ ⟨u, rfl⟩
    exact hno _ rfl rfl
  all_goals contradiction

theorem hex_longest (cs : List Char) : Longest hex.Matches cs (hex.lexeme? cs) := by
  unfold lexeme?
  split
  case h_2 x cs _ =>
    split
    next hx =>
      have hrun := ((Longest.run Text.isHexDigit cs).cons x).cons '0'
      rw [Option.map_map] at hrun
      refine hrun.congr fun t hstart => ⟨?_, ?_⟩
      · rintro ⟨_, rfl, ds, rfl, hds⟩
        exact ⟨x, ds, rfl, hx, hds⟩
      · rintro ⟨y, ds, rfl, -, hds⟩
        obtain ⟨-, hstart⟩ := List.cons_prefix_cons.mp hstart
        exact ⟨_, rfl, ds, by rw [(List.cons_prefix_cons.mp hstart).1], hds⟩
    next hx =>
      refine .of_none ?_
      rintro _ ⟨y, ds, rfl, hy, -⟩ ⟨u, hu⟩
      cases hu
      exact hx hy
  case h_5 hno _ =>
    refine .of_none ?_
    rintro _ ⟨x, ds, rfl, -⟩ ⟨u, rfl⟩
    exact hno _ _ rfl rfl
  all_goals contradiction

/-- A rule takes the longest of its texts. -/
theorem lexeme?_longest (r : Rule) (cs : List Char) : Longest r.Matches cs (r.lexeme? cs) := by
  cases hs : r.spelling? with
  | some s => exact fixed_longest hs cs
  | none =>
    cases r with
    | blank => exact .run Text.isBlank cs
    | hex => exact hex_longest cs
    | decimal => exact .run Char.isDigit cs
    | register => exact register_longest cs
    | _ => cases hs

variable {r r' : Rule} {c : Char} {t t' : List Char}

theorem Matches.ne_nil (h : r.Matches t) : t ≠ [] := by
  rintro rfl
  cases r with
  | blank | decimal => exact h.1 rfl
  | hex =>
    obtain ⟨x, ds, h, -⟩ := h
    cases h
  | register =>
    obtain ⟨name, h, -⟩ := h
    cases h
  | _ => cases h

/-! ## One character -/

/-- Only blanks have blanks in their text. -/
theorem Matches.solid (h : r.Matches t) (hr : r ≠ blank) : Text.Solid t := by
  cases r with
  | blank => exact absurd rfl hr
  | decimal => exact fun c hc => Text.not_blank_of_isDigit (h.2 c hc)
  | hex =>
    obtain ⟨x, ds, rfl, hx, -, hds⟩ := h
    have hx : Text.isBlank x = false := by obtain rfl | rfl := hx <;> decide
    exact List.forall_mem_cons.mpr ⟨by decide, List.forall_mem_cons.mpr
      ⟨hx, fun c hc => Text.not_blank_of_isHexDigit (hds c hc)⟩⟩
  | register =>
    obtain ⟨name, rfl, -, hname⟩ := h
    exact List.forall_mem_cons.mpr ⟨by decide, fun c hc => Text.not_blank_of_isAlpha (hname c hc)⟩
  | _ =>
    cases h
    decide

/-- The rules with a text that starts with a character. -/
def startingWith (c : Char) : List Rule :=
  if Text.isBlank c then [blank]
  else if c.isDigit then [hex, decimal]
  else if c = '$' then [register]
  else all.filter fun r => r.spelling?.bind List.head? = some c

theorem Matches.mem_startingWith (h : r.Matches (c :: t)) : r ∈ startingWith c := by
  cases r with
  | blank =>
    have hc : Text.isBlank c = true := h.2 c List.mem_cons_self
    rw [startingWith, if_pos hc]
    exact List.mem_cons_self
  | decimal =>
    have hc : c.isDigit = true := h.2 c List.mem_cons_self
    rw [startingWith, if_neg (by rw [Text.not_blank_of_isDigit hc]; decide), if_pos hc]
    exact List.mem_cons_of_mem _ List.mem_cons_self
  | hex =>
    obtain ⟨x, ds, h, -⟩ := h
    cases h
    decide
  | register =>
    obtain ⟨name, h, -⟩ := h
    cases h
    decide
  | _ =>
    cases h
    decide

theorem fixed_eq_or_pair : ∀ r ∈ all, ∀ r' ∈ all,
    r.spelling?.bind List.head? = r'.spelling?.bind List.head? →
    (r.spelling?.bind List.head?).isSome → r = r' ∨ (r ∈ [ne, not] ∧ r' ∈ [ne, not]) := by
  decide

/-- The first character of a text tells its rule, up to two pairs. -/
theorem eq_or_pair (h : r ∈ startingWith c) (h' : r' ∈ startingWith c) :
    r = r' ∨ (r ∈ [ne, not] ∧ r' ∈ [ne, not]) ∨ (r ∈ [hex, decimal] ∧ r' ∈ [hex, decimal]) := by
  unfold startingWith at h h'
  split_ifs at h h'
  · exact .inl ((List.mem_singleton.mp h).trans (List.mem_singleton.mp h').symm)
  · exact .inr (.inr ⟨h, h'⟩)
  · exact .inl ((List.mem_singleton.mp h).trans (List.mem_singleton.mp h').symm)
  · rw [List.mem_filter, decide_eq_true_eq] at h h'
    obtain h | h := fixed_eq_or_pair r h.1 r' h'.1 (h.2.trans h'.2.symm) (by rw [h.2]; rfl)
    · exact .inl h
    · exact .inr (.inl h)

/-- What starts a text of a rule is no text of an earlier rule. -/
theorem Matches.index_le (h : r.Matches t) (h' : r'.Matches t') (hstart : t' <+: t) :
    r.index ≤ r'.index := by
  obtain ⟨c, u', rfl⟩ := List.exists_cons_of_ne_nil h'.ne_nil
  obtain ⟨u, rfl⟩ := hstart
  have hmem : r ∈ startingWith c := Matches.mem_startingWith (t := u' ++ u) h
  obtain rfl | ⟨hr, hr'⟩ | ⟨hr, hr'⟩ := eq_or_pair hmem h'.mem_startingWith
  · exact le_rfl
  · simp only [List.mem_cons, List.not_mem_nil, or_false] at hr hr'
    obtain ⟨rfl | rfl, rfl | rfl⟩ := And.intro hr hr'
    · decide
    · decide
    · -- the text of `!` is shorter
      have hlen := congrArg List.length (Option.some.inj h)
      cases h'
      simp at hlen
    · decide
  · simp only [List.mem_cons, List.not_mem_nil, or_false] at hr hr'
    obtain ⟨rfl | rfl, rfl | rfl⟩ := And.intro hr hr'
    · decide
    · decide
    · -- the second character of a hexadecimal numeral is no digit
      obtain ⟨x, ds, heq, hx, -⟩ := h'
      rw [heq] at h
      have hdigit := h.2 x (by simp)
      obtain rfl | rfl := hx <;> cases hdigit
    · decide

theorem mem_all (r : Rule) : r ∈ all := by
  cases r <;> decide

theorem index_inj : r.index = r'.index ↔ r = r' :=
  List.idxOf_inj (mem_all r)

/-- No text has two rules. -/
theorem Matches.unique (h : r.Matches t) (h' : r'.Matches t) : r = r' :=
  index_inj.mp (le_antisymm (h.index_le h' List.prefix_rfl) (h'.index_le h List.prefix_rfl))

end Rule

end Monitor386.Expr
