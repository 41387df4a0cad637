import Mathlib
import Monitor386.Text.Blank
import Monitor386.Text.Numeral

/-!
# Parts of a line with blanks between them

`Spread parts line` says that a line shows some parts in order, with blanks between neighbours and,
if it likes, around them all. A text is `Tidy` if it has a character and no blank at its ends.

* `trim_pad`: blanks around a text do not show in it when it is trimmed.
* `trim_eq_self_iff`, `trimmed_trim`, `exists_pad`: what trimming leaves, and what it takes away.
* `Spread.trim_eq`: a line of tidy parts, trimmed, is a row of these parts.
* `Row.split`, `splitAtBlank?_eq_some`: what a line is cut into at its first blank.
-/

namespace Monitor386.Text

/-- Nothing but blanks. -/
def Blank (bs : List Char) : Prop :=
  ∀ b ∈ bs, isBlank b = true

/-- No blanks. -/
def Solid (cs : List Char) : Prop :=
  ∀ c ∈ cs, isBlank c = false

/-- No blanks at the two ends. -/
def Trimmed (cs : List Char) : Prop :=
  (∀ c ∈ cs.head?, isBlank c = false) ∧ ∀ c ∈ cs.getLast?, isBlank c = false

/-- Some characters, the first and the last of which are no blanks. -/
def Tidy (cs : List Char) : Prop :=
  cs ≠ [] ∧ Trimmed cs

/-- The end of a text, or a blank. -/
def AtBlank (cs : List Char) : Prop :=
  ∀ c ∈ cs.head?, isBlank c = true

-- the characters of the text are looked at, and not all characters there are
instance (bs : List Char) : Decidable (Blank bs) :=
  List.decidableBAll _ bs

instance (cs : List Char) : Decidable (Solid cs) :=
  List.decidableBAll _ cs

instance (cs : List Char) : Decidable (Trimmed cs) :=
  @instDecidableAnd _ _ (Option.decidableForallMem cs.head?) (Option.decidableForallMem cs.getLast?)

instance (cs : List Char) : Decidable (AtBlank cs) :=
  Option.decidableForallMem cs.head?

instance (cs : List Char) : Decidable (Tidy cs) :=
  inferInstanceAs (Decidable (cs ≠ [] ∧ Trimmed cs))

/-- Parts in order, with blanks between neighbours. -/
inductive Row : List (List Char) → List Char → Prop where
  | nil : Row [] []
  | last (part : List Char) : Row [part] part
  | cons {part blanks row : List Char} {parts : List (List Char)} : blanks ≠ [] → Blank blanks →
      parts ≠ [] → Row parts row → Row (part :: parts) (part ++ blanks ++ row)

/-- A line that shows parts in order, with blanks between neighbours and perhaps around them. -/
def Spread (parts : List (List Char)) (line : List Char) : Prop :=
  ∃ before row after, Blank before ∧ Row parts row ∧ Blank after ∧ line = before ++ row ++ after

variable {bs bs' cs ds line row word rest : List Char} {parts : List (List Char)}

theorem Blank.append (h : Blank bs) (h' : Blank bs') : Blank (bs ++ bs') :=
  List.forall_mem_append.mpr ⟨h, h'⟩

theorem Blank.reverse (h : Blank bs) : Blank bs.reverse :=
  fun b hb => h b (List.mem_reverse.mp hb)

theorem Blank.atBlank (h : Blank bs) : AtBlank bs :=
  fun b hb => h b (List.mem_of_mem_head? hb)

theorem Blank.append_atBlank (h : Blank bs) (hne : bs ≠ []) (cs : List Char) :
    AtBlank (bs ++ cs) := by
  intro b hb
  rw [List.head?_append_of_ne_nil bs hne] at hb
  exact h.atBlank b hb

theorem Solid.trimmed (h : Solid cs) : Trimmed cs :=
  ⟨fun c hc => h c (List.mem_of_mem_head? hc), fun c hc => h c (List.mem_of_mem_getLast? hc)⟩

theorem Solid.tidy (h : Solid cs) (hne : cs ≠ []) : Tidy cs :=
  ⟨hne, h.trimmed⟩

theorem not_blank_of_range {c : Char} (h : '!' ≤ c) (h' : c ≤ '~') : isBlank c = false := by
  have hlow : 0x21 ≤ c.toNat := UInt32.le_iff_toNat_le.mp h
  have hhigh : c.toNat ≤ 0x7E := UInt32.le_iff_toNat_le.mp h'
  simp only [isBlank, Bool.or_eq_false_iff, Bool.and_eq_false_iff, decide_eq_false_iff_not,
    beq_eq_false_iff_ne]
  omega

theorem not_blank_of_isDigit {c : Char} (h : c.isDigit = true) : isBlank c = false := by
  simp only [Char.isDigit, Bool.and_eq_true, decide_eq_true_eq] at h
  obtain ⟨hlow, hhigh⟩ : '0' ≤ c ∧ c ≤ '9' := h
  exact not_blank_of_range (le_trans (by decide) hlow) (le_trans hhigh (by decide))

theorem not_blank_of_isAlpha {c : Char} (h : c.isAlpha = true) : isBlank c = false := by
  simp only [Char.isAlpha, Char.isUpper, Char.isLower, Bool.or_eq_true, Bool.and_eq_true,
    decide_eq_true_eq] at h
  obtain ⟨hlow, hhigh⟩ | ⟨hlow, hhigh⟩ : ('A' ≤ c ∧ c ≤ 'Z') ∨ 'a' ≤ c ∧ c ≤ 'z' := h
  · exact not_blank_of_range (le_trans (by decide) hlow) (le_trans hhigh (by decide))
  · exact not_blank_of_range (le_trans (by decide) hlow) (le_trans hhigh (by decide))

theorem not_blank_of_isHexDigit {c : Char} (h : isHexDigit c = true) : isBlank c = false := by
  simp only [isHexDigit, Bool.or_eq_true, Bool.and_eq_true, decide_eq_true_eq] at h
  obtain (h | ⟨hlow, hhigh⟩) | ⟨hlow, hhigh⟩ := h
  · exact not_blank_of_isDigit h
  · exact not_blank_of_range (le_trans (by decide) hlow) (le_trans hhigh (by decide))
  · exact not_blank_of_range (le_trans (by decide) hlow) (le_trans hhigh (by decide))

/-! ## Trimming -/

theorem trimStart_append (h : Blank bs) (cs : List Char) : trimStart (bs ++ cs) = trimStart cs :=
  List.dropWhile_append_of_pos h

theorem trimEnd_append (h : Blank bs) (cs : List Char) : trimEnd (cs ++ bs) = trimEnd cs := by
  rw [trimEnd, List.reverse_append, List.dropWhile_append_of_pos h.reverse, ← trimEnd]

theorem trimStart_of_blank (h : Blank bs) : trimStart bs = [] :=
  List.dropWhile_eq_nil_iff.mpr h

theorem trimStart_eq_self_iff : trimStart cs = cs ↔ ∀ c ∈ cs.head?, isBlank c = false := by
  cases cs with
  | nil => simp [trimStart]
  | cons c cs => simp [trimStart, List.dropWhile_eq_self_iff]

theorem trimEnd_eq_self_iff : trimEnd cs = cs ↔ ∀ c ∈ cs.getLast?, isBlank c = false := by
  rw [trimEnd, List.reverse_eq_iff, ← List.head?_reverse]
  exact trimStart_eq_self_iff

/-- What is taken away at the start, and what is left. -/
theorem exists_trimStart (cs : List Char) :
    ∃ bs, Blank bs ∧ cs = bs ++ trimStart cs ∧ ∀ c ∈ (trimStart cs).head?, isBlank c = false := by
  refine ⟨cs.takeWhile isBlank, fun b hb => ?_, ?_, fun c hc => ?_⟩
  · exact List.mem_takeWhile_imp hb
  · exact List.takeWhile_append_dropWhile.symm
  · have h := List.head?_dropWhile_not isBlank cs
    rw [← trimStart, Option.mem_def.mp hc] at h
    simpa using h

theorem exists_trimEnd (cs : List Char) :
    ∃ bs, Blank bs ∧ cs = trimEnd cs ++ bs ∧
      ∀ c ∈ (trimEnd cs).getLast?, isBlank c = false := by
  obtain ⟨bs, hbs, heq, hhead⟩ := exists_trimStart cs.reverse
  refine ⟨bs.reverse, hbs.reverse, ?_, ?_⟩
  · rw [trimEnd, ← trimStart, ← List.reverse_append, ← heq, List.reverse_reverse]
  · rw [trimEnd, List.getLast?_reverse]
    exact hhead

theorem trim_pad (h : Blank bs) (cs : List Char) (h' : Blank bs') :
    trim (bs ++ cs ++ bs') = trim cs := by
  rw [trim, List.append_assoc, trimStart_append h]
  obtain ⟨b, hb, heq, hhead⟩ := exists_trimStart cs
  obtain hnil | hne := eq_or_ne (trimStart cs) []
  · -- there is nothing but blanks
    rw [hnil, List.append_nil] at heq
    rw [trim, hnil, heq, trimStart_of_blank (hb.append h')]
  · have hrest : trimStart (trimStart cs ++ bs') = trimStart cs ++ bs' := by
      rw [trimStart_eq_self_iff, List.head?_append_of_ne_nil _ hne]
      exact hhead
    conv_lhs => rw [heq, List.append_assoc, trimStart_append hb, hrest, trimEnd_append h']
    rfl

theorem trimmed_trim (cs : List Char) : Trimmed (trim cs) := by
  obtain ⟨-, -, -, hhead⟩ := exists_trimStart cs
  obtain ⟨bs, -, heq, hlast⟩ := exists_trimEnd (trimStart cs)
  refine ⟨fun c hc => hhead c ?_, hlast⟩
  rw [heq, ← trim]
  exact List.mem_head?_append_of_mem_head? hc

theorem trim_eq_self_iff : trim cs = cs ↔ Trimmed cs := by
  constructor
  · intro h
    exact h ▸ trimmed_trim cs
  · rintro ⟨hhead, hlast⟩
    rw [trim, trimStart_eq_self_iff.mpr hhead, trimEnd_eq_self_iff.mpr hlast]

theorem exists_pad (cs : List Char) :
    ∃ bs bs', Blank bs ∧ Blank bs' ∧ cs = bs ++ trim cs ++ bs' := by
  obtain ⟨bs, hbs, heq, -⟩ := exists_trimStart cs
  obtain ⟨bs', hbs', heq', -⟩ := exists_trimEnd (trimStart cs)
  exact ⟨bs, bs', hbs, hbs', by rw [trim, List.append_assoc, ← heq', ← heq]⟩

theorem trim_eq_nil_iff : trim cs = [] ↔ Blank cs := by
  constructor
  · intro h
    obtain ⟨bs, bs', hbs, hbs', heq⟩ := exists_pad cs
    rw [heq, h, List.append_nil]
    exact hbs.append hbs'
  · intro h
    rw [trim, trimStart_of_blank h]
    rfl

theorem tidy_trim (h : ¬ Blank cs) : Tidy (trim cs) :=
  ⟨fun hnil => h (trim_eq_nil_iff.mp hnil), trimmed_trim cs⟩

/-! ## Rows -/

theorem row_nil_iff : Row [] row ↔ row = [] := by
  constructor
  · rintro ⟨⟩
    rfl
  · rintro rfl
    exact .nil

theorem row_single_iff : Row [word] row ↔ row = word := by
  constructor
  · intro h
    cases h with
    | last => rfl
    | cons _ _ hne => exact absurd rfl hne
  · rintro rfl
    exact .last row

theorem Tidy.append (h : Tidy cs) (h' : Tidy ds) (bs : List Char) : Tidy (cs ++ bs ++ ds) := by
  refine ⟨List.append_ne_nil_of_right_ne_nil _ h'.1, fun c hc => h.2.1 c ?_, fun c hc => h'.2.2 c ?_⟩
  · rwa [List.append_assoc, List.head?_append_of_ne_nil _ h.1] at hc
  · rwa [List.getLast?_append_of_ne_nil _ h'.1] at hc

theorem Row.tidy (h : Row parts row) (hne : parts ≠ []) (ht : ∀ p ∈ parts, Tidy p) : Tidy row := by
  induction h with
  | nil => exact absurd rfl hne
  | last part => exact ht part List.mem_cons_self
  | @cons part blanks row parts _ _ hparts _ ih =>
    obtain ⟨hpart, ht⟩ := List.forall_mem_cons.mp ht
    exact hpart.append (ih hparts ht) blanks

theorem Row.trim_eq (h : Row parts row) (ht : ∀ p ∈ parts, Tidy p) : trim row = row := by
  obtain rfl | hne := eq_or_ne parts []
  · cases h
    rfl
  · exact trim_eq_self_iff.mpr (h.tidy hne ht).2

theorem Spread.trim_eq (h : Spread parts line) (ht : ∀ p ∈ parts, Tidy p) : Row parts (trim line) := by
  obtain ⟨before, row, after, hbefore, hrow, hafter, rfl⟩ := h
  rwa [trim_pad hbefore row hafter, hrow.trim_eq ht]

/-! ## The first blank -/

theorem splitAtBlank?_append (h : Solid word) (hne : bs ≠ []) (hbs : Blank bs) (rest : List Char) :
    splitAtBlank? (word ++ bs ++ rest) = some (word, bs.tail ++ rest) := by
  obtain ⟨b, bs, rfl⟩ := List.exists_cons_of_ne_nil hne
  have hb : isBlank b = true := hbs b List.mem_cons_self
  induction word with
  | nil => simp [splitAtBlank?, hb]
  | cons c word ih =>
    obtain ⟨hc, hword⟩ := List.forall_mem_cons.mp h
    simp only [List.cons_append, splitAtBlank?, hc, Bool.false_eq_true, ↓reduceIte, ih hword,
      Option.map_some]

theorem splitAtBlank?_eq_some (h : splitAtBlank? cs = some (word, rest)) :
    Solid word ∧ ∃ b, isBlank b = true ∧ cs = word ++ b :: rest := by
  induction cs generalizing word with
  | nil => cases h
  | cons c cs ih =>
    rw [splitAtBlank?] at h
    split at h
    next hc =>
      cases h
      exact ⟨List.forall_mem_nil _, c, hc, rfl⟩
    next hc =>
      obtain ⟨⟨word', rest'⟩, hsplit, heq⟩ := Option.map_eq_some_iff.mp h
      cases heq
      obtain ⟨hword, b, hb, rfl⟩ := ih hsplit
      exact ⟨List.forall_mem_cons.mpr ⟨Bool.eq_false_iff.mpr hc, hword⟩, b, hb, rfl⟩

/-- A row is cut behind its first part, if this has no blanks and is not the only one. -/
theorem Row.split (h : Row (word :: parts) row) (hword : Solid word) (hne : parts ≠ [])
    (ht : ∀ p ∈ parts, Tidy p) :
    ∃ rest, splitAtBlank? row = some (word, rest) ∧ Row parts (trim rest) := by
  cases h with
  | last => exact absurd rfl hne
  | @cons _ blanks row' _ hblanks hb _ hrow =>
    refine ⟨blanks.tail ++ row', splitAtBlank?_append hword hblanks hb row', ?_⟩
    have htail : Blank blanks.tail := fun b hmem => hb b (List.mem_of_mem_tail hmem)
    have htrim := trim_pad htail row' (List.forall_mem_nil _)
    rw [List.append_nil] at htrim
    rwa [htrim, hrow.trim_eq ht]

end Monitor386.Text
