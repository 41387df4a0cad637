import Mathlib
import Monitor386.Proofs.Failure
import Monitor386.Proofs.Text.Digits
import Monitor386.Proofs.Text.Spacing
import Monitor386.Shell.Command

/-!
# Reading command lines

A command is `Normal` if its arguments are as the parser leaves them, and `Command.parts` shows how it
is written, word by word.

* `count?_toDigits`: a number that is written in decimal is read back.
* `words_spread`: the word and the arguments of a line whose parts are known.
* `Command.parse_spread`: a normal command is read back from any line that shows its parts.
* `normal_of_parse`: conversely, all commands that are read are normal.
* `parse_exact`: both directions, with the lines that are no command.
-/

namespace Monitor386.Shell

/-! ## Numbers -/

theorem count?_toDigits {n : Nat} (h : n < UInt64.size) :
    Text.count? (Nat.toDigits 10 n) = some n := by
  have hdigits : ∀ d ∈ Nat.toDigits 10 n, d.isDigit = true :=
    fun d hd => Nat.isDigit_of_mem_toDigits (by decide) (by decide) hd
  have hplus : (Nat.toDigits 10 n).head? ≠ some '+' := fun hhead =>
    absurd (hdigits '+' (List.mem_of_mem_head? hhead)) (by decide)
  have hvalue : Text.value 10 (Nat.toDigits 10 n) = n := Text.value_toDigits (by decide) (by decide) n
  have hall : (Nat.toDigits 10 n).all Char.isDigit = true := List.all_eq_true.mpr hdigits
  simp only [Text.count?, hplus, ↓reduceIte, hvalue, ne_eq, Nat.toDigits_ne_nil, not_false_eq_true,
    hall, h, and_self]

/-! ## Commands and their parts -/

namespace Command

/-- The arguments of a command as the parser leaves them. -/
def Normal : Command → Prop
  | help none | resume | quit | infoRegisters | infoWatchpoints => True
  | help (some topic) => Text.Tidy topic
  | step n => 1 ≤ n ∧ n < UInt64.size
  | print expr | watch expr => Text.Tidy expr
  | examine n expr => n < UInt64.size ∧ Text.Tidy expr
  | delete n => n < UInt64.size
  | set register expr =>
    Text.Solid register ∧ register.head? ≠ some '$' ∧ Text.Tidy expr

/-- The word of a command. -/
def verb : Command → Verb
  | help _ => .help
  | resume => .resume
  | quit => .quit
  | step _ => .step
  | infoRegisters | infoWatchpoints => .info
  | print _ => .print
  | examine .. => .examine
  | watch _ => .watch
  | delete _ => .delete
  | set .. => .set

/-- The arguments as they are written, with some dollar signs before the name of a register. -/
def args (dollars : Nat) : Command → List (List Char)
  | help none | resume | quit => []
  | help (some topic) => [topic]
  | step n | delete n => [Nat.toDigits 10 n]
  | infoRegisters => ["r".toList]
  | infoWatchpoints => ["w".toList]
  | print expr | watch expr => [expr]
  | examine n expr => [Nat.toDigits 10 n, expr]
  | set register expr => [List.replicate dollars '$' ++ register, expr]

/-- The parts of a command as it is written. -/
def parts (dollars : Nat) (c : Command) : List (List Char) :=
  c.verb.word.toList :: c.args dollars

end Command

/-! ## Words -/

variable {line word args row : List Char} {parts : List (List Char)}

/-- The word of a line is its first part, and the arguments are the others. -/
theorem words_spread (h : Text.Spread (word :: parts) line) (hword : Text.Solid word) (hne : word ≠ [])
    (ht : ∀ p ∈ parts, Text.Tidy p) : ∃ row, words line = (word, row) ∧ Text.Row parts row := by
  have hrow := h.trim_eq (List.forall_mem_cons.mpr ⟨hword.tidy hne, ht⟩)
  obtain rfl | hparts := eq_or_ne parts []
  · rw [words, Text.row_single_iff.mp hrow, Text.splitAtBlank?_eq_none_iff.mpr hword]
    exact ⟨[], rfl, .nil⟩
  · obtain ⟨rest, hsplit, hrest⟩ := hrow.split hword hparts ht
    exact ⟨_, by rw [words, hsplit], hrest⟩

/-! ## From a command to a line and back -/

section

variable {dollars n : Nat} {register expr : List Char} {c : Command}

theorem number_toDigits (h : n < UInt64.size) : number (Nat.toDigits 10 n) = .ok n := by
  rw [number, count?_toDigits h]

theorem solid_toDigits (n : Nat) : Text.Solid (Nat.toDigits 10 n) := fun _ hd =>
  Text.not_blank_of_isDigit (Nat.isDigit_of_mem_toDigits (by decide) (by decide) hd)

theorem requiredTwo_row (h : Text.Row [word, expr] row) (hword : Text.Solid word)
    (hexpr : Text.Tidy expr) (verb : Verb) : requiredTwo verb row = .ok (word, expr) := by
  obtain ⟨rest, hsplit, hrest⟩ :=
    h.split hword (List.cons_ne_nil _ _) (List.forall_mem_singleton.mpr hexpr)
  rw [← Text.row_single_iff.mp hrest, requiredTwo, hsplit]

theorem solid_dollars (h : Text.Solid register) (dollars : Nat) :
    Text.Solid (List.replicate dollars '$' ++ register) := by
  refine List.forall_mem_append.mpr ⟨fun c hc => ?_, h⟩
  rw [List.eq_of_mem_replicate hc]
  decide

theorem dropWhile_dollars (h : register.head? ≠ some '$') (dollars : Nat) :
    (List.replicate dollars '$' ++ register).dropWhile (· = '$') = register := by
  rw [List.dropWhile_append_of_pos fun c hc => by simp [List.eq_of_mem_replicate hc]]
  cases register with
  | nil => rfl
  | cons c register => exact List.dropWhile_cons_of_neg (by simpa using h)

/-- A register is written by a name, a dollar sign or both. -/
def Command.Writable (dollars : Nat) : Command → Prop
  | set register _ => register ≠ [] ∨ 0 < dollars
  | _ => True

theorem Command.Normal.tidy_args (hc : c.Normal) (hw : c.Writable dollars) :
    ∀ a ∈ c.args dollars, Text.Tidy a := by
  have hdigits : ∀ n, Text.Tidy (Nat.toDigits 10 n) := fun n =>
    (solid_toDigits n).tidy Nat.toDigits_ne_nil
  cases c with
  | help topic =>
    cases topic with
    | none => exact List.forall_mem_nil _
    | some topic => exact List.forall_mem_singleton.mpr hc
  | resume | quit => exact List.forall_mem_nil _
  | step n | delete n => exact List.forall_mem_singleton.mpr (hdigits n)
  | infoRegisters | infoWatchpoints => exact List.forall_mem_singleton.mpr (by decide)
  | print expr | watch expr => exact List.forall_mem_singleton.mpr hc
  | examine n expr =>
    exact List.forall_mem_cons.mpr ⟨hdigits n, List.forall_mem_singleton.mpr hc.2⟩
  | set register expr =>
    obtain ⟨hsolid, -, hexpr⟩ := hc
    have hne : List.replicate dollars '$' ++ register ≠ [] := by
      obtain hne | hpos := hw
      · exact List.append_ne_nil_of_right_ne_nil _ hne
      · exact List.append_ne_nil_of_left_ne_nil (by simpa using hpos.ne') _
    exact List.forall_mem_cons.mpr
      ⟨(solid_dollars hsolid dollars).tidy hne, List.forall_mem_singleton.mpr hexpr⟩

theorem Command.Normal.command_eq (hc : c.Normal) (h : Text.Row (c.args dollars) row) :
    c.verb.command row = .ok c := by
  cases c with
  | help topic =>
    cases topic with
    | none => rw [Text.row_nil_iff.mp h]; rfl
    | some topic =>
      rw [Text.row_single_iff.mp h]
      exact congrArg (fun t => Except.ok (Command.help t)) (if_neg hc.1)
  | resume | quit => rfl
  | step n =>
    obtain ⟨hpos, hlt⟩ := hc
    rw [Text.row_single_iff.mp h, verb, Verb.command, if_neg Nat.toDigits_ne_nil, number_toDigits hlt]
    -- a normal count is not zero, so it is not raised to one
    exact congrArg (fun n => Except.ok (Command.step n)) (Nat.max_eq_left hpos)
  | infoRegisters | infoWatchpoints => rw [Text.row_single_iff.mp h]; rfl
  | print expr | watch expr =>
    rw [Text.row_single_iff.mp h, verb, Verb.command, required, if_neg hc.1]
    rfl
  | examine n expr =>
    rw [verb, Verb.command, requiredTwo_row h (solid_toDigits n) hc.2]
    simp only [bind, Except.bind, number_toDigits hc.1]
    rfl
  | delete n =>
    rw [Text.row_single_iff.mp h, verb, Verb.command, required, if_neg Nat.toDigits_ne_nil]
    simp only [bind, Except.bind, number_toDigits hc]
    rfl
  | set register expr =>
    obtain ⟨hsolid, hhead, hexpr⟩ := hc
    rw [verb, Verb.command, requiredTwo_row h (solid_dollars hsolid dollars) hexpr]
    simp only [bind, Except.bind, dropWhile_dollars hhead]
    rfl

theorem Verb.ofChars?_word (v : Verb) : Verb.ofChars? v.word.toList = some v := by
  cases v <;> decide

theorem Verb.solid_word (v : Verb) : Text.Solid v.word.toList ∧ v.word.toList ≠ [] := by
  cases v <;> decide

/-- A normal command is read back from any line that shows its parts. -/
theorem Command.Normal.parse_spread (hc : c.Normal) (hw : c.Writable dollars)
    (h : Text.Spread (c.parts dollars) line) : parse line = .ok (some c) := by
  obtain ⟨hsolid, hne⟩ := c.verb.solid_word
  obtain ⟨row, hwords, hrow⟩ := words_spread h hsolid hne (hc.tidy_args hw)
  simp only [parse, hwords, hne, ↓reduceIte, Verb.ofChars?_word, hc.command_eq hrow]
  rfl

end

/-! ## What is read -/

section

variable {verb : Verb} {c : Command} {e : CommandError} {expr rest : List Char}

theorem number_lt {arg : List Char} {n : Nat} (h : number arg = .ok n) : n < UInt64.size := by
  unfold number at h
  split at h
  next n' hn =>
    cases h
    rw [Text.count?] at hn
    simp only [Option.ite_none_right_eq_some, Option.some.injEq] at hn
    obtain ⟨⟨-, -, hlt⟩, rfl⟩ := hn
    exact hlt
  next => cases h

theorem number_error {arg : List Char} (h : number arg = .error e) : e = .badNumber arg := by
  unfold number at h
  split at h <;> cases h
  rfl

theorem required_eq_ok {expr : List Char} (h : required verb args = .ok expr)
    (hargs : Text.Trimmed args) : Text.Tidy expr := by
  unfold required at h
  split_ifs at h with hne
  cases h
  exact ⟨hne, hargs⟩

theorem required_error (h : required verb args = .error e) : e = .usage verb := by
  unfold required at h
  split_ifs at h
  cases h
  rfl

/-- The rest of a line without blanks at its end is not blank. -/
theorem not_blank_of_split (h : Text.splitAtBlank? args = some (word, rest))
    (hargs : Text.Trimmed args) : ¬ Text.Blank rest := by
  intro hrest
  obtain ⟨-, b, hb, rfl⟩ := Text.splitAtBlank?_eq_some h
  have hall : Text.Blank (b :: rest) := List.forall_mem_cons.mpr ⟨hb, hrest⟩
  have hne := List.cons_ne_nil b rest
  have hlast : (b :: rest).getLast hne ∈ (word ++ b :: rest).getLast? := by
    rw [List.getLast?_append_of_ne_nil _ hne, List.getLast?_eq_some_getLast hne]
    rfl
  have hblank := hall _ (List.getLast_mem hne)
  rw [hargs.2 _ hlast] at hblank
  cases hblank

theorem requiredTwo_eq_ok (h : requiredTwo verb args = .ok (word, expr))
    (hargs : Text.Trimmed args) : Text.Solid word ∧ Text.Tidy expr := by
  unfold requiredTwo at h
  split at h
  next first rest hsplit =>
    cases h
    exact ⟨(Text.splitAtBlank?_eq_some hsplit).1, Text.tidy_trim (not_blank_of_split hsplit hargs)⟩
  next => cases h

theorem requiredTwo_error (h : requiredTwo verb args = .error e) : e = .usage verb := by
  unfold requiredTwo at h
  split at h <;> cases h
  rfl

theorem head?_dropWhile_dollars (register : List Char) :
    (register.dropWhile (· = '$')).head? ≠ some '$' := by
  intro hhead
  have hnot := List.head?_dropWhile_not (· = '$') register
  rw [hhead] at hnot
  simp at hnot

/-- The command of tidy arguments is normal. -/
theorem normal_of_command (h : verb.command args = .ok c) (hargs : Text.Trimmed args) : c.Normal := by
  -- each verb makes its command from one argument, from two, or from none
  cases verb with
  | help =>
    obtain rfl := Except.ok.inj h
    split_ifs with hne
    · trivial
    · exact ⟨hne, hargs⟩
  | resume | quit =>
    cases h
    trivial
  | step =>
    rw [Verb.command] at h
    split_ifs at h
    · cases h
      exact ⟨le_rfl, by decide⟩
    · obtain ⟨n, hn, h⟩ := bind_eq_ok.mp h
      cases h
      -- a count of zero steps is made one
      exact ⟨le_max_right n 1, max_lt (number_lt hn) (by decide)⟩
  | info =>
    rw [Verb.command] at h
    split_ifs at h <;> cases h <;> trivial
  | print | watch =>
    obtain ⟨expr, hexpr, h⟩ := bind_eq_ok.mp h
    cases h
    exact required_eq_ok hexpr hargs
  | delete =>
    obtain ⟨arg, -, h⟩ := bind_eq_ok.mp h
    obtain ⟨n, hn, h⟩ := bind_eq_ok.mp h
    cases h
    exact number_lt hn
  | examine =>
    obtain ⟨⟨word, expr⟩, htwo, h⟩ := bind_eq_ok.mp h
    obtain ⟨n, hn, h⟩ := bind_eq_ok.mp h
    cases h
    exact ⟨number_lt hn, (requiredTwo_eq_ok htwo hargs).2⟩
  | set =>
    obtain ⟨⟨word, expr⟩, htwo, h⟩ := bind_eq_ok.mp h
    cases h
    obtain ⟨hword, hexpr⟩ := requiredTwo_eq_ok htwo hargs
    exact ⟨fun c hc => hword c ((List.dropWhile_sublist _).mem hc), head?_dropWhile_dollars word, hexpr⟩

/-! ## The word of a line -/

/-- The first word of a line: it has a character and no blanks, and ends at a blank or with the line. -/
def FirstWord (line word : List Char) : Prop :=
  ∃ before rest, Text.Blank before ∧ word ≠ [] ∧ Text.Solid word ∧ Text.AtBlank rest ∧
    line = before ++ word ++ rest

theorem words_of_split (h : Text.splitAtBlank? (Text.trim line) = some (word, rest)) :
    words line = (word, Text.trim rest) := by
  rw [words, h]

theorem words_of_not_split (h : Text.splitAtBlank? (Text.trim line) = none) :
    words line = (Text.trim line, []) := by
  rw [words, h]

theorem FirstWord.words_eq (h : FirstWord line word) : (words line).1 = word := by
  obtain ⟨before, rest, hbefore, hne, hword, hrest, rfl⟩ := h
  by_cases hblank : Text.Blank rest
  · have hspread : Text.Spread [word] (before ++ word ++ rest) :=
      ⟨before, word, rest, hbefore, .last word, hblank, rfl⟩
    obtain ⟨row, hwords, -⟩ := words_spread hspread hword hne (List.forall_mem_nil _)
    rw [hwords]
  · -- what comes after the word is blanks and then the other words
    obtain ⟨bs, bs', hbs, hbs', heq⟩ := Text.exists_pad rest
    have htidy := Text.tidy_trim hblank
    have hbs_ne : bs ≠ [] := by
      rintro rfl
      obtain ⟨c, cs, hcs⟩ := List.exists_cons_of_ne_nil htidy.1
      have hhead : c ∈ rest.head? := by rw [heq, hcs]; rfl
      have hblank := hrest c hhead
      rw [htidy.2.1 c (by rw [hcs]; rfl)] at hblank
      cases hblank
    have hspread : Text.Spread [word, Text.trim rest] (before ++ word ++ rest) :=
      ⟨before, word ++ bs ++ Text.trim rest, bs', hbefore,
        .cons hbs_ne hbs (List.cons_ne_nil _ _) (.last _), hbs', by
          conv_lhs => rw [heq]
          simp only [List.append_assoc]⟩
    obtain ⟨row, hwords, -⟩ :=
      words_spread hspread hword hne (List.forall_mem_singleton.mpr htidy)
    rw [hwords]

theorem words_fst_eq_nil_iff : (words line).1 = [] ↔ Text.Blank line := by
  constructor
  · intro h
    by_contra hblank
    have htidy := Text.tidy_trim hblank
    cases hs : Text.splitAtBlank? (Text.trim line) with
    | none =>
      rw [words_of_not_split hs] at h
      exact htidy.1 h
    | some x =>
      obtain ⟨-, b, hb, heq⟩ := Text.splitAtBlank?_eq_some hs
      rw [words_of_split hs] at h
      rw [h, List.nil_append] at heq
      have hhead := htidy.2.1 b (by rw [heq]; rfl)
      rw [hb] at hhead
      cases hhead
  · intro h
    rw [words_of_not_split (by rw [Text.trim_eq_nil_iff.mpr h]; rfl)]
    exact Text.trim_eq_nil_iff.mpr h

theorem firstWord_of_words (h : (words line).1 ≠ []) : FirstWord line (words line).1 := by
  obtain ⟨bs, bs', hbs, hbs', heq⟩ := Text.exists_pad line
  cases hs : Text.splitAtBlank? (Text.trim line) with
  | none =>
    rw [words_of_not_split hs] at h ⊢
    exact ⟨bs, bs', hbs, h, Text.splitAtBlank?_eq_none_iff.mp hs, hbs'.atBlank, heq⟩
  | some x =>
    obtain ⟨hword, b, hb, htrim⟩ := Text.splitAtBlank?_eq_some hs
    rw [words_of_split hs] at h ⊢
    refine ⟨bs, b :: x.2 ++ bs', hbs, h, hword, fun c hc => ?_, ?_⟩
    · cases hc
      exact hb
    · conv_lhs => rw [heq, htrim]
      simp only [List.append_assoc, List.cons_append]

theorem trimmed_words_snd (line : List Char) : Text.Trimmed (words line).2 := by
  cases hs : Text.splitAtBlank? (Text.trim line) with
  | none =>
    rw [words_of_not_split hs]
    exact (by decide : Text.Trimmed [])
  | some x =>
    rw [words_of_split hs]
    exact Text.trimmed_trim x.2

/-! ## Lines -/

/-- A line is blank, or its word is no command, or it is a command with its arguments. -/
theorem parse_cases (line : List Char) :
    (Text.Blank line ∧ parse line = .ok none) ∨
    (FirstWord line (words line).1 ∧ Verb.ofChars? (words line).1 = none ∧
      parse line = .error (.unknown (words line).1)) ∨
    ∃ verb, FirstWord line (words line).1 ∧ Verb.ofChars? (words line).1 = some verb ∧
      parse line = (verb.command (words line).2).map some := by
  by_cases hnil : (words line).1 = []
  · exact .inl ⟨words_fst_eq_nil_iff.mp hnil, by rw [parse]; exact if_pos hnil⟩
  have hfirst := firstWord_of_words hnil
  refine .inr ?_
  cases hverb : Verb.ofChars? (words line).1 with
  | none =>
    refine .inl ⟨hfirst, rfl, ?_⟩
    simp only [parse, hnil, ↓reduceIte, hverb]
  | some verb =>
    refine .inr ⟨verb, hfirst, rfl, ?_⟩
    simp only [parse, hnil, ↓reduceIte, hverb]

theorem parse_pad {bs bs' : List Char} (h : Text.Blank bs) (h' : Text.Blank bs')
    (line : List Char) : parse (bs ++ line ++ bs') = parse line := by
  rw [parse, parse, words, words, Text.trim_pad h line h']

theorem ofChars?_eq_none_iff :
    Verb.ofChars? word = none ↔
      word ∉ ["help", "c", "q", "si", "info", "p", "x", "w", "d", "set"].map String.toList := by
  have hwords : ["help", "c", "q", "si", "info", "p", "x", "w", "d", "set"].map String.toList =
      Verb.all.map fun v => v.word.toList := rfl
  rw [Verb.ofChars?, List.find?_eq_none, hwords]
  simp only [decide_eq_true_eq, List.mem_map, not_exists, not_and]

/-- What can be wrong with the arguments of a command. -/
theorem command_error (h : verb.command args = .error e) :
    e = .usage verb ∨ ∃ arg, e = .badNumber arg := by
  -- an argument that is missing is an error of usage, and one that is no number is reported
  cases verb with
  | help | resume | quit => cases h
  | step =>
    rw [Verb.command] at h
    split_ifs at h
    obtain h | ⟨_, -, h⟩ := bind_eq_error.mp h
    · exact .inr ⟨_, number_error h⟩
    · cases h
  | info =>
    rw [Verb.command] at h
    split_ifs at h
    cases h
    exact .inl rfl
  | print | watch =>
    obtain h | ⟨_, -, h⟩ := bind_eq_error.mp h
    · exact .inl (required_error h)
    · cases h
  | delete =>
    obtain h | ⟨_, -, h⟩ := bind_eq_error.mp h
    · exact .inl (required_error h)
    · obtain h | ⟨_, -, h⟩ := bind_eq_error.mp h
      · exact .inr ⟨_, number_error h⟩
      · cases h
  | examine =>
    obtain h | ⟨_, -, h⟩ := bind_eq_error.mp h
    · exact .inl (requiredTwo_error h)
    · obtain h | ⟨_, -, h⟩ := bind_eq_error.mp h
      · exact .inr ⟨_, number_error h⟩
      · cases h
  | set =>
    obtain h | ⟨_, -, h⟩ := bind_eq_error.mp h
    · exact .inl (requiredTwo_error h)
    · cases h

theorem normal_of_parse (h : parse line = .ok (some c)) : c.Normal := by
  obtain ⟨-, hp⟩ | ⟨-, -, hp⟩ | ⟨verb, -, -, hp⟩ := parse_cases line
  · cases h.symm.trans hp
  · cases h.symm.trans hp
  · rw [hp] at h
    cases hcommand : verb.command (words line).2 with
    | error e =>
      rw [hcommand] at h
      cases h
    | ok c' =>
      rw [hcommand] at h
      cases h
      exact normal_of_command hcommand (trimmed_words_snd line)

theorem parse_eq_none_iff : parse line = .ok none ↔ Text.Blank line := by
  refine ⟨fun h => ?_, fun h => if_pos (words_fst_eq_nil_iff.mpr h)⟩
  obtain ⟨hblank, -⟩ | ⟨-, -, hp⟩ | ⟨verb, -, -, hp⟩ := parse_cases line
  · exact hblank
  · cases h.symm.trans hp
  · rw [hp] at h
    cases hcommand : verb.command (words line).2 <;> rw [hcommand] at h <;> cases h

theorem parse_eq_unknown_iff :
    parse line = .error (.unknown word) ↔ FirstWord line word ∧ Verb.ofChars? word = none := by
  obtain ⟨hblank, hp⟩ | ⟨hfirst, hnone, hp⟩ | ⟨verb, hfirst, hsome, hp⟩ := parse_cases line
  -- a blank line has no first word
  · rw [hp]
    refine ⟨nofun, fun h => ?_⟩
    have hne := h.1.words_eq
    rw [words_fst_eq_nil_iff.mpr hblank] at hne
    obtain ⟨-, -, -, hword, -⟩ := h.1
    exact absurd hne.symm hword
  · rw [hp]
    constructor
    · intro h
      cases h
      exact ⟨hfirst, hnone⟩
    · rintro ⟨h, -⟩
      rw [h.words_eq]
  · rw [hp]
    constructor
    · intro h
      cases hcommand : verb.command (words line).2 with
      | error e =>
        rw [hcommand] at h
        cases h
        obtain he | ⟨arg, he⟩ := command_error hcommand <;> cases he
      | ok c =>
        rw [hcommand] at h
        cases h
    · rintro ⟨h, hnone⟩
      rw [h.words_eq, hnone] at hsome
      cases hsome

/-- How command lines are read. A command whose arguments are in normal form is read back from any line
that shows its parts, with blanks between them and around them. What is read is in this form. Blank
lines are no command, and other lines have an unknown word or are read or refused for their arguments.
Blanks around a line make no difference. -/
theorem parse_exact :
    (∀ (c : Command) dollars line, c.Normal → c.Writable dollars →
      Text.Spread (c.parts dollars) line → parse line = .ok (some c)) ∧
    (∀ line c, parse line = .ok (some c) → c.Normal) ∧
    (∀ line, parse line = .ok none ↔ Text.Blank line) ∧
    (∀ line word, parse line = .error (.unknown word) ↔
      FirstWord line word ∧
        word ∉ ["help", "c", "q", "si", "info", "p", "x", "w", "d", "set"].map String.toList) ∧
    ∀ before line after, Text.Blank before → Text.Blank after →
      parse (before ++ line ++ after) = parse line := by
  refine ⟨fun c dollars line hc hw h => hc.parse_spread hw h, fun line c h => normal_of_parse h,
    fun line => parse_eq_none_iff, fun line word => ?_,
    fun before line after h h' => parse_pad h h' line⟩
  rw [← ofChars?_eq_none_iff, parse_eq_unknown_iff]

/-- Blanks of three kinds around ten steps, two dollar signs and a carriage return at the end of the
line; a line with an unknown word; and a line of blanks. -/
theorem parse_exact_blanks :
    let step : List Char := "\u3000si\t10 ".toList
    let set : List Char := "set $$eax\u2003$ebx + 1".toList
    parse step = .ok (some (.step 10)) ∧
    parse (set ++ ['\r']) = .ok (some (.set "eax".toList "$ebx + 1".toList)) ∧
    parse " step 1".toList = .error (.unknown "step".toList) ∧
    parse "\u3000\t".toList = .ok none := by
  intro step set
  obtain ⟨hback, -, hblank, hunknown, hpad⟩ := parse_exact
  have hstep : Text.Row ["si".toList, "10".toList] ("si".toList ++ "\t".toList ++ "10".toList) :=
    .cons (by decide) (by decide) (by decide) (.last _)
  have hregister : Text.Row ["$$eax".toList, "$ebx + 1".toList]
      ("$$eax".toList ++ "\u2003".toList ++ "$ebx + 1".toList) :=
    .cons (by decide) (by decide) (by decide) (.last _)
  have hset : Text.Row ["set".toList, "$$eax".toList, "$ebx + 1".toList]
      ("set".toList ++ " ".toList ++ "$$eax\u2003$ebx + 1".toList) :=
    .cons (by decide) (by decide) (by decide) hregister
  refine ⟨?_, ?_, ?_, (hblank _).mpr (by decide)⟩
  · exact hback (.step 10) 0 step ⟨by decide, by decide⟩ trivial
      ⟨"\u3000".toList, _, " ".toList, by decide, hstep, by decide, rfl⟩
  · rw [← List.nil_append set, hpad [] set ['\r'] (by decide) (by decide)]
    exact hback (.set "eax".toList "$ebx + 1".toList) 2 set ⟨by decide, by decide, by decide⟩
      (.inl (by decide)) ⟨[], _, [], by decide, hset, by decide, rfl⟩
  · exact (hunknown _ _).mpr
      ⟨⟨" ".toList, " 1".toList, by decide, by decide, by decide, by decide, rfl⟩, by decide⟩

end

end Monitor386.Shell
