import Mathlib
import Monitor386.Cpu
import Monitor386.Proofs.Text.Fitting

/-!
# Filling a buffer

A buffer takes a character entirely or not at all. Adding the characters of a text one by one, up to the first
that does not fit, leaves the longest start of the text that fits (`LongestStart`): the cut is between two
characters, and none behind it is taken instead.

* `pushAll_empty`: what fills a buffer are the characters added to an empty one.
* `text_fill_iff`: what is in a buffer that a text was put into.
* `Cpu.printAssembly_longest`: the same for the disassembly.
-/

namespace Monitor386

namespace Text

variable {cs start : List Char} {n capacity : Nat}

/-! ## Characters one by one -/

namespace Bounded

/-- Adds a character, if it fits. -/
def push? (b : Bounded capacity) (c : Char) : Option (Bounded capacity) :=
  ofChars? (b.chars ++ [c])

/-- Adds the characters of a text up to the first that does not fit. -/
def pushAll (b : Bounded capacity) : List Char → Bounded capacity
  | [] => b
  | c :: cs =>
    match b.push? c with
    | some b => b.pushAll cs
    | none => b

/-- A character is added to what is there, if the bytes that are left hold it. -/
theorem push?_cases (b : Bounded capacity) (c : Char) :
    (∃ b', b.push? c = some b' ∧ b'.chars = b.chars ++ [c] ∧
      byteSize b.chars + c.utf8Size ≤ capacity) ∨
    (b.push? c = none ∧ capacity < byteSize b.chars + c.utf8Size) := by
  have hsize : byteSize (b.chars ++ [c]) = byteSize b.chars + c.utf8Size := byteSize_append _ _
  unfold push? ofChars?
  split
  · rename_i hfits
    exact .inl ⟨_, rfl, rfl, by omega⟩
  · exact .inr ⟨rfl, by omega⟩

theorem chars_pushAll (b : Bounded capacity) (cs : List Char) :
    (b.pushAll cs).chars = b.chars ++ takeBytes (capacity - byteSize b.chars) cs := by
  induction cs generalizing b with
  | nil => simp [pushAll, takeBytes]
  | cons c cs ih =>
    obtain ⟨b', hpush, hchars, hfits⟩ | ⟨hpush, hfull⟩ := b.push?_cases c
    · have hleft : capacity - byteSize b'.chars = capacity - byteSize b.chars - c.utf8Size := by
        rw [hchars, byteSize_append, byteSize_cons, byteSize_nil]
        omega
      simp only [pushAll, hpush]
      rw [ih, hleft, hchars, takeBytes, if_pos (by omega), List.append_assoc]
      rfl
    · have hroom := b.byteSize_le
      simp only [pushAll, hpush]
      rw [takeBytes, if_neg (by omega), List.append_nil]

/-- A buffer is filled by clearing it and adding one character after the other. -/
theorem pushAll_empty (cs : List Char) : (empty : Bounded capacity).pushAll cs = fill cs := by
  have hchars : ((empty : Bounded capacity).pushAll cs).chars = (fill cs : Bounded capacity).chars := by
    rw [chars_pushAll]
    rfl
  cases h : (empty : Bounded capacity).pushAll cs
  rw [h] at hchars
  subst hchars
  rfl

end Bounded

/-! ## The longest start -/

/-- A start of the text that fits is a start of what is taken. -/
theorem start_takeBytes (hstart : start <+: cs) (hfits : byteSize start ≤ n) :
    start <+: takeBytes n cs := by
  induction cs generalizing start n with
  | nil => exact hstart
  | cons c cs ih =>
    cases start with
    | nil => exact List.nil_prefix
    | cons d start =>
      obtain ⟨rfl, hrest⟩ := List.cons_prefix_cons.mp hstart
      rw [byteSize_cons] at hfits
      rw [takeBytes, if_pos (by omega)]
      exact List.cons_prefix_cons.mpr ⟨rfl, ih hrest (by omega)⟩

/-- The part of a text that is kept is the longest start of whole characters in at most `n` bytes. -/
structure LongestStart (n : Nat) (text kept : String) : Prop where
  start : ∃ rest, text = kept ++ rest
  fits : kept.utf8ByteSize ≤ n
  longest : ∀ start rest, text = start ++ rest → start.utf8ByteSize ≤ n → ∃ more, kept = start ++ more

theorem exists_append_iff {text start : String} :
    (∃ rest, text = start ++ rest) ↔ start.toList <+: text.toList := by
  constructor
  · rintro ⟨rest, rfl⟩
    rw [String.toList_append]
    exact List.prefix_append _ _
  · rintro ⟨rest, hrest⟩
    refine ⟨String.ofList rest, String.toList_inj.mp ?_⟩
    rw [String.toList_append, String.toList_ofList, hrest]

theorem LongestStart.unique {text kept kept' : String} (h : LongestStart n text kept)
    (h' : LongestStart n text kept') : kept = kept' := by
  obtain ⟨rest, hrest⟩ := h.start
  obtain ⟨rest', hrest'⟩ := h'.start
  have hle := exists_append_iff.mp (h'.longest kept rest hrest h.fits)
  have hge := exists_append_iff.mp (h.longest kept' rest' hrest' h'.fits)
  exact String.toList_inj.mp (hle.eq_of_length (le_antisymm hle.length_le hge.length_le))

theorem utf8ByteSize_toList (s : String) : s.utf8ByteSize = byteSize s.toList := by
  rw [← utf8ByteSize_eq, String.ofList_toList]

theorem longestStart_fill (text : String) :
    LongestStart capacity text (Bounded.fill text.toList : Bounded capacity).text := by
  refine ⟨exists_append_iff.mpr ?_, ?_, fun start rest htext hfits => exists_append_iff.mpr ?_⟩
  · rw [Bounded.text, String.toList_ofList]
    exact takeBytes_start _ _
  · rw [Bounded.text, utf8ByteSize_eq]
    exact Bounded.byteSize_le _
  · rw [utf8ByteSize_toList] at hfits
    rw [Bounded.text, String.toList_ofList]
    exact start_takeBytes (exists_append_iff.mp ⟨rest, htext⟩) hfits

theorem text_fill_iff {text kept : String} :
    (Bounded.fill text.toList : Bounded capacity).text = kept ↔ LongestStart capacity text kept :=
  ⟨fun h => h ▸ longestStart_fill text, (longestStart_fill text).unique⟩

/-- The first character that is not kept does not fit. -/
theorem LongestStart.full {text kept rest : String} {next : Char} (h : LongestStart n text kept)
    (htext : text = kept.push next ++ rest) : n < kept.utf8ByteSize + next.utf8Size := by
  by_contra! hfits
  have hlonger := h.longest (kept.push next) rest htext (by rwa [String.utf8ByteSize_push])
  have hlength := (exists_append_iff.mp hlonger).length_le
  simp at hlength

theorem LongestStart.of_fits {text : String} (h : text.utf8ByteSize ≤ n) : LongestStart n text text where
  start := ⟨"", by simp⟩
  fits := h
  longest := fun _ rest htext _ => ⟨rest, htext⟩

end Text

open Text

/-- Whatever the buffer held, the disassembly is the longest start of the text, in whole characters, that takes
at most 80 bytes. A text of at most 80 bytes is the disassembly. The first character that is missing does not
fit behind those before it, and no later one is there in its place. This is what is in the buffer after it was
cleared and the characters of the text were added up to the first that does not fit. -/
theorem Cpu.printAssembly_longest (c : Cpu) (text : String) :
    let kept := (c.printAssembly text).assembly
    (∀ s, kept.text = s ↔ LongestStart 80 text s) ∧
    (text.utf8ByteSize ≤ 80 → kept.text = text) ∧
    (∀ next rest, text = kept.text.push next ++ rest → 80 < kept.text.utf8ByteSize + next.utf8Size) ∧
    kept = Bounded.empty.pushAll text.toList := by
  intro kept
  have hlongest : LongestStart 80 text kept.text := longestStart_fill text
  refine ⟨fun s => text_fill_iff, fun hfits => ?_, fun next rest htext => hlongest.full htext,
    (Bounded.pushAll_empty _).symm⟩
  exact hlongest.unique (.of_fits hfits)

/-- Behind 79 narrow characters a wide one does not fit, and the narrow one behind it is not taken. -/
theorem Cpu.printAssembly_longest_wide :
    let c : Cpu := { memory := ⟨0, .empty⟩, assembly := .fill "nop".toList }
    let row := String.ofList (List.replicate 79 'x')
    (c.printAssembly (row ++ "éy")).assembly.text = row ∧ LongestStart 80 (row ++ "éy") row ∧
    80 < row.utf8ByteSize + 'é'.utf8Size ∧ (c.printAssembly "ret").assembly.text = "ret" := by
  intro c row
  have hrow : (c.printAssembly (row ++ "éy")).assembly.text = row := by decide +kernel
  obtain ⟨hlongest, -, hnext, -⟩ := c.printAssembly_longest (row ++ "éy")
  have hfull := hnext 'é' "y" (by rw [hrow]; decide +kernel)
  rw [hrow] at hfull
  exact ⟨hrow, (hlongest row).mp hrow, hfull, (c.printAssembly_longest "ret").2.1 (by decide)⟩

end Monitor386
