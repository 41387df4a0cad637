import Mathlib
import Monitor386.Proofs.Expr.Literals
import Monitor386.Proofs.Failure
import Monitor386.Proofs.Shell.Logging

/-!
# Values that are printed and read back

* `answer_of_print`: the monitor prints a value as two numerals for it.
* `print_round_trip`: both have the value that was printed, as all numerals for it have.
-/

namespace Monitor386

namespace Shell

variable {τ : Type} [InstructionTable τ]

/-- What is printed for a value. -/
theorem answer_of_print {s : Session τ} {line e : List Char} {v : UInt32} (patience : Nat)
    (hparse : parse line = .ok (some (.print e))) (hv : s.machine.eval e = .ok v) :
    ∃ s', answer patience s line =
        .ok ([Text.hexWord v ++ "  " ++ String.ofList (Nat.toDigits 10 v.toNat)], true, s') ∧
      s'.machine = s.machine := by
  refine ⟨{ s with log := s.log.addTexts .debug (Expr.records e) }, ?_, rfl⟩
  rw [answer, hparse]
  refine bind_eq_ok.mpr ⟨_, Session.eval_of_value hv, ?_⟩
  simp only [String.append_assoc]
  rfl

/-- Numerals and what they are read as. All numerals for a word have it as their value, whatever their
leading zeros and the case of their letters are, and those of a greater number are refused as they are
written. The numerals are the texts of two rules, and each is one for one number. What is printed for a value
are two numerals for it, which have it as their value again. -/
theorem print_round_trip (ctx : Expr.Context) (patience : Nat) (s : Session τ) :
    (∀ (v : UInt32) text, Expr.Spells v.toNat text → Expr.eval ctx text = .ok v) ∧
    (∀ n text, 2 ^ 32 ≤ n → Expr.Spells n text →
      Expr.eval ctx text = .error (.badLiteral (String.ofList text))) ∧
    (∀ text, Expr.Rule.decimal.Matches text ∨ Expr.Rule.hex.Matches text ↔ ∃! n, Expr.Spells n text) ∧
    ∀ line e v, parse line = .ok (some (.print e)) → s.machine.eval e = .ok v →
      let forms := [Text.hexWord v, String.ofList (Nat.toDigits 10 v.toNat)]
      (∃ s', answer patience s line = .ok (["  ".intercalate forms], true, s') ∧
        s'.machine = s.machine) ∧
      ∀ form ∈ forms, Expr.Spells v.toNat form.toList ∧ Expr.eval ctx form.toList = .ok v := by
  have hword : ∀ (v : UInt32) text, Expr.Spells v.toNat text → Expr.eval ctx text = .ok v := by
    intro v text h
    rw [h.eval_eq, if_pos v.toNat_lt, UInt32.ofNat_toNat]
  refine ⟨hword, fun n text hn h => ?_, fun text => ?_, fun line e v hparse hv => ⟨?_, ?_⟩⟩
  · rw [h.eval_eq, if_neg hn.not_gt]
  · rw [← Expr.exists_spells_iff]
    constructor
    · rintro ⟨n, h⟩
      exact ⟨n, h, fun _ h' => h'.unique h⟩
    · exact ExistsUnique.exists
  · exact answer_of_print patience hparse hv
  · have hforms : ∀ form ∈ [Text.hexWord v, String.ofList (Nat.toDigits 10 v.toNat)],
        Expr.Numeral v form.toList := by
      simp only [List.forall_mem_cons, String.toList_ofList]
      exact ⟨Expr.numeral_hexWord v, Expr.numeral_toDigits v, List.forall_mem_nil _⟩
    exact fun form hform => ⟨(hforms form hform).spells, hword v _ (hforms form hform).spells⟩

/-- The greatest word and the number after it, with leading zeros and letters of both cases. -/
theorem print_round_trip_edge :
    let ctx : Expr.Context := ⟨fun _ => none, fun _ => none⟩
    let memory : Memory := ⟨4, .empty⟩
    let s : Session I386Table := ⟨{ cpu := ⟨.initial, memory, .empty⟩, table := {} }, ⟨none, #[]⟩⟩
    let line := "p 0-1".toList
    let e := "0-1".toList
    Expr.Spells (0xffffffff : UInt32).toNat "0X00fFfFFfff".toList ∧
    Expr.eval ctx "0X00fFfFFfff".toList = .ok 0xffffffff ∧
    Expr.Spells 4294967296 "004294967296".toList ∧
    Expr.eval ctx "004294967296".toList = .error (.badLiteral "004294967296") ∧
    Expr.Spells 4294967296 "0x0100000000".toList ∧
    Expr.eval ctx "0x0100000000".toList = .error (.badLiteral "0x0100000000") ∧
    (∃! n, Expr.Spells n "007".toList) ∧
    parse line = .ok (some (.print e)) ∧ s.machine.eval e = .ok 0xffffffff ∧
    (∃ s', answer 0 s line = .ok (["0xffffffff  4294967295"], true, s')) ∧
    Expr.eval ctx "0xffffffff".toList = .ok 0xffffffff ∧
    Expr.eval ctx "4294967295".toList = .ok 0xffffffff := by
  intro ctx memory s line e
  have hword : Expr.Spells (0xffffffff : UInt32).toNat "0X00fFfFFfff".toList := .hex 2 (.inr rfl) (by decide)
  have hdecimal : Expr.Spells 4294967296 "004294967296".toList := .decimal 2
  have hhex : Expr.Spells 4294967296 "0x0100000000".toList := .hex 1 (.inl rfl) (by decide)
  have hdigits : Expr.Run Char.isDigit "007".toList := by decide
  have hparse : parse line = .ok (some (.print e)) := eq_ok_of_toOption (by decide +kernel)
  have hv : s.machine.eval e = .ok 0xffffffff := eq_ok_of_toOption (by decide +kernel)
  obtain ⟨hok, hlarge, hunique, hprint⟩ := print_round_trip ctx 0 s
  have hhexForm : Text.hexWord 0xffffffff = "0xffffffff" := by decide +kernel
  have hdecimalForm : String.ofList (Nat.toDigits 10 (0xffffffff : UInt32).toNat) = "4294967295" := by
    decide +kernel
  have hline : "  ".intercalate ["0xffffffff", "4294967295"] = "0xffffffff  4294967295" := by decide +kernel
  obtain ⟨⟨s', hanswer, -⟩, hforms⟩ := hprint line e 0xffffffff hparse hv
  rw [hhexForm, hdecimalForm] at hforms hanswer
  exact ⟨hword, hok _ _ hword, hdecimal, hlarge _ _ le_rfl hdecimal, hhex, hlarge _ _ le_rfl hhex,
    (hunique _).mp (.inl hdigits), hparse, hv, ⟨s', hline ▸ hanswer⟩,
    (hforms _ (by simp)).2, (hforms _ (by simp)).2⟩

end Shell

end Monitor386
