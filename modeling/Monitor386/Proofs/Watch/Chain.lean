import Mathlib
import Monitor386.Watch.Pool

/-!
# Chains of slots

`Walk p start is` says that the links lead from `start` through the slots `is` and end there.
Other than `Pool.chain` a walk is not cut off, so a chain with a cycle has none.

* `Walk.chain_eq`: a walk of at most `n` slots is what `Pool.chain` finds in `n` steps.
* `Walk.congr`: a walk depends on the links of its own slots only.
* `Walk.splice`: a walk whose last link is changed goes on where the new link leads.
-/

namespace Monitor386

namespace Pool

/-! ## Slots -/

variable {p : Pool} {i j : Fin poolSize} {f : Slot → Slot} {hf : ∀ s, (f s).no = s.no}

@[simp] theorem slot_no (p : Pool) (i : Fin poolSize) : (p.slot i).no = i :=
  p.numbered i

/-- The ends of the chains do not matter for what a slot holds. -/
@[simp] theorem slot_mk (p : Pool) (head free : Option (Fin poolSize)) (i : Fin poolSize) :
    (⟨p.slots, head, free, p.numbered⟩ : Pool).slot i = p.slot i := rfl

theorem slot_modify (p : Pool) (i j : Fin poolSize) (f : Slot → Slot)
    (hf : ∀ s, (f s).no = s.no) :
    (p.modify i f hf).slot j = if i = j then f (p.slot j) else p.slot j := by
  simp only [modify, slot, Fin.getElem_fin, Vector.getElem_set, Fin.ext_iff]
  split
  · rename_i h
    simp only [h]
  · rfl

theorem slot_modify_self : (p.modify i f hf).slot i = f (p.slot i) := by
  rw [slot_modify, if_pos rfl]

theorem slot_modify_of_ne (h : i ≠ j) : (p.modify i f hf).slot j = p.slot j := by
  rw [slot_modify, if_neg h]

/-- Pools with the same slots and the same ends of their chains are the same. -/
theorem eq_of_slots {p q : Pool} (hslots : ∀ i : Fin poolSize, p.slot i = q.slot i)
    (hhead : p.head = q.head) (hfree : p.free = q.free) : p = q := by
  obtain ⟨slots, head, free, hno⟩ := p
  obtain ⟨slots', head', free', hno'⟩ := q
  obtain rfl : slots = slots' := Vector.ext fun i hi => hslots ⟨i, hi⟩
  cases hhead
  cases hfree
  rfl

@[simp] theorem modify_head : (p.modify i f hf).head = p.head := rfl

/-! ## Walks -/

/-- The links lead from a start through these slots, to an end. -/
inductive Walk (p : Pool) : Option (Fin poolSize) → List (Fin poolSize) → Prop where
  | nil : Walk p none []
  | cons {i : Fin poolSize} {is : List (Fin poolSize)} :
      Walk p (p.slot i).next is → Walk p (some i) (i :: is)

namespace Walk

variable {p q : Pool} {start : Option (Fin poolSize)} {i : Fin poolSize}
  {is js : List (Fin poolSize)}

theorem start_eq (h : Walk p start is) : start = is.head? := by
  cases h <;> rfl

theorem chain_eq (h : Walk p start is) {n : Nat} (hn : is.length ≤ n) : p.chain n start = is := by
  induction h generalizing n with
  | nil => cases n <;> rfl
  | @cons i is _ ih =>
    obtain ⟨n, rfl⟩ : ∃ k, n = k + 1 := ⟨n - 1, by rw [List.length_cons] at hn; omega⟩
    rw [chain, ih (by simpa using hn)]

/-- A walk depends on the links of its own slots only. -/
theorem congr (h : Walk p start is) (hnext : ∀ i ∈ is, (q.slot i).next = (p.slot i).next) :
    Walk q start is := by
  induction h with
  | nil => exact .nil
  | @cons i is _ ih =>
    obtain ⟨hi, his⟩ := List.forall_mem_cons.mp hnext
    refine .cons ?_
    rw [hi]
    exact ih his

theorem next (h : Walk p start (i :: js)) : Walk p (p.slot i).next js := by
  cases h with
  | cons h => exact h

theorem tail (h : Walk p start (is ++ i :: js)) : Walk p (p.slot i).next js := by
  induction is generalizing start with
  | nil => exact h.next
  | cons k is ih =>
    cases h with
    | cons h => exact ih h

/-- With its last link changed, a walk goes on where that link leads. -/
theorem splice {ks : List (Fin poolSize)} (h : Walk p start (is ++ i :: js))
    (hnext : ∀ k ∈ is, (q.slot k).next = (p.slot k).next) (hlast : Walk q (q.slot i).next ks) :
    Walk q start (is ++ i :: ks) := by
  induction is generalizing start with
  | nil =>
    cases h with
    | cons h => exact .cons hlast
  | cons k is ih =>
    cases h with
    | cons h =>
      obtain ⟨hk, his⟩ := List.forall_mem_cons.mp hnext
      refine .cons ?_
      rw [hk]
      exact ih h his

/-- Whether the links lead through given slots can be computed. -/
instance decidable (p : Pool) :
    (start : Option (Fin poolSize)) → (is : List (Fin poolSize)) → Decidable (Walk p start is)
  | none, [] => .isTrue .nil
  | some _, [] => .isFalse fun h => by cases h
  | none, _ :: _ => .isFalse fun h => by cases h
  | some i, j :: is =>
    match decidable p (p.slot j).next is with
    | .isFalse hn => .isFalse fun h => by
      cases h with
      | cons h => exact hn h
    | .isTrue h =>
      if hij : i = j then .isTrue (hij ▸ .cons (hij ▸ h))
      else .isFalse fun h => by cases h; exact hij rfl

end Walk

/-! ## The slot before a slot -/

theorem predecessor?_eq_none {i j : Fin poolSize} {is : List (Fin poolSize)} (h : i ∉ is) :
    predecessor? i (j :: is) = none := by
  induction is generalizing j with
  | nil => rfl
  | cons k is ih =>
    obtain ⟨hk, his⟩ := not_or.mp (List.mem_cons.not.mp h)
    rw [predecessor?, if_neg (Ne.symm hk), ih his]

theorem predecessor?_eq_some {i j : Fin poolSize} {is js : List (Fin poolSize)}
    (h : i ∉ is ++ [j]) : predecessor? i (is ++ j :: i :: js) = some j := by
  induction is with
  | nil => rw [List.nil_append, predecessor?, if_pos rfl]
  | cons k is ih =>
    obtain ⟨hk, his⟩ := not_or.mp (List.mem_cons.not.mp h)
    rw [← ih his]
    cases is with
    | nil =>
      have hij : j ≠ i := by simpa [eq_comm] using his
      rw [List.cons_append, List.nil_append, predecessor?, if_neg hij]
    | cons l is =>
      have hil : l ≠ i := by
        rintro rfl
        exact his List.mem_cons_self
      rw [List.cons_append, List.cons_append, predecessor?, if_neg hil]

end Pool

end Monitor386
