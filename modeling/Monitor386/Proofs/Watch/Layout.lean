import Mathlib
import Monitor386.Proofs.Failure
import Monitor386.Proofs.Watch.Scan

/-!
# The layout of the pool

`Layout p as fs` says that the active chain runs through the slots `as` and the free chain through
`fs`, that between them they visit each slot once, and what the slots hold. Each operation changes
the two rows of slots in a simple way.

* `Layout.empty`: the pool without watchpoints is laid out.
* `Layout.take`, `Layout.release`: a slot moves from the start of the free chain to the start of the
  active one, and from anywhere on the active chain to the start of the free one.
* `Layout.create_eq`, `Layout.delete_eq`: what setting and deleting a watchpoint answer, and the
  layout after it.
* `Layout.scan`, `Layout.refresh`: these keep the layout.
-/

namespace Monitor386

namespace Pool

/-- The slots on the active chain and those on the free one, in order. -/
structure Layout (p : Pool) (as fs : List (Fin poolSize)) : Prop where
  active : Walk p p.head as
  free : Walk p p.free fs
  /-- Each slot is visited once. -/
  perm : (as ++ fs).Perm (List.finRange poolSize)
  /-- The last byte of the buffer is not used. -/
  short : ∀ i ∈ as, Text.byteSize (p.slot i).expr.chars < watchCapacity
  blank : ∀ i ∈ fs, (p.slot i).expr = .empty

namespace Layout

variable {p q : Pool} {as bs fs : List (Fin poolSize)} {i j : Fin poolSize}

theorem empty : Layout .empty [] (List.finRange poolSize) where
  active := .nil
  free := by decide +kernel
  perm := .refl _
  short := fun _ hi => absurd hi List.not_mem_nil
  blank := by decide +kernel

theorem nodup (h : Layout p as fs) : (as ++ fs).Nodup :=
  h.perm.nodup_iff.mpr (List.nodup_finRange poolSize)

theorem length_add (h : Layout p as fs) : as.length + fs.length = poolSize := by
  rw [← List.length_append, h.perm.length_eq, List.length_finRange]

theorem active_eq (h : Layout p as fs) : p.active = as :=
  h.active.chain_eq (by have := h.length_add; omega)

theorem available_eq (h : Layout p as fs) : p.available = fs :=
  h.free.chain_eq (by have := h.length_add; omega)

theorem head_eq (h : Layout p as fs) : p.head = as.head? :=
  h.active.start_eq

theorem free_eq (h : Layout p as fs) : p.free = fs.head? :=
  h.free.start_eq

/-- Slots on one chain are not on the other. -/
theorem disjoint (h : Layout p as fs) : as.Disjoint fs :=
  List.disjoint_of_nodup_append h.nodup

/-- A slot on the active chain is nowhere else. -/
theorem not_mem (h : Layout p (as ++ i :: bs) fs) : i ∉ as ∧ i ∉ bs ∧ i ∉ fs := by
  have := h.nodup
  rw [List.append_assoc, List.cons_append, List.nodup_middle, List.nodup_cons] at this
  simpa only [List.mem_append, not_or] using this.1

/-- Changes that keep links and texts keep the layout. -/
theorem of_slots (h : Layout p as fs) (hhead : q.head = p.head) (hfree : q.free = p.free)
    (hslots : ∀ i : Fin poolSize,
      (q.slot i).next = (p.slot i).next ∧ (q.slot i).expr = (p.slot i).expr) :
    Layout q as fs where
  active := hhead ▸ h.active.congr fun i _ => (hslots i).1
  free := hfree ▸ h.free.congr fun i _ => (hslots i).1
  perm := h.perm
  short i hi := by
    rw [(hslots i).2]
    exact h.short i hi
  blank i hi := by
    rw [(hslots i).2]
    exact h.blank i hi

/-! ## Taking a slot -/

/-- Taking a slot moves it from the start of the free chain to the start of the active one. -/
theorem take (h : Layout p as (i :: fs)) : ∃ q, p.take = .ok (i, q) ∧ Layout q (i :: as) fs ∧
    q.slot i = { p.slot i with next := p.head } ∧ q.head = some i ∧
    q.free = (p.slot i).next ∧ ∀ j ≠ i, q.slot j = p.slot j := by
  -- the first free slot becomes the head, and the one behind it the first free slot
  let q : Pool :=
    { p.modify i fun s => { s with next := p.head } with head := some i, free := (p.slot i).next }
  have hi : i ∉ as ++ fs := (List.nodup_cons.mp (List.nodup_middle.mp h.nodup)).1
  have hself : q.slot i = { p.slot i with next := p.head } := by
    rw [slot_mk, slot_modify_self]
  have hother : ∀ j ≠ i, q.slot j = p.slot j := by
    intro j hj
    rw [slot_mk, slot_modify_of_ne hj.symm]
  have hmem : ∀ j ∈ as ++ fs, q.slot j = p.slot j :=
    fun j hj => hother j (ne_of_mem_of_not_mem hj hi)
  have hrest : Walk p (p.slot i).next fs := h.free.next
  refine ⟨q, by rw [Pool.take, h.free_eq]; rfl, ⟨.cons ?_, ?_, ?_, ?_, ?_⟩, hself, rfl, rfl, hother⟩
  · rw [hself]
    exact h.active.congr fun j hj => by rw [hmem j (List.mem_append_left _ hj)]
  · exact hrest.congr fun j hj => by rw [hmem j (List.mem_append_right _ hj)]
  · exact List.perm_middle.symm.trans h.perm
  · refine List.forall_mem_cons.mpr ⟨?_, fun j hj => ?_⟩
    · rw [hself, h.blank i List.mem_cons_self]
      decide
    · rw [hmem j (List.mem_append_left _ hj)]
      exact h.short j hj
  · intro j hj
    rw [hmem j (List.mem_append_right _ hj)]
    exact h.blank j (List.mem_cons_of_mem _ hj)

/-! ## Giving a slot back -/

/-- Unlinking the first slot of the active chain makes the next one the head. -/
theorem unlink_first (h : Layout p (i :: bs) fs) :
    p.unlink i = { p with head := (p.slot i).next } := by
  have h' : Layout p ([] ++ i :: bs) fs := h
  have hpre : predecessor? i p.active = none := by
    rw [h.active_eq]
    exact predecessor?_eq_none h'.not_mem.2.1
  rw [Pool.unlink, hpre]

/-- Unlinking a slot takes it off the active chain, and changes no more than a link there. -/
theorem unlink (h : Layout p (as ++ i :: bs) fs) :
    Walk (p.unlink i) (p.unlink i).head (as ++ bs) ∧ (p.unlink i).free = p.free ∧
      (∀ j ∉ as, (p.unlink i).slot j = p.slot j) ∧
      ∀ j : Fin poolSize, ((p.unlink i).slot j).expr = (p.slot j).expr ∧
        ((p.unlink i).slot j).value = (p.slot j).value := by
  obtain ⟨has, -, -⟩ := h.not_mem
  obtain rfl | ⟨as, j, rfl⟩ := List.eq_nil_or_concat as
  · rw [List.nil_append] at h
    rw [h.unlink_first]
    exact ⟨h.active.next.congr fun _ _ => rfl, rfl, fun _ _ => rfl, fun _ => ⟨rfl, rfl⟩⟩
  · -- The slot before it is linked to the one behind it.
    rw [List.concat_eq_append] at has h ⊢
    have hpre : predecessor? i p.active = some j := by
      rw [h.active_eq, List.append_assoc, List.singleton_append]
      exact predecessor?_eq_some has
    have hq : p.unlink i = p.modify j fun s => { s with next := (p.slot i).next } := by
      rw [Pool.unlink, hpre]
    rw [hq]
    rw [List.append_assoc, List.singleton_append] at h
    obtain ⟨hjas, hjbs, -⟩ := h.not_mem
    have hjbs : j ∉ bs := fun hj => hjbs (List.mem_cons_of_mem i hj)
    refine ⟨?_, rfl, fun k hk => slot_modify_of_ne ?_, fun k => ?_⟩
    · rw [List.append_assoc, List.singleton_append]
      refine h.active.splice (fun k hk => ?_) ?_
      · rw [slot_modify_of_ne (ne_of_mem_of_not_mem hk hjas).symm]
      · rw [slot_modify_self]
        have hrest : Walk p (p.slot i).next bs := h.active.tail.next
        exact hrest.congr fun k hk => by rw [slot_modify_of_ne (ne_of_mem_of_not_mem hk hjbs).symm]
    · rintro rfl
      exact hk (by simp)
    · rw [slot_modify]
      split <;> exact ⟨rfl, rfl⟩

/-- An active slot can be given back. -/
theorem release_eq (h : Layout p as fs) (hi : i ∈ as) :
    p.release i = .ok { (p.unlink i).modify i fun s => { s with expr := .empty, next := p.free } with
      free := some i } := by
  have hhead : p.head ≠ none := by
    rw [h.head_eq, ne_eq, List.head?_eq_none_iff]
    rintro rfl
    cases hi
  have hmem : i ∈ p.active := h.active_eq ▸ hi
  rw [Pool.release, if_neg hhead, if_neg (not_not.mpr hmem)]

/-- Giving a slot back moves it from the active chain to the start of the free one. -/
theorem release (h : Layout p (as ++ i :: bs) fs) : ∃ q, p.release i = .ok q ∧
    Layout q (as ++ bs) (i :: fs) ∧ ∀ j ≠ i, q.watchpoint j = p.watchpoint j := by
  obtain ⟨hi, hib, hif⟩ := h.not_mem
  obtain ⟨hwalk, -, hsame, htext⟩ := h.unlink
  have hrel := h.release_eq (i := i) (by simp)
  generalize hr : (p.unlink i).modify i (fun s => { s with expr := .empty, next := p.free }) = r
    at hrel
  -- the slot is unlinked, wiped and put before the free ones
  let q : Pool := { r with free := some i }
  have hself : q.slot i = { p.slot i with expr := .empty, next := p.free } := by
    rw [slot_mk, ← hr, slot_modify_self, hsame i hi]
  have hother : ∀ j ≠ i, q.slot j = (p.unlink i).slot j := by
    intro j hj
    rw [slot_mk, ← hr, slot_modify_of_ne hj.symm]
  have hmemFree : ∀ j ∈ fs, q.slot j = p.slot j := by
    intro j hj
    rw [hother j (ne_of_mem_of_not_mem hj hif), hsame j fun hja => ?_]
    exact h.disjoint (List.mem_append_left _ hja) hj
  have hhead : q.head = (p.unlink i).head := by simp only [q, ← hr, modify_head]
  have hmemActive : ∀ j ∈ as ++ bs, j ≠ i := by
    rintro j hj rfl
    exact (List.mem_append.mp hj).elim hi hib
  -- both chains run through slots that are as before, except for the one that is given back
  refine ⟨q, hrel, ⟨?_, .cons ?_, ?_, fun j hj => ?_, List.forall_mem_cons.mpr ⟨?_, fun j hj => ?_⟩⟩,
    fun j hj => ?_⟩
  · rw [hhead]
    exact hwalk.congr fun j hj => by rw [hother j (hmemActive j hj)]
  · rw [hself]
    exact h.free.congr fun j hj => by rw [hmemFree j hj]
  · refine List.Perm.trans ?_ h.perm
    rw [List.append_assoc, List.append_assoc]
    exact List.perm_middle.append_left as
  · rw [hother j (hmemActive j hj), (htext j).1]
    exact h.short j (by
      obtain hja | hjb := List.mem_append.mp hj
      · exact List.mem_append_left _ hja
      · exact List.mem_append_right _ (List.mem_cons_of_mem _ hjb))
  · rw [hself]
  · rw [hmemFree j hj]
    exact h.blank j hj
  · rw [watchpoint_eq, watchpoint_eq, hother j hj, (htext j).1, (htext j).2]

/-- Giving back the slot that was just taken leaves nothing changed. -/
theorem release_take (h : Layout p as (i :: fs)) (hq : p.take = .ok (i, q)) :
    q.release i = .ok p := by
  obtain ⟨q', hq', hl, hself, hhead, hfree, hother⟩ := h.take
  obtain rfl : q' = q := by
    rw [hq] at hq'
    cases hq'
    rfl
  rw [hl.release_eq List.mem_cons_self, hl.unlink_first]
  congr 1
  refine eq_of_slots (fun j => ?_) ?_ ?_
  · by_cases hj : i = j
    · subst hj
      rw [slot_mk, slot_modify_self, slot_mk, hself, hfree, ← h.blank i List.mem_cons_self]
    · rw [slot_mk, slot_modify_of_ne hj]
      exact hother j (Ne.symm hj)
  · rw [modify_head, hself]
  · exact h.free_eq.symm

/-! ## The operations -/

/-- An active slot can hold any text that leaves a byte of its buffer free. -/
theorem modify (h : Layout p as fs) (hi : i ∈ as) (expr : Text.Bounded watchCapacity)
    (value : UInt32) (hexpr : Text.byteSize expr.chars < watchCapacity) :
    Layout (p.modify i fun s => { s with expr, value }) as fs := by
  have hnext : ∀ j : Fin poolSize,
      ((p.modify i fun s => { s with expr, value }).slot j).next = (p.slot j).next := by
    intro j
    rw [slot_modify]
    split <;> rfl
  refine ⟨h.active.congr fun j _ => hnext j, h.free.congr fun j _ => hnext j, h.perm,
    fun j hj => ?_, fun j hj => ?_⟩
  · rw [slot_modify]
    split
    · exact hexpr
    · exact h.short j hj
  · have hij : i ≠ j := by
      rintro rfl
      exact h.disjoint hi hj
    rw [slot_modify_of_ne hij]
    exact h.blank j hj

/-- Setting a watchpoint on an expression that fails leaves nothing changed; else the first free
slot becomes the newest watchpoint. -/
theorem create_eq (h : Layout p as fs) (ctx : Expr.Context) (e : List Char) :
    (fs = [] ∧ p.create ctx e = .ok (.error .poolExhausted, p)) ∨
    (fs ≠ [] ∧ watchCapacity ≤ Text.byteSize e ∧
      p.create ctx e = .ok (.error .expressionTooLong, p)) ∨
    (fs ≠ [] ∧ Text.byteSize e < watchCapacity ∧ ∃ cause, Expr.eval ctx e = .error cause ∧
      p.create ctx e = .ok (.error (.badExpression cause), p)) ∨
    ∃ i fs' value q, fs = i :: fs' ∧ Text.byteSize e < watchCapacity ∧
      Expr.eval ctx e = .ok value ∧ p.create ctx e = .ok (.ok (q.watchpoint i), q) ∧
      Layout q (i :: as) fs' ∧ q.watchpoint i = ⟨i, e, value⟩ ∧
      ∀ j ≠ i, q.watchpoint j = p.watchpoint j := by
  obtain _ | ⟨i, fs⟩ := fs
  · have hfree : p.free = none := h.free_eq
    exact .inl ⟨rfl, by rw [create, if_pos hfree]⟩
  have hfree : p.free ≠ none := by
    rw [h.free_eq]
    simp
  by_cases hlong : watchCapacity ≤ Text.byteSize e
  · refine .inr (.inl ⟨by simp, hlong, ?_⟩)
    rw [create, if_neg hfree, if_pos hlong]
  have hshort : Text.byteSize e < watchCapacity := not_le.mp hlong
  -- the slot is taken before the expression is evaluated, and given back if this fails
  obtain ⟨q, hq, hl, hself, -, -, hother⟩ := h.take
  cases heval : Expr.eval ctx e with
  | error cause =>
    refine .inr (.inr (.inl ⟨by simp, hshort, cause, rfl, ?_⟩))
    simp only [create, hfree, hlong, ↓reduceIte, hq, heval, h.release_take hq, bind, Except.bind]
    rfl
  | ok value =>
    let r := q.modify i fun s => { s with expr := ⟨e, hshort.le⟩, value }
    have hbounded : (Text.Bounded.ofChars? e : Option (Text.Bounded watchCapacity)) =
        some ⟨e, hshort.le⟩ := dif_pos hshort.le
    refine .inr (.inr (.inr ⟨i, fs, value, r, rfl, hshort, rfl, ?_, ?_, ?_, fun j hj => ?_⟩))
    · simp only [create, hfree, hlong, ↓reduceIte, hq, heval, hbounded, bind, Except.bind]
      rfl
    · exact hl.modify List.mem_cons_self _ _ hshort
    · rw [watchpoint_eq, slot_modify_self]
    · rw [watchpoint_eq, watchpoint_eq, slot_modify_of_ne hj.symm, hother j hj]

/-- Deleting a watchpoint gives its slot back; a number that no watchpoint has changes nothing. -/
theorem delete_eq (h : Layout p as fs) (hne : as ≠ []) (no : Nat) :
    (∃ (bs : List (Fin poolSize)) (i : Fin poolSize) (cs : List (Fin poolSize)) (q : Pool),
      as = bs ++ i :: cs ∧ no = i ∧ p.delete no = .ok (.ok (), q) ∧
      Layout q (bs ++ cs) (i :: fs) ∧ ∀ j ≠ i, q.watchpoint j = p.watchpoint j) ∨
    ((∀ i ∈ as, i.val ≠ no) ∧ p.delete no = .ok (.error (.notFound no), p)) := by
  have hhead : p.head ≠ none := by
    rw [h.head_eq]
    simpa using hne
  have hany : p.toList.any (·.no = no) = true ↔ ∃ i ∈ as, i.val = no := by
    simp [toList, h.active_eq, watchpoint_no]
  by_cases hmem : ∃ i ∈ as, i.val = no
  · obtain ⟨i, hi, rfl⟩ := hmem
    obtain ⟨bs, cs, rfl⟩ := List.append_of_mem hi
    obtain ⟨q, hq, hl, hother⟩ := h.release
    refine .inl ⟨bs, i, cs, q, rfl, rfl, ?_, hl, hother⟩
    rw [delete, if_neg hhead, if_pos (hany.mpr ⟨i, hi, rfl⟩), dif_pos i.isLt, hq]
    rfl
  · refine .inr ⟨fun i hi heq => hmem ⟨i, hi, heq⟩, ?_⟩
    rw [delete, if_neg hhead, if_neg fun hn => hmem (hany.mp hn)]

theorem setValue (h : Layout p as fs) (i : Fin poolSize) (x : UInt32) :
    Layout (p.setValue i x) as fs := by
  refine h.of_slots rfl rfl fun j => ⟨next_setValue p i x j, ?_⟩
  rw [slot_setValue]
  split <;> rfl

theorem store (h : Layout p as fs) (hit : WatchChange) : Layout (p.store hit) as fs := by
  unfold Pool.store
  split
  · exact h.setValue _ _
  · exact h

theorem scan (h : Layout p as fs) (ctx : Expr.Context) : Layout (p.scan ctx).2 as fs := by
  obtain ⟨-, hscan⟩ | ⟨hit, -, hscan⟩ := p.scan_eq ctx
  · rw [hscan]
    exact h
  · rw [hscan]
    exact h.store hit

theorem refreshSlots (h : Layout p as fs) (ctx : Expr.Context) (is : List (Fin poolSize)) :
    Layout (p.refreshSlots ctx is) as fs := by
  induction is generalizing p with
  | nil => exact h
  | cons i is ih =>
    unfold Pool.refreshSlots
    split
    · exact ih h
    · exact ih (h.setValue i _)

theorem refresh (h : Layout p as fs) (ctx : Expr.Context) : Layout (p.refresh ctx) as fs :=
  h.refreshSlots ctx p.active

end Layout

end Pool

end Monitor386
