import Mathlib
import Monitor386.Proofs.Watch.Chain

/-!
# What a scan finds

The watchpoints of a pool are looked at in the order of `Pool.toList`. One is `Steady` in a context
if its expression has no value there or the stored one; `Fires ctx ws hit` says that `hit` reports
the first of `ws` that is not. Storing a value changes that value and nothing else.

* `Pool.scan_eq`: a scan reports the first watchpoint that is not steady and stores its new value;
  if all are steady it changes nothing.
* `Pool.toList_store`: after that one value was stored, the list of watchpoints has the new value at
  the number that was reported, and is otherwise the same.
-/

namespace Monitor386

/-- The expression has no value in the context, or the value that is stored. -/
def Watchpoint.Steady (ctx : Expr.Context) (w : Watchpoint) : Prop :=
  (∃ err, Expr.eval ctx w.expr = .error err) ∨ Expr.eval ctx w.expr = .ok w.value

/-- A report of a change of the watchpoint: from the stored value to the one in the context. -/
structure Watchpoint.Changed (ctx : Expr.Context) (w : Watchpoint) (hit : WatchChange) : Prop where
  no : hit.no = w.no
  expr : hit.expr = w.expr
  old : hit.old = w.value
  new : Expr.eval ctx w.expr = .ok hit.new
  ne : hit.new ≠ hit.old

/-- The report of the first watchpoint that changed. -/
inductive Fires (ctx : Expr.Context) : List Watchpoint → WatchChange → Prop where
  | first {w : Watchpoint} {ws : List Watchpoint} {hit : WatchChange} :
      w.Changed ctx hit → Fires ctx (w :: ws) hit
  | later {w : Watchpoint} {ws : List Watchpoint} {hit : WatchChange} :
      w.Steady ctx → Fires ctx ws hit → Fires ctx (w :: ws) hit

theorem Watchpoint.steady_or_changed (ctx : Expr.Context) (w : Watchpoint) :
    w.Steady ctx ∨ ∃ hit, w.Changed ctx hit := by
  cases heval : Expr.eval ctx w.expr with
  | error err => exact .inl (.inl ⟨err, heval⟩)
  | ok new =>
    by_cases hnew : new = w.value
    · exact .inl (.inr (heval.trans (congrArg _ hnew)))
    · exact .inr ⟨⟨w.no, w.expr, w.value, new⟩, rfl, rfl, rfl, heval, hnew⟩

theorem Watchpoint.Changed.not_steady {ctx : Expr.Context} {w : Watchpoint} {hit : WatchChange}
    (h : w.Changed ctx hit) : ¬ w.Steady ctx := by
  rintro (⟨err, herr⟩ | hval)
  · rw [h.new] at herr
    cases herr
  · rw [h.new] at hval
    exact h.ne ((Except.ok.inj hval).trans h.old.symm)

theorem Watchpoint.Changed.unique {ctx : Expr.Context} {w : Watchpoint} {hit hit' : WatchChange}
    (h : w.Changed ctx hit) (h' : w.Changed ctx hit') : hit = hit' := by
  obtain ⟨no, expr, old, new⟩ := hit
  obtain ⟨no', expr', old', new'⟩ := hit'
  obtain ⟨rfl, rfl, rfl, hnew, -⟩ := h
  obtain ⟨rfl, rfl, rfl, hnew', -⟩ := h'
  rw [hnew] at hnew'
  cases hnew'
  rfl

theorem Fires.not_steady {ctx : Expr.Context} {ws : List Watchpoint} {hit : WatchChange}
    (h : Fires ctx ws hit) : ¬ ∀ w ∈ ws, w.Steady ctx := by
  intro hall
  induction h with
  | first h => exact h.not_steady (hall _ List.mem_cons_self)
  | later _ _ ih => exact ih fun w hw => hall w (List.mem_cons_of_mem _ hw)

theorem steady_or_fires (ctx : Expr.Context) (ws : List Watchpoint) :
    (∀ w ∈ ws, w.Steady ctx) ∨ ∃ hit, Fires ctx ws hit := by
  induction ws with
  | nil => exact .inl fun w hw => absurd hw List.not_mem_nil
  | cons w ws ih =>
    obtain hsteady | ⟨hit, hchanged⟩ := w.steady_or_changed ctx
    · obtain hall | ⟨hit, hfires⟩ := ih
      · exact .inl (List.forall_mem_cons.mpr ⟨hsteady, hall⟩)
      · exact .inr ⟨hit, .later hsteady hfires⟩
    · exact .inr ⟨hit, .first hchanged⟩

theorem Fires.unique {ctx : Expr.Context} {ws : List Watchpoint} {hit hit' : WatchChange}
    (h : Fires ctx ws hit) (h' : Fires ctx ws hit') : hit = hit' := by
  induction h with
  | first h =>
    cases h' with
    | first h' => exact h.unique h'
    | later hs _ => exact absurd hs h.not_steady
  | later hs _ ih =>
    cases h' with
    | first h' => exact absurd hs h'.not_steady
    | later _ h' => exact ih h'

namespace Pool

variable {p : Pool}

/-! ## Storing a value -/

theorem slot_setValue (p : Pool) (i : Fin poolSize) (x : UInt32) (j : Fin poolSize) :
    (p.setValue i x).slot j =
      if i = j then { p.slot j with value := x } else p.slot j :=
  slot_modify p i j _ _

theorem next_setValue (p : Pool) (i : Fin poolSize) (x : UInt32) (j : Fin poolSize) :
    ((p.setValue i x).slot j).next = (p.slot j).next := by
  rw [slot_setValue]
  split <;> rfl

theorem chain_setValue (p : Pool) (i : Fin poolSize) (x : UInt32) (n : Nat)
    (start : Option (Fin poolSize)) : (p.setValue i x).chain n start = p.chain n start := by
  induction n generalizing start with
  | zero => rfl
  | succ n ih =>
    cases start with
    | none => rfl
    | some j => simp only [chain, next_setValue, ih]

theorem active_setValue (p : Pool) (i : Fin poolSize) (x : UInt32) :
    (p.setValue i x).active = p.active :=
  chain_setValue p i x poolSize p.head

theorem watchpoint_setValue (p : Pool) (i : Fin poolSize) (x : UInt32) (j : Fin poolSize) :
    (p.setValue i x).watchpoint j =
      if i = j then { p.watchpoint j with value := x } else p.watchpoint j := by
  simp only [watchpoint, slot_setValue]
  split <;> rfl

/-- A watchpoint has the number of its slot. -/
theorem watchpoint_no (p : Pool) (i : Fin poolSize) : (p.watchpoint i).no = i :=
  p.slot_no i

theorem watchpoint_eq (p : Pool) (i : Fin poolSize) :
    p.watchpoint i = ⟨i, (p.slot i).expr.chars, (p.slot i).value⟩ := by
  rw [watchpoint, slot_no]

/-- Stores the new value of a change that was reported. -/
def store (p : Pool) (hit : WatchChange) : Pool :=
  if h : hit.no < poolSize then p.setValue ⟨hit.no, h⟩ hit.new else p

theorem store_eq {hit : WatchChange} {i : Fin poolSize} (h : hit.no = i.val) :
    p.store hit = p.setValue i hit.new := by
  have hlt : hit.no < poolSize := h ▸ i.isLt
  rw [store, dif_pos hlt]
  congr 1
  exact Fin.ext h

/-- Only the watchpoint with the number has another value. -/
theorem toList_store (p : Pool) (hit : WatchChange) :
    (p.store hit).toList =
      p.toList.map fun w => if w.no = hit.no then { w with value := hit.new } else w := by
  by_cases h : hit.no < poolSize
  · have hno : hit.no = (⟨hit.no, h⟩ : Fin poolSize).val := rfl
    rw [store_eq hno, toList, toList, active_setValue, List.map_map]
    refine List.map_congr_left fun j _ => ?_
    have hj : (⟨hit.no, h⟩ : Fin poolSize) = j ↔ (p.watchpoint j).no = hit.no := by
      rw [watchpoint_no, eq_comm, Fin.ext_iff]
    rw [watchpoint_setValue, Function.comp_apply]
    simp only [hj]
  · have hne : ∀ w ∈ p.toList, w.no ≠ hit.no := by
      intro w hw heq
      obtain ⟨j, -, rfl⟩ := List.mem_map.mp hw
      exact h (heq ▸ watchpoint_no p j ▸ j.isLt)
    rw [store, dif_neg h]
    conv => lhs; rw [← List.map_id p.toList]
    exact List.map_congr_left fun w hw => by rw [id, if_neg (hne w hw)]

/-! ## Scanning -/

/-- No watchpoint of the pool changed. -/
def Steady (p : Pool) (ctx : Expr.Context) : Prop :=
  ∀ w ∈ p.toList, w.Steady ctx

theorem scanSlots_cons_of_steady {ctx : Expr.Context} {i : Fin poolSize}
    (h : (p.watchpoint i).Steady ctx) (is : List (Fin poolSize)) :
    p.scanSlots ctx (i :: is) = p.scanSlots ctx is := by
  obtain ⟨err, herr⟩ | hval := h
  · have herr : Expr.eval ctx (p.slot i).expr.chars = .error err := herr
    simp only [scanSlots, herr]
  · have hval : Expr.eval ctx (p.slot i).expr.chars = .ok (p.slot i).value := hval
    simp only [scanSlots, hval, ↓reduceIte]

theorem scanSlots_cons_of_changed {ctx : Expr.Context} {i : Fin poolSize} {hit : WatchChange}
    (h : (p.watchpoint i).Changed ctx hit) (is : List (Fin poolSize)) :
    p.scanSlots ctx (i :: is) = (some hit, p.store hit) := by
  obtain ⟨no, expr, old, new⟩ := hit
  obtain ⟨rfl, rfl, rfl, hnew, hne⟩ := h
  have hnew : Expr.eval ctx (p.slot i).expr.chars = .ok new := hnew
  have hne : new ≠ (p.slot i).value := hne
  rw [store_eq (p.slot_no i)]
  simp only [scanSlots, hnew, hne, ↓reduceIte]
  rfl

theorem scanSlots_of_steady {ctx : Expr.Context} {is : List (Fin poolSize)}
    (h : ∀ w ∈ is.map p.watchpoint, w.Steady ctx) : p.scanSlots ctx is = (none, p) := by
  induction is with
  | nil => rfl
  | cons i is ih =>
    obtain ⟨hi, his⟩ := List.forall_mem_cons.mp h
    rw [scanSlots_cons_of_steady hi, ih his]

theorem scanSlots_of_fires {ctx : Expr.Context} {is : List (Fin poolSize)} {hit : WatchChange}
    (h : Fires ctx (is.map p.watchpoint) hit) : p.scanSlots ctx is = (some hit, p.store hit) := by
  induction is with
  | nil => cases h
  | cons i is ih =>
    cases h with
    | first h => exact scanSlots_cons_of_changed h is
    | later hi h => rw [scanSlots_cons_of_steady hi, ih h]

/-- A scan reports the first watchpoint that is not steady and stores its new value. -/
theorem scan_eq (p : Pool) (ctx : Expr.Context) :
    (∀ w ∈ p.toList, w.Steady ctx) ∧ p.scan ctx = (none, p) ∨
      ∃ hit, Fires ctx p.toList hit ∧ p.scan ctx = (some hit, p.store hit) := by
  obtain hall | ⟨hit, hfires⟩ := steady_or_fires ctx p.toList
  · exact .inl ⟨hall, scanSlots_of_steady hall⟩
  · exact .inr ⟨hit, hfires, scanSlots_of_fires hfires⟩

end Pool

end Monitor386
