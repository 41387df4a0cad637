import Mathlib
import Monitor386.Proofs.Watch.Roster

/-!
# Scans until nothing is left

A scan reports one change and stores its new value, and a refresh stores all values at once. Scans one
after the other, in one context, report what is left of `Pool.changes`, which loses its first change
with each of them, while what a refresh would make of the pool stays the same.

* `mem_changes`: the changes are those of the watchpoints, in their order.
* `scan_of_changes`, `changes_store`: a scan reports the first change, and the others are left.
* `refresh_store`: storing the value of a change makes no difference to a refresh.
* `Layout.scanAll_eq`: scans until nothing is left do what a refresh does.
-/

namespace Monitor386

/-! ## Watchpoints -/

section

variable {ctx : Expr.Context} {w : Watchpoint} {ws : List Watchpoint} {hit : WatchChange}
  {hits : List WatchChange}

theorem Watchpoint.change?_eq_some : w.change? ctx = some hit ↔ w.Changed ctx hit := by
  refine ⟨fun h => ?_, fun h => h.change?_eq⟩
  obtain hsteady | ⟨hit', hchanged⟩ := w.steady_or_changed ctx
  · rw [hsteady.change?_eq] at h
    cases h
  · cases hchanged.change?_eq.symm.trans h
    exact hchanged

theorem Watchpoint.change?_eq_none : w.change? ctx = none ↔ w.Steady ctx := by
  refine ⟨fun h => ?_, fun h => h.change?_eq⟩
  obtain hsteady | ⟨hit, hchanged⟩ := w.steady_or_changed ctx
  · exact hsteady
  · rw [hchanged.change?_eq] at h
    cases h

theorem Watchpoint.refreshed_steady (ctx : Expr.Context) (w : Watchpoint) :
    (w.refreshed ctx).Steady ctx := by
  cases heval : Expr.eval ctx w.expr with
  | error err => exact .inl ⟨err, by simp only [refreshed, heval]⟩
  | ok value => exact .inr (by simp only [refreshed, heval])

/-- With the value that the change reports the watchpoint is up to date. -/
theorem Watchpoint.Changed.refreshed_eq (h : w.Changed ctx hit) :
    w.refreshed ctx = { w with value := hit.new } := by
  simp only [refreshed, h.new]

theorem Watchpoint.Changed.steady_stored (h : w.Changed ctx hit) :
    ({ w with value := hit.new } : Watchpoint).Steady ctx :=
  h.refreshed_eq ▸ w.refreshed_steady ctx

/-- The numbers of the watchpoints that changed, in the order of the list. -/
theorem map_no_changes (ctx : Expr.Context) (ws : List Watchpoint) :
    ((ws.filterMap (·.change? ctx)).map (·.no)).Sublist (ws.map (·.no)) := by
  induction ws with
  | nil => exact .slnil
  | cons w ws ih =>
    obtain hsteady | ⟨hit, hchanged⟩ := w.steady_or_changed ctx
    · rw [List.filterMap_cons_none hsteady.change?_eq]
      exact ih.cons _
    · rw [List.filterMap_cons_some hchanged.change?_eq, List.map_cons, List.map_cons, hchanged.no]
      exact ih.cons_cons _

/-- Once its value is stored, the first change is gone, and the others are left. -/
theorem filterMap_change_store (hnodup : (ws.map (·.no)).Nodup)
    (h : ws.filterMap (·.change? ctx) = hit :: hits) :
    (ws.map fun w => if w.no = hit.no then { w with value := hit.new } else w).filterMap
      (·.change? ctx) = hits := by
  induction ws with
  | nil => cases h
  | cons w ws ih =>
    obtain ⟨hw, hnodup⟩ : w.no ∉ ws.map (·.no) ∧ (ws.map (·.no)).Nodup :=
      List.nodup_cons.mp hnodup
    rw [List.map_cons]
    obtain hsteady | ⟨hit', hchanged⟩ := w.steady_or_changed ctx
    · rw [List.filterMap_cons_none hsteady.change?_eq] at h
      have hmem : hit.no ∈ ws.map (·.no) :=
        (map_no_changes ctx ws).subset (h ▸ List.mem_cons_self)
      have hne : w.no ≠ hit.no := fun heq => hw (heq ▸ hmem)
      rw [if_neg hne, List.filterMap_cons_none hsteady.change?_eq, ih hnodup h]
    · rw [List.filterMap_cons_some hchanged.change?_eq] at h
      obtain ⟨rfl, rfl⟩ := List.cons.inj h
      have hrest : (ws.map fun w => if w.no = hit'.no then { w with value := hit'.new } else w) = ws := by
        conv => rhs; rw [← List.map_id ws]
        refine List.map_congr_left fun w' hw' => ?_
        rw [id, if_neg]
        intro heq
        exact hw (List.mem_map.mpr ⟨w', hw', heq.trans hchanged.no⟩)
      rw [if_pos hchanged.no.symm, List.filterMap_cons_none hchanged.steady_stored.change?_eq, hrest]

end

theorem Roster.delete_sublist {r r' : Roster} {no : Nat} {x : Except WatchError Unit}
    (h : r.delete no = .ok (x, r')) : r'.entries.Sublist r.entries := by
  unfold delete at h
  split at h
  · cases h
  · split at h
    · cases h
      exact List.eraseP_sublist
    · cases h
      exact .refl _

namespace Pool

variable {p q : Pool} {ctx : Expr.Context} {as fs : List (Fin poolSize)} {hit : WatchChange}
  {hits : List WatchChange}

/-- Pools with the same watchpoints in the same slots, and with the same links, are the same. -/
theorem eq_of_watchpoints (hwatch : ∀ i, p.watchpoint i = q.watchpoint i)
    (hnext : ∀ i, (p.slot i).next = (q.slot i).next) (hhead : p.head = q.head)
    (hfree : p.free = q.free) : p = q := by
  refine eq_of_slots (fun i => ?_) hhead hfree
  have hw := hwatch i
  have hn := hnext i
  simp only [watchpoint] at hw
  generalize p.slot i = s at hw hn ⊢
  generalize q.slot i = t at hw hn ⊢
  obtain ⟨no, ⟨chars, hsize⟩, value, next⟩ := s
  obtain ⟨no', ⟨chars', hsize'⟩, value', next'⟩ := t
  cases hw
  cases hn
  rfl

/-- The number says which watchpoint of a pool it is. -/
theorem eq_of_no_eq {w w' : Watchpoint} (hw : w ∈ p.toList) (hw' : w' ∈ p.toList)
    (h : w.no = w'.no) : w = w' := by
  obtain ⟨i, -, rfl⟩ := List.mem_map.mp hw
  obtain ⟨j, -, rfl⟩ := List.mem_map.mp hw'
  rw [watchpoint_no, watchpoint_no] at h
  rw [Fin.ext h]

theorem Layout.nodup_no (h : Layout p as fs) : (p.toList.map (·.no)).Nodup := by
  have hno : p.toList.map (·.no) = as.map Fin.val := by
    rw [toList, h.active_eq, List.map_map]
    exact List.map_congr_left fun i _ => p.watchpoint_no i
  rw [hno]
  exact h.nodup.of_append_left.map Fin.val_injective

/-! ## Changes -/

/-- The changes that are there to be reported, those of the newest watchpoints first. -/
def changes (p : Pool) (ctx : Expr.Context) : List WatchChange :=
  p.toList.filterMap (·.change? ctx)

/-- A number of scans, one after the other, with what they find. -/
def scanAll (p : Pool) (ctx : Expr.Context) : Nat → List (Option WatchChange) × Pool
  | 0 => ([], p)
  | n + 1 =>
    let (hit, p) := p.scan ctx
    let (hits, p) := p.scanAll ctx n
    (hit :: hits, p)

theorem mem_changes : hit ∈ p.changes ctx ↔ ∃ w ∈ p.toList, w.Changed ctx hit := by
  simp only [changes, List.mem_filterMap, Watchpoint.change?_eq_some]

theorem changes_eq_nil : p.changes ctx = [] ↔ p.Steady ctx := by
  simp only [changes, Steady, List.filterMap_eq_nil_iff, Watchpoint.change?_eq_none]

theorem length_changes_le (p : Pool) (ctx : Expr.Context) : (p.changes ctx).length ≤ p.size := by
  have h : (p.changes ctx).length ≤ p.toList.length := List.length_filterMap_le _ _
  rw [toList, List.length_map] at h
  exact h

theorem scan_of_steady (h : p.Steady ctx) : p.scan ctx = (none, p) :=
  scanSlots_of_steady h

theorem steady_of_scan (h : p.scan ctx = (none, p)) : p.Steady ctx := by
  obtain ⟨hall, -⟩ | ⟨hit, -, hscan⟩ := p.scan_eq ctx
  · exact hall
  · cases hscan.symm.trans h

/-- A scan reports the first change and stores its value. -/
theorem scan_of_changes (h : p.changes ctx = hit :: hits) : p.scan ctx = (some hit, p.store hit) := by
  obtain ⟨hall, -⟩ | ⟨hit', hfires, hscan⟩ := p.scan_eq ctx
  · rw [changes_eq_nil.mpr hall] at h
    cases h
  · have hfirst : p.toList.findSome? (·.change? ctx) = some hit := by
      rw [← List.head?_filterMap, ← changes, h, List.head?_cons]
    cases hfires.findSome?_change.symm.trans hfirst
    exact hscan

/-- The other changes are left to be reported. -/
theorem Layout.changes_store (hl : Layout p as fs) (h : p.changes ctx = hit :: hits) :
    (p.store hit).changes ctx = hits := by
  rw [changes, toList_store]
  exact filterMap_change_store hl.nodup_no h

/-- A watchpoint without a value is left alone by a scan. -/
theorem mem_scan_of_error {w : Watchpoint} {err : Expr.Error} (hw : w ∈ p.toList)
    (herr : Expr.eval ctx w.expr = .error err) : w ∈ (p.scan ctx).2.toList := by
  cases hc : p.changes ctx with
  | nil => rwa [scan_of_steady (changes_eq_nil.mp hc)]
  | cons hit hits =>
    obtain ⟨w', hw', hchanged⟩ : ∃ w' ∈ p.toList, w'.Changed ctx hit :=
      mem_changes.mp (hc ▸ List.mem_cons_self)
    have hne : w.no ≠ hit.no := by
      intro heq
      rw [eq_of_no_eq hw hw' (heq.trans hchanged.no), hchanged.new] at herr
      cases herr
    rw [scan_of_changes hc, toList_store]
    exact List.mem_map.mpr ⟨w, hw, if_neg hne⟩

/-! ## Refreshing -/

theorem next_refreshSlots (p : Pool) (ctx : Expr.Context) (is : List (Fin poolSize))
    (j : Fin poolSize) : ((p.refreshSlots ctx is).slot j).next = (p.slot j).next := by
  induction is generalizing p with
  | nil => rfl
  | cons i is ih =>
    unfold refreshSlots
    split
    · exact ih p
    · rw [ih, next_setValue]

theorem refresh_steady (p : Pool) (ctx : Expr.Context) : (p.refresh ctx).Steady ctx := by
  rw [Steady, toList_refresh]
  exact List.forall_mem_map.mpr fun w _ => w.refreshed_steady ctx

/-- A watchpoint without a value is left alone by a refresh. -/
theorem mem_refresh_of_error {w : Watchpoint} {err : Expr.Error} (hw : w ∈ p.toList)
    (herr : Expr.eval ctx w.expr = .error err) : w ∈ (p.refresh ctx).toList := by
  rw [toList_refresh]
  refine List.mem_map.mpr ⟨w, hw, ?_⟩
  simp only [Watchpoint.refreshed, herr]

theorem setValue_self (p : Pool) (i : Fin poolSize) : p.setValue i (p.slot i).value = p := by
  refine eq_of_slots (fun j => ?_) rfl rfl
  rw [slot_setValue]
  split
  next h => rw [h]
  next => rfl

theorem refreshSlots_of_steady {is : List (Fin poolSize)}
    (h : ∀ i ∈ is, (p.watchpoint i).Steady ctx) : p.refreshSlots ctx is = p := by
  induction is with
  | nil => rfl
  | cons i is ih =>
    obtain ⟨hi, his⟩ := List.forall_mem_cons.mp h
    obtain ⟨err, herr⟩ | hval := hi
    · have herr : Expr.eval ctx (p.slot i).expr.chars = .error err := herr
      simp only [refreshSlots, herr, ih his]
    · have hval : Expr.eval ctx (p.slot i).expr.chars = .ok (p.slot i).value := hval
      simp only [refreshSlots, hval, setValue_self, ih his]

/-- Where nothing changed there is nothing to refresh. -/
theorem refresh_of_steady (h : p.Steady ctx) : p.refresh ctx = p :=
  refreshSlots_of_steady fun _ hi => h _ (List.mem_map_of_mem hi)

theorem refresh_refresh (p : Pool) (ctx : Expr.Context) :
    (p.refresh ctx).refresh ctx = p.refresh ctx :=
  refresh_of_steady (p.refresh_steady ctx)

/-- The value of a change is the one that a refresh stores. -/
theorem refresh_store (h : hit ∈ p.changes ctx) : (p.store hit).refresh ctx = p.refresh ctx := by
  obtain ⟨w, hw, hchanged⟩ := mem_changes.mp h
  obtain ⟨i, hi, rfl⟩ := List.mem_map.mp hw
  have hno : hit.no = i.val := hchanged.no.trans (p.watchpoint_no i)
  rw [store_eq hno, refresh, refresh, active_setValue]
  obtain ⟨hhead, hfree⟩ := (p.setValue i hit.new).refreshSlots_ends ctx p.active
  obtain ⟨hhead', hfree'⟩ := p.refreshSlots_ends ctx p.active
  refine eq_of_watchpoints (fun j => ?_) (fun j => ?_) (hhead.trans hhead'.symm)
    (hfree.trans hfree'.symm)
  · rw [watchpoint_refreshSlots, watchpoint_refreshSlots, watchpoint_setValue]
    by_cases hj : i = j
    · subst hj
      rw [if_pos hi, if_pos rfl, if_pos hi, Watchpoint.refreshed_with_value ctx _ hchanged.new,
        hchanged.refreshed_eq]
    · rw [if_neg hj]
  · rw [next_refreshSlots, next_refreshSlots, next_setValue]

/-! ## Setting and deleting -/

/-- A watchpoint that is set has its current value. -/
theorem Layout.create_steady {e : List Char} {r : Except WatchError Watchpoint} (hl : Layout p as fs)
    (h : p.create ctx e = .ok (r, q)) (hall : p.Steady ctx) : q.Steady ctx := by
  have hroster := hl.create_roster ctx e
  rw [h] at hroster
  have hlist : q.toList = (p.roster.create ctx e).2.entries :=
    congrArg (·.2.entries) (Except.ok.inj hroster)
  rw [Steady, hlist]
  unfold Roster.create
  split
  · exact hall
  · split
    · exact hall
    · split
      · exact hall
      next value heval => exact List.forall_mem_cons.mpr ⟨.inr heval, hall⟩

theorem Layout.delete_steady {no : Nat} {r : Except WatchError Unit} (hl : Layout p as fs)
    (h : p.delete no = .ok (r, q)) (hall : p.Steady ctx) : q.Steady ctx := by
  have hroster := hl.delete_roster no
  rw [h] at hroster
  exact fun w hw => hall w ((Roster.delete_sublist hroster.symm).subset hw)

/-! ## Scans to the end -/

/-- Scans report the changes in order, and nothing after them; then the pool is as if it had been
refreshed. -/
theorem Layout.scanAll_eq (hl : Layout p as fs) {n : Nat} (hn : (p.changes ctx).length ≤ n) :
    p.scanAll ctx n =
      ((p.changes ctx).map some ++ List.replicate (n - (p.changes ctx).length) none,
        p.refresh ctx) := by
  induction n generalizing p with
  | zero =>
    have hc : p.changes ctx = [] := List.eq_nil_of_length_eq_zero (Nat.le_zero.mp hn)
    rw [hc, refresh_of_steady (changes_eq_nil.mp hc)]
    rfl
  | succ n ih =>
    cases hc : p.changes ctx with
    | nil =>
      have hrest := ih hl (hc ▸ Nat.zero_le n)
      rw [hc] at hrest
      simp only [scanAll, scan_of_steady (changes_eq_nil.mp hc), hrest]
      rfl
    | cons hit hits =>
      have hleft : (p.store hit).changes ctx = hits := hl.changes_store hc
      rw [hc, List.length_cons] at hn
      have hrest := ih (hl.store hit) (by rw [hleft]; omega)
      rw [hleft, refresh_store (hc ▸ List.mem_cons_self)] at hrest
      simp only [scanAll, scan_of_changes hc, hrest, List.length_cons, Nat.add_sub_add_right]
      rfl

/-- What scans in one context make of a pool, beside a refresh. -/
structure Drains (p : Pool) (ctx : Expr.Context) : Prop where
  /-- The changes are those of the watchpoints whose expressions have another value. -/
  changed (hit : WatchChange) : hit ∈ p.changes ctx ↔ ∃ w ∈ p.toList, w.Changed ctx hit
  /-- The newest come first. -/
  order : ((p.changes ctx).map (·.no)).Sublist (p.toList.map (·.no))
  /-- No watchpoint has two. -/
  once : ((p.changes ctx).map (·.no)).Nodup
  length_le : (p.changes ctx).length ≤ p.size
  /-- Scans report each of the changes and then nothing more, and leave what a refresh leaves. -/
  scans (n : Nat) : (p.changes ctx).length ≤ n → p.scanAll ctx n =
    ((p.changes ctx).map some ++ List.replicate (n - (p.changes ctx).length) none, p.refresh ctx)
  refreshed : (p.refresh ctx).scan ctx = (none, p.refresh ctx)
  idempotent : (p.refresh ctx).refresh ctx = p.refresh ctx
  /-- A refresh changes values only. -/
  labels : (p.refresh ctx).roster.labels = p.roster.labels
  /-- A watchpoint without a value keeps the old one. -/
  failing (w : Watchpoint) (err : Expr.Error) : w ∈ p.toList → Expr.eval ctx w.expr = .error err →
    w ∈ (p.scan ctx).2.toList ∧ w ∈ (p.refresh ctx).toList

theorem Layout.drains (hl : Layout p as fs) (ctx : Expr.Context) : p.Drains ctx where
  changed _ := mem_changes
  order := map_no_changes ctx p.toList
  once := hl.nodup_no.sublist (map_no_changes ctx p.toList)
  length_le := p.length_changes_le ctx
  scans _ := hl.scanAll_eq
  refreshed := scan_of_steady (p.refresh_steady ctx)
  idempotent := p.refresh_refresh ctx
  labels := by rw [refresh_roster, Roster.labels_refresh]
  failing _ _ hw herr := ⟨mem_scan_of_error hw herr, mem_refresh_of_error hw herr⟩

end Pool

end Monitor386
