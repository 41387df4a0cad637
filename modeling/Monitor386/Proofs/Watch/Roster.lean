import Mathlib
import Monitor386.Proofs.Watch.History

/-!
# The pool as a plain list

A `Roster` is a list of watchpoints, the newest first, beside a stack of the numbers that are free.
Its operations say what those of the pool answer and do, with no slots and no links.
`Pool.roster` reads the roster off the two chains of a pool.

* `Layout.create_roster`, `Layout.delete_roster`, `scan_roster`, `refresh_roster`: an operation of the
  pool is the operation of its roster.
* `runAll_eq_roster`: every history of calls has the replies, the list and the abort of the roster's,
  and a call that fails changes nothing, not even the number that comes next.
-/

namespace Monitor386

namespace Watchpoint

/-- The change of the watchpoint in a context, from the stored value to the value there. -/
def change? (ctx : Expr.Context) (w : Watchpoint) : Option WatchChange :=
  match Expr.eval ctx w.expr with
  | .error _ => none
  | .ok new => if new = w.value then none else some ⟨w.no, w.expr, w.value, new⟩

/-- The watchpoint with the value of its expression in a context, if there is one. -/
def refreshed (ctx : Expr.Context) (w : Watchpoint) : Watchpoint :=
  match Expr.eval ctx w.expr with
  | .error _ => w
  | .ok value => { w with value }

end Watchpoint

/-- The watchpoints, the newest first, and the free numbers, the next one first. -/
structure Roster where
  entries : List Watchpoint
  free : List Nat
  deriving DecidableEq

namespace Roster

/-- No watchpoints, and all numbers in order. -/
def initial : Roster := ⟨[], List.range poolSize⟩

def create (r : Roster) (ctx : Expr.Context) (e : List Char) :
    Except WatchError Watchpoint × Roster :=
  match r.free with
  | [] => (.error .poolExhausted, r)
  | no :: free =>
    if watchCapacity ≤ Text.byteSize e then (.error .expressionTooLong, r)
    else
      match Expr.eval ctx e with
      | .error cause => (.error (.badExpression cause), r)
      | .ok value => (.ok ⟨no, e, value⟩, ⟨⟨no, e, value⟩ :: r.entries, free⟩)

def delete (r : Roster) (no : Nat) : Except Abort (Except WatchError Unit × Roster) :=
  if r.entries = [] then .error .nothingToDelete
  else if r.entries.any (·.no = no) then
    .ok (.ok (), ⟨r.entries.eraseP (·.no = no), no :: r.free⟩)
  else .ok (.error (.notFound no), r)

/-- Reports the first change, and stores the new value. -/
def scan (r : Roster) (ctx : Expr.Context) : Option WatchChange × Roster :=
  match r.entries.findSome? (·.change? ctx) with
  | none => (none, r)
  | some hit =>
    (some hit, { r with
      entries := r.entries.map fun w => if w.no = hit.no then { w with value := hit.new } else w })

def refresh (r : Roster) (ctx : Expr.Context) : Roster :=
  { r with entries := r.entries.map (·.refreshed ctx) }

/-- What a change of values leaves alone: numbers and expressions, in order, and the free numbers. -/
def labels (r : Roster) : List (Nat × List Char) × List Nat :=
  (r.entries.map fun w => (w.no, w.expr), r.free)

/-- A call of an operation, with its reply. -/
def run (r : Roster) : Pool.Op → Except Abort (Pool.Reply × Roster)
  | .create ctx e => .ok (.created (r.create ctx e).1, (r.create ctx e).2)
  | .delete no => (r.delete no).map fun (x, r) => (.deleted x, r)
  | .scan ctx => .ok (.scanned (r.scan ctx).1, (r.scan ctx).2)
  | .refresh ctx => .ok (.refreshed, r.refresh ctx)

/-- The calls of a history, with their replies. -/
def runAll (r : Roster) : List Pool.Op → Except Abort (List Pool.Reply × Roster)
  | [] => .ok ([], r)
  | op :: ops => do
    let (reply, r) ← r.run op
    let (replies, r) ← r.runAll ops
    pure (reply :: replies, r)

end Roster

/-! ## Changes and values -/

section

variable {ctx : Expr.Context} {w : Watchpoint} {ws : List Watchpoint} {hit : WatchChange}

theorem Watchpoint.Steady.change?_eq (h : w.Steady ctx) : w.change? ctx = none := by
  obtain ⟨err, herr⟩ | hval := h
  · simp only [change?, herr]
  · simp only [change?, hval, ↓reduceIte]

theorem Watchpoint.Changed.change?_eq (h : w.Changed ctx hit) : w.change? ctx = some hit := by
  obtain ⟨no, expr, old, new⟩ := hit
  obtain ⟨rfl, rfl, rfl, hnew, hne⟩ := h
  simp only at hnew hne
  simp only [change?, hnew, hne, ↓reduceIte]

theorem findSome?_change_of_steady (h : ∀ w ∈ ws, w.Steady ctx) :
    ws.findSome? (·.change? ctx) = none :=
  List.findSome?_eq_none_iff.mpr fun w hw => (h w hw).change?_eq

theorem Fires.findSome?_change (h : Fires ctx ws hit) :
    ws.findSome? (·.change? ctx) = some hit := by
  induction h with
  | first h => rw [List.findSome?_cons, h.change?_eq]
  | later hs _ ih => rw [List.findSome?_cons, hs.change?_eq, ih]

/-- Only the expression decides the value that a watchpoint takes. -/
theorem Watchpoint.refreshed_with_value (ctx : Expr.Context) (w : Watchpoint) {value : UInt32}
    (h : Expr.eval ctx w.expr = .ok value) :
    ({ w with value } : Watchpoint).refreshed ctx = { w with value } := by
  simp only [refreshed, h]

end

namespace Roster

theorem labels_scan (r : Roster) (ctx : Expr.Context) : (r.scan ctx).2.labels = r.labels := by
  unfold scan
  split
  · rfl
  · rw [labels, List.map_map]
    refine congrArg (·, r.free) (List.map_congr_left fun w _ => ?_)
    rw [Function.comp_apply]
    split <;> rfl

theorem labels_refresh (r : Roster) (ctx : Expr.Context) : (r.refresh ctx).labels = r.labels := by
  rw [labels, refresh, List.map_map]
  refine congrArg (·, r.free) (List.map_congr_left fun w _ => ?_)
  rw [Function.comp_apply, Watchpoint.refreshed]
  split <;> rfl

end Roster

namespace Pool

/-- The roster of a pool: what stands on the active chain, and the numbers on the free one. -/
def roster (p : Pool) : Roster :=
  ⟨p.toList, p.available.map Fin.val⟩

variable {p q : Pool} {as fs : List (Fin poolSize)}

theorem Layout.roster_eq (h : Layout p as fs) :
    p.roster = ⟨as.map p.watchpoint, fs.map Fin.val⟩ := by
  rw [roster, toList, h.active_eq, h.available_eq]

/-- The roster of the pool without watchpoints. -/
theorem roster_empty : Pool.empty.roster = .initial := by
  rw [Layout.empty.roster_eq, List.map_nil, Roster.initial, List.map_coe_finRange_eq_range]

/-! ## The operations -/

theorem Layout.create_roster (h : Layout p as fs) (ctx : Expr.Context) (e : List Char) :
    (p.create ctx e).map (Prod.map id roster) = .ok (p.roster.create ctx e) := by
  obtain ⟨rfl, hc⟩ | ⟨hne, hlong, hc⟩ | ⟨hne, hshort, cause, heval, hc⟩ |
    ⟨i, fs', value, q, rfl, hshort, heval, hc, hq, hself, hother⟩ := h.create_eq ctx e
  · simp only [hc, Except.map, Prod.map, id, Roster.create, h.roster_eq, List.map_nil]
  · obtain ⟨i, fs, rfl⟩ := List.exists_cons_of_ne_nil hne
    simp only [hc, Except.map, Prod.map, id, Roster.create, h.roster_eq, List.map_cons, hlong,
      ↓reduceIte]
  · obtain ⟨i, fs, rfl⟩ := List.exists_cons_of_ne_nil hne
    simp only [hc, Except.map, Prod.map, id, Roster.create, h.roster_eq, List.map_cons,
      hshort.not_ge, heval, ↓reduceIte]
  · have has : as.map q.watchpoint = as.map p.watchpoint := by
      refine List.map_congr_left fun j hj => hother j ?_
      rintro rfl
      exact h.disjoint hj List.mem_cons_self
    simp only [hc, Except.map, Prod.map, id, Roster.create, h.roster_eq, hq.roster_eq,
      List.map_cons, hshort.not_ge, heval, hself, has, ↓reduceIte]

/-- An expression that cannot be watched leaves no trace. -/
theorem Layout.create_error (h : Layout p as fs) {ctx : Expr.Context} {e : List Char}
    {cause : WatchError} (hc : p.create ctx e = .ok (.error cause, q)) : q = p := by
  obtain ⟨-, h'⟩ | ⟨-, -, h'⟩ | ⟨-, -, cause, -, h'⟩ | ⟨i, fs', value, q, -, -, -, h', -⟩ :=
    h.create_eq ctx e
  · cases hc.symm.trans h'
    rfl
  · cases hc.symm.trans h'
    rfl
  · cases hc.symm.trans h'
    rfl
  · cases hc.symm.trans h'

theorem Layout.delete_roster (h : Layout p as fs) (no : Nat) :
    (p.delete no).map (Prod.map id roster) = p.roster.delete no := by
  by_cases hne : as = []
  · subst hne
    have hhead : p.head = none := h.head_eq
    rw [Pool.delete, if_pos hhead, h.roster_eq]
    rfl
  have hentries : as.map p.watchpoint ≠ [] := by simpa using hne
  obtain ⟨bs, i, cs, q, rfl, rfl, hd, hq, hother⟩ | ⟨hno, hd⟩ := h.delete_eq hne no
  · obtain ⟨hibs, hics, -⟩ := h.not_mem
    have hany : ((bs ++ i :: cs).map p.watchpoint).any (·.no = i.val) = true := by
      simp [watchpoint_no]
    -- the numbers in the chain differ, so the first match is the slot itself
    have hbs : ∀ w ∈ bs.map p.watchpoint, ¬ decide (w.no = i.val) = true := by
      intro w hw
      obtain ⟨j, hj, rfl⟩ := List.mem_map.mp hw
      rw [watchpoint_no, decide_eq_true_iff, Fin.val_inj]
      exact ne_of_mem_of_not_mem hj hibs
    have hrest : (bs ++ cs).map q.watchpoint = (bs ++ cs).map p.watchpoint := by
      refine List.map_congr_left fun j hj => hother j ?_
      rintro rfl
      exact (List.mem_append.mp hj).elim hibs hics
    have herase : ((bs ++ i :: cs).map p.watchpoint).eraseP (·.no = i.val) =
        (bs ++ cs).map q.watchpoint := by
      rw [hrest, List.map_append, List.map_cons, List.eraseP_append_right _ hbs,
        List.eraseP_cons_of_pos (by simp [watchpoint_no]), List.map_append]
    rw [hd, h.roster_eq, Roster.delete, if_neg hentries, if_pos hany, herase]
    simp only [Except.map, Prod.map, id, hq.roster_eq, List.map_cons]
  -- no slot in the chain has the number
  · have hany : ¬ (as.map p.watchpoint).any (·.no = no) = true := by
      simpa [watchpoint_no] using hno
    rw [hd, h.roster_eq, Roster.delete, if_neg hentries, if_neg hany]
    simp only [Except.map, Prod.map, id, h.roster_eq]

/-- A number that no watchpoint has leaves no trace. -/
theorem Layout.delete_error (h : Layout p as fs) {no : Nat} {cause : WatchError}
    (hd : p.delete no = .ok (.error cause, q)) : q = p := by
  by_cases hne : as = []
  · have hhead : p.head = none := h.head_eq.trans (by rw [hne]; rfl)
    rw [Pool.delete, if_pos hhead] at hd
    cases hd
  · obtain ⟨bs, i, cs, q, -, -, h', -⟩ | ⟨-, h'⟩ := h.delete_eq hne no
    · cases hd.symm.trans h'
    · cases hd.symm.trans h'
      rfl

theorem available_store (p : Pool) (hit : WatchChange) :
    (p.store hit).available = p.available := by
  unfold Pool.store
  split
  · exact chain_setValue p _ _ _ _
  · rfl

theorem scan_roster (p : Pool) (ctx : Expr.Context) :
    Prod.map id roster (p.scan ctx) = p.roster.scan ctx := by
  obtain ⟨hall, hscan⟩ | ⟨hit, hfires, hscan⟩ := p.scan_eq ctx
  · simp only [hscan, Prod.map, id, Roster.scan, roster, findSome?_change_of_steady hall]
  · simp only [hscan, Prod.map, id, Roster.scan, roster, hfires.findSome?_change, toList_store,
      available_store]

/-- Slots that are refreshed hold their current values, and no other slot changes. -/
theorem watchpoint_refreshSlots (p : Pool) (ctx : Expr.Context) (is : List (Fin poolSize))
    (j : Fin poolSize) :
    (p.refreshSlots ctx is).watchpoint j =
      if j ∈ is then (p.watchpoint j).refreshed ctx else p.watchpoint j := by
  induction is generalizing p with
  | nil => rfl
  | cons i is ih =>
    have heq : ∀ j, (p.watchpoint j).expr = (p.slot j).expr.chars := fun _ => rfl
    cases heval : Expr.eval ctx (p.slot i).expr.chars with
    | error err =>
      simp only [refreshSlots, heval, ih, List.mem_cons]
      by_cases hj : j = i
      · subst hj
        simp [Watchpoint.refreshed, heq, heval]
      · simp [hj]
    | ok value =>
      simp only [refreshSlots, heval, ih, List.mem_cons, watchpoint_setValue]
      by_cases hj : i = j
      · subst hj
        rw [if_pos rfl, Watchpoint.refreshed_with_value ctx _ heval]
        simp [Watchpoint.refreshed, heq, heval]
      · simp [hj, Ne.symm hj]

theorem chain_refreshSlots (p : Pool) (ctx : Expr.Context) (is : List (Fin poolSize)) (n : Nat)
    (start : Option (Fin poolSize)) : (p.refreshSlots ctx is).chain n start = p.chain n start := by
  induction is generalizing p with
  | nil => rfl
  | cons i is ih =>
    unfold refreshSlots
    split
    · exact ih p
    · rw [ih, chain_setValue]

theorem refreshSlots_ends (p : Pool) (ctx : Expr.Context) (is : List (Fin poolSize)) :
    (p.refreshSlots ctx is).head = p.head ∧ (p.refreshSlots ctx is).free = p.free := by
  induction is generalizing p with
  | nil => exact ⟨rfl, rfl⟩
  | cons i is ih =>
    unfold refreshSlots
    split
    · exact ih p
    · exact ih (p.setValue i _)

/-- The watchpoints take their current values, and nothing else is seen of a refresh. -/
theorem toList_refresh (p : Pool) (ctx : Expr.Context) :
    (p.refresh ctx).toList = p.toList.map (·.refreshed ctx) := by
  have hactive : (p.refresh ctx).active = p.active := by
    rw [active, refresh, chain_refreshSlots, (p.refreshSlots_ends ctx p.active).1, ← active]
  rw [toList, hactive, toList, List.map_map]
  refine List.map_congr_left fun j hj => ?_
  rw [refresh, watchpoint_refreshSlots, if_pos hj, Function.comp_apply]

theorem refresh_roster (p : Pool) (ctx : Expr.Context) :
    (p.refresh ctx).roster = p.roster.refresh ctx := by
  have havailable : (p.refresh ctx).available = p.available := by
    rw [available, refresh, chain_refreshSlots, (p.refreshSlots_ends ctx p.active).2, ← available]
  rw [roster, toList_refresh, havailable]
  rfl

/-! ## Histories -/

theorem Layout.run_roster (h : Layout p as fs) (op : Op) :
    (op.run p).map (Prod.map id roster) = p.roster.run op := by
  cases op with
  | create ctx e =>
    have hc := h.create_roster ctx e
    cases hp : p.create ctx e with
    | error a =>
      rw [hp] at hc
      cases hc
    | ok x =>
      rw [hp] at hc
      rw [Op.run, hp, Roster.run, ← Except.ok.inj hc]
      rfl
  | delete no =>
    rw [Op.run, Roster.run, ← h.delete_roster no]
    cases p.delete no <;> rfl
  | scan ctx =>
    rw [Op.run, Roster.run, ← scan_roster]
    rfl
  | refresh ctx =>
    rw [Op.run, Roster.run, ← refresh_roster]
    rfl

/-- A call that returns was allowed. -/
theorem Op.allowed_of_run {op : Op} {r : Reply × Pool} (h : op.run p = .ok r) : op.Allowed p := by
  cases op with
  | delete no =>
    intro hhead
    rw [Op.run, Pool.delete, if_pos hhead] at h
    cases h
  | _ => trivial

theorem Layout.of_runAll (h : Layout p as fs) {ops : List Op} {replies : List Reply}
    (hrun : p.runAll ops = .ok (replies, q)) : ∃ as' fs', Layout q as' fs' := by
  induction ops generalizing p as fs replies with
  | nil =>
    cases hrun
    exact ⟨as, fs, h⟩
  | cons op ops ih =>
    obtain ⟨r, hr, hrun⟩ := bind_eq_ok.mp hrun
    obtain ⟨r', hr', hrun⟩ := bind_eq_ok.mp hrun
    obtain ⟨reply, q', as', fs', hq, hl⟩ := h.run (Op.allowed_of_run hr)
    obtain rfl : r = (reply, q') := Except.ok.inj (hr.symm.trans hq)
    cases hrun
    exact ih hl hr'

theorem Layout.runAll_roster (h : Layout p as fs) (ops : List Op) :
    (p.runAll ops).map (Prod.map id roster) = p.roster.runAll ops := by
  induction ops generalizing p as fs with
  | nil => rfl
  | cons op ops ih =>
    have hop := h.run_roster op
    rw [Pool.runAll, Roster.runAll, ← hop]
    cases hr : op.run p with
    | error a => rfl
    | ok r =>
      obtain ⟨reply, q, as', fs', hq, hl⟩ := h.run (Op.allowed_of_run hr)
      obtain rfl : r = (reply, q) := Except.ok.inj (hr.symm.trans hq)
      have hrest := ih hl
      simp only [Except.map, bind, Except.bind, Prod.map, id, ← hrest]
      cases q.runAll ops <;> rfl

/-- Every history of calls has the replies and the abort of the roster's, and leaves its list and its
free numbers. A call that fails changes nothing, and to scan or to refresh changes no more than
values. -/
theorem runAll_eq_roster (ops : List Op) :
    (runAll .empty ops).map (Prod.map id roster) = Roster.initial.runAll ops ∧
    ∀ replies p, runAll .empty ops = .ok (replies, p) →
      p.toList = p.roster.entries ∧ p.size = p.roster.entries.length ∧
      p.isEmpty = p.roster.entries.isEmpty ∧
      (∀ ctx e cause q, p.create ctx e = .ok (.error cause, q) → q = p) ∧
      (∀ no cause q, p.delete no = .ok (.error cause, q) → q = p) ∧
      ∀ ctx, (p.scan ctx).2.roster.labels = p.roster.labels ∧
        (p.refresh ctx).roster.labels = p.roster.labels := by
  refine ⟨?_, fun replies p hrun => ?_⟩
  · rw [← roster_empty]
    exact Layout.empty.runAll_roster ops
  obtain ⟨as, fs, hl⟩ := Layout.empty.of_runAll hrun
  refine ⟨rfl, ?_, ?_, fun _ _ _ _ => hl.create_error, fun _ _ _ => hl.delete_error,
    fun ctx => ⟨?_, ?_⟩⟩
  · rw [size, roster, toList, List.length_map]
  · rw [isEmpty, hl.head_eq, hl.roster_eq]
    cases as <;> rfl
  · have hscan := congrArg Prod.snd (scan_roster p ctx)
    rw [Prod.map_snd] at hscan
    rw [hscan, Roster.labels_scan]
  · rw [refresh_roster, Roster.labels_refresh]

/-- The number of a watchpoint that was deleted is the next one that is handed out; neither an
expression that fails nor a number that is not there changes that. -/
theorem runAll_eq_roster_reuse :
    let ctx : Expr.Context := ⟨fun _ => none, fun _ => none⟩
    let ops : List Op := [.create ctx "1".toList, .create ctx "2".toList, .delete 0,
      .create ctx "1/0".toList, .delete 7, .create ctx "3".toList, .create ctx "4".toList]
    ∃ replies p, runAll .empty ops = .ok (replies, p) ∧ p.size = 3 ∧
      p.toList = [⟨2, "4".toList, 4⟩, ⟨0, "3".toList, 3⟩, ⟨1, "2".toList, 2⟩] ∧
      p.roster.free = (List.range 29).map (· + 3) := by
  intro ctx ops
  obtain ⟨hrun, hcalls⟩ := runAll_eq_roster ops
  have hplain : (Roster.initial.runAll ops).toOption.map Prod.snd =
      some ⟨[⟨2, "4".toList, 4⟩, ⟨0, "3".toList, 3⟩, ⟨1, "2".toList, 2⟩],
        (List.range 29).map (· + 3)⟩ := by
    decide +kernel
  rw [← hrun] at hplain
  cases hp : runAll .empty ops with
  | error a =>
    rw [hp] at hplain
    cases hplain
  | ok r =>
    obtain ⟨replies, p⟩ := r
    rw [hp] at hplain
    have hroster : p.roster = _ := Option.some.inj hplain
    obtain ⟨-, hsize, -⟩ := hcalls replies p hp
    rw [hroster] at hsize
    exact ⟨replies, p, rfl, hsize, congrArg Roster.entries hroster, congrArg Roster.free hroster⟩

end Pool

end Monitor386
