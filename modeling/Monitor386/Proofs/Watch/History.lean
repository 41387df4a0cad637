import Mathlib
import Monitor386.Proofs.Watch.Layout

/-!
# Histories of the pool

A history is a list of calls of the operations, each with its own context. It is `Guarded` if it
deletes only while there is a watchpoint.

* `Layout.run`: an allowed call of a pool that is laid out returns, and leaves a pool that is laid
  out.
* `runAll_layout`: so do the calls of a guarded history from the pool without watchpoints, one after
  the other.
-/

namespace Monitor386.Pool

/-- A call of an operation. -/
inductive Op where
  | create (ctx : Expr.Context) (e : List Char)
  | delete (no : Nat)
  | scan (ctx : Expr.Context)
  | refresh (ctx : Expr.Context)

/-- What a call returns. -/
inductive Reply where
  | created (r : Except WatchError Watchpoint)
  | deleted (r : Except WatchError Unit)
  | scanned (hit : Option WatchChange)
  | refreshed

/-- There must be a watchpoint when one is deleted. -/
def Op.Allowed (p : Pool) : Op → Prop
  | delete _ => p.head ≠ none
  | _ => True

instance (p : Pool) : (op : Op) → Decidable (op.Allowed p)
  | .create _ _ | .scan _ | .refresh _ => .isTrue trivial
  | .delete _ => inferInstanceAs (Decidable (p.head ≠ none))

def Op.run (p : Pool) : Op → Except Abort (Reply × Pool)
  | create ctx e => do
    let (r, q) ← p.create ctx e
    pure (.created r, q)
  | delete no => do
    let (r, q) ← p.delete no
    pure (.deleted r, q)
  | scan ctx => pure (.scanned (p.scan ctx).1, (p.scan ctx).2)
  | refresh ctx => pure (.refreshed, p.refresh ctx)

/-- The calls of a history, with their replies. -/
def runAll (p : Pool) : List Op → Except Abort (List Reply × Pool)
  | [] => pure ([], p)
  | op :: ops => do
    let (reply, q) ← op.run p
    let (replies, r) ← q.runAll ops
    pure (reply :: replies, r)

/-- Each call is allowed when it is made. -/
def Guarded (p : Pool) : List Op → Prop
  | [] => True
  | op :: ops =>
    op.Allowed p ∧
      match op.run p with
      | .error _ => True
      | .ok (_, q) => q.Guarded ops

instance Guarded.decidable : (p : Pool) → (ops : List Op) → Decidable (p.Guarded ops)
  | _, [] => .isTrue trivial
  | p, op :: ops =>
    have : Decidable (match op.run p with
        | .error _ => True
        | .ok (_, q) => q.Guarded ops) :=
      match op.run p with
      | .error _ => .isTrue trivial
      | .ok (_, q) => Guarded.decidable q ops
    inferInstanceAs (Decidable (op.Allowed p ∧ _))

variable {p : Pool} {as fs : List (Fin poolSize)}

/-- An allowed call returns and keeps the pool laid out. -/
theorem Layout.run (h : Layout p as fs) {op : Op} (hop : op.Allowed p) :
    ∃ reply q as' fs', op.run p = .ok (reply, q) ∧ Layout q as' fs' := by
  cases op with
  | create ctx e =>
    obtain ⟨-, hc⟩ | ⟨-, -, hc⟩ | ⟨-, -, cause, -, hc⟩ |
      ⟨i, fs', value, q, -, -, -, hc, hq, -⟩ := h.create_eq ctx e
    · exact ⟨_, p, as, fs, by rw [Op.run, hc]; rfl, h⟩
    · exact ⟨_, p, as, fs, by rw [Op.run, hc]; rfl, h⟩
    · exact ⟨_, p, as, fs, by rw [Op.run, hc]; rfl, h⟩
    · exact ⟨_, q, i :: as, fs', by rw [Op.run, hc]; rfl, hq⟩
  | delete no =>
    have hne : as ≠ [] := by
      rintro rfl
      exact hop h.head_eq
    obtain ⟨bs, i, cs, q, -, -, hd, hq, -⟩ | ⟨-, hd⟩ := h.delete_eq hne no
    · exact ⟨_, q, bs ++ cs, i :: fs, by rw [Op.run, hd]; rfl, hq⟩
    · exact ⟨_, p, as, fs, by rw [Op.run, hd]; rfl, h⟩
  | scan ctx => exact ⟨_, _, as, fs, rfl, h.scan ctx⟩
  | refresh ctx => exact ⟨_, _, as, fs, rfl, h.refresh ctx⟩

/-- A text is too long only if the check of its length says so: one that passes the check fits into
the buffer. -/
theorem Layout.too_long (h : Layout p as fs) {ctx : Expr.Context} {e : List Char} {q : Pool}
    (hc : p.create ctx e = .ok (.error .expressionTooLong, q)) :
    watchCapacity ≤ Text.byteSize e := by
  obtain ⟨-, h'⟩ | ⟨-, hlong, -⟩ | ⟨-, -, cause, -, h'⟩ | ⟨i, fs', value, q, -, -, -, h', -⟩ :=
    h.create_eq ctx e
  · rw [hc] at h'
    cases h'
  · exact hlong
  · rw [hc] at h'
    cases h'
  · rw [hc] at h'
    cases h'

theorem Layout.runAll (h : Layout p as fs) {ops : List Op} (hops : p.Guarded ops) (k : Nat) :
    ∃ replies q as' fs', p.runAll (ops.take k) = .ok (replies, q) ∧ Layout q as' fs' := by
  induction ops generalizing p as fs k with
  | nil => exact ⟨[], p, as, fs, by rw [List.take_nil]; rfl, h⟩
  | cons op ops ih =>
    cases k with
    | zero => exact ⟨[], p, as, fs, rfl, h⟩
    | succ k =>
      obtain ⟨hop, hrest⟩ := hops
      obtain ⟨reply, q, as', fs', hq, hl⟩ := h.run hop
      rw [hq] at hrest
      obtain ⟨replies, r, as'', fs'', hr, hl'⟩ := ih hl hrest k
      refine ⟨reply :: replies, r, as'', fs'', ?_, hl'⟩
      rw [List.take_succ_cons, Pool.runAll, hq]
      simp only [bind, Except.bind, hr]
      rfl

/-- After each call of a guarded history every slot is on one of the two chains, and carries its
own number; no call aborts, and a text that passes the check of its length fits. -/
theorem runAll_layout (ops : List Op) (hops : Guarded .empty ops) (k : Nat) :
    ∃ replies p as fs, runAll .empty (ops.take k) = .ok (replies, p) ∧ Layout p as fs ∧
      (∀ i : Fin poolSize, (p.slot i).no = i) ∧
      ∀ ctx e q, p.create ctx e = .ok (.error .expressionTooLong, q) →
        watchCapacity ≤ Text.byteSize e := by
  obtain ⟨replies, p, as, fs, hrun, hl⟩ := Layout.empty.runAll hops k
  exact ⟨replies, p, as, fs, hrun, hl, p.slot_no, fun _ _ _ => hl.too_long⟩

/-- A slot that a watchpoint left is the next one that is taken, and the text of an expression that
fails stays nowhere. -/
theorem runAll_layout_reuse :
    let ctx : Expr.Context := ⟨fun _ => none, fun _ => none⟩
    let ops : List Op := [.create ctx "1".toList, .create ctx "2".toList, .create ctx "1/0".toList,
      .delete 0, .delete 7, .create ctx "3".toList, .refresh ctx, .scan ctx]
    Guarded .empty ops ∧ ∃ replies p fs,
      runAll .empty ops = .ok (replies, p) ∧ Layout p [0, 1] fs := by
  intro ctx ops
  have hops : Guarded .empty ops := by decide +kernel
  obtain ⟨replies, p, as, fs, hrun, hl, -, -⟩ := runAll_layout ops hops ops.length
  rw [List.take_length] at hrun
  have hactive : (runAll .empty ops).toOption.map (fun r => r.2.active) = some [0, 1] := by
    decide +kernel
  rw [hrun] at hactive
  obtain rfl : as = [0, 1] := hl.active_eq.symm.trans (Option.some.inj hactive)
  exact ⟨hops, replies, p, fs, hrun, hl⟩

end Monitor386.Pool
