import Mathlib
import Monitor386.Proofs.Expr.Observing
import Monitor386.Proofs.Watch.Exhausting

/-!
# Watchpoints that never fire

`Pool.Still p e` says that no watchpoint on an expression changes in any context. For an expression
without registers and dereferences the operations of the pool keep this.

* `Layout.run_still`: one operation keeps the watchpoints on such an expression still.
* `Layout.runAll_still`: no scan of a history reports one.
* `eval_observes`: an expression observes what it names and what it dereferences.
-/

namespace Monitor386

theorem Fires.exists_changed {ctx : Expr.Context} {ws : List Watchpoint} {hit : WatchChange}
    (h : Fires ctx ws hit) : ∃ w ∈ ws, w.Changed ctx hit := by
  induction h with
  | @first w _ _ hchanged => exact ⟨w, List.mem_cons_self, hchanged⟩
  | later _ _ ih =>
    obtain ⟨w, hw, hchanged⟩ := ih
    exact ⟨w, List.mem_cons_of_mem _ hw, hchanged⟩

namespace Pool

/-- No watchpoint on the expression changes, whatever the context. -/
def Still (p : Pool) (e : List Char) : Prop :=
  ∀ w ∈ p.toList, w.expr = e → ∀ ctx, w.Steady ctx

variable {p q : Pool} {e : List Char} {as fs : List (Fin poolSize)} {op : Op} {ops : List Op}
  {reply : Reply} {replies : List Reply}

theorem still_empty (e : List Char) : empty.Still e := by
  have hnil : empty.toList = [] := rfl
  rw [Still, hnil]
  exact fun w hw => absurd hw List.not_mem_nil

theorem Layout.delete_still (h : Layout p as fs) {no : Nat} {r : Except WatchError Unit}
    (hdelete : p.delete no = .ok (r, q)) (hp : p.Still e) : q.Still e := by
  have hroster := h.delete_roster no
  rw [hdelete] at hroster
  exact fun w hw => hp w ((Roster.delete_sublist hroster.symm).subset hw)

/-- A scan passes over watchpoints that are still. -/
theorem scan_still (ctx : Expr.Context) (hp : p.Still e) :
    (p.scan ctx).2.Still e ∧ ∀ hit, (p.scan ctx).1 = some hit → hit.expr ≠ e := by
  obtain ⟨-, hscan⟩ | ⟨hit, hfires, hscan⟩ := p.scan_eq ctx
  · rw [hscan]
    exact ⟨hp, nofun⟩
  obtain ⟨w, hw, hchanged⟩ : ∃ w ∈ p.toList, w.Changed ctx hit :=
    hfires.exists_changed
  have hne : w.expr ≠ e := fun heq => hchanged.not_steady (hp w hw heq ctx)
  rw [hscan]
  refine ⟨fun w' hw' hexpr => ?_, fun hit' hhit => ?_⟩
  · rw [toList_store] at hw'
    obtain ⟨w₀, hw₀, rfl⟩ := List.mem_map.mp hw'
    split_ifs at hexpr ⊢ with hno
    · obtain rfl := eq_of_no_eq hw₀ hw (hno.trans hchanged.no)
      exact absurd hexpr hne
    · exact hp w₀ hw₀ hexpr
  · cases hhit
    rw [hchanged.expr]
    exact hne

section

variable (hconst : ∀ c₁ c₂ : Expr.Context, Expr.eval c₁ e = Expr.eval c₂ e)
include hconst

/-- One context stands for all. -/
theorem steady_of_constant {w : Watchpoint} {ctx : Expr.Context} (hw : w.expr = e)
    (h : w.Steady ctx) (ctx' : Expr.Context) : w.Steady ctx' := by
  subst hw
  rw [Watchpoint.Steady, hconst ctx' ctx]
  exact h

theorem Layout.create_still (h : Layout p as fs) {ctx : Expr.Context} {e' : List Char}
    {r : Except WatchError Watchpoint} (hcreate : p.create ctx e' = .ok (r, q)) (hp : p.Still e) :
    q.Still e := by
  have hroster := h.create_roster ctx e'
  rw [hcreate] at hroster
  have hlist : q.toList = (p.roster.create ctx e').2.entries :=
    congrArg (·.2.entries) (Except.ok.inj hroster)
  rw [Still, hlist]
  unfold Roster.create
  split
  · exact hp
  · split
    · exact hp
    · split
      · exact hp
      next value heval =>
        exact List.forall_mem_cons.mpr ⟨fun hw => steady_of_constant hconst hw (.inr heval), hp⟩

theorem refresh_still (p : Pool) (ctx : Expr.Context) : (p.refresh ctx).Still e := by
  intro w hw hexpr
  exact steady_of_constant hconst hexpr (p.refresh_steady ctx w hw)

/-- An operation keeps the watchpoints on the expression still, and does not report one. -/
theorem Layout.run_still (h : Layout p as fs) (hrun : op.run p = .ok (reply, q)) (hp : p.Still e) :
    q.Still e ∧ ∀ hit, reply = .scanned (some hit) → hit.expr ≠ e := by
  cases op with
  | create ctx e' =>
    obtain ⟨⟨r, q'⟩, hcreate, hpure⟩ := bind_eq_ok.mp hrun
    cases hpure
    exact ⟨h.create_still hconst hcreate hp, nofun⟩
  | delete no =>
    obtain ⟨⟨r, q'⟩, hdelete, hpure⟩ := bind_eq_ok.mp hrun
    cases hpure
    exact ⟨h.delete_still hdelete hp, nofun⟩
  | scan ctx =>
    cases hrun
    obtain ⟨hstill, hhit⟩ := scan_still ctx hp
    exact ⟨hstill, fun hit heq => hhit hit (Reply.scanned.inj heq)⟩
  | refresh ctx =>
    cases hrun
    exact ⟨refresh_still hconst p ctx, nofun⟩

theorem Layout.runAll_still (h : Layout p as fs) (hrun : p.runAll ops = .ok (replies, q))
    (hp : p.Still e) : ∀ hit, Reply.scanned (some hit) ∈ replies → hit.expr ≠ e := by
  induction ops generalizing p as fs replies with
  | nil =>
    cases hrun
    exact fun hit hmem => absurd hmem List.not_mem_nil
  | cons op ops ih =>
    obtain ⟨⟨reply, p'⟩, hop, hrun⟩ := bind_eq_ok.mp hrun
    obtain ⟨⟨replies', q'⟩, hops, hpure⟩ := bind_eq_ok.mp hrun
    cases hpure
    obtain ⟨reply', p'', as', fs', hop', hl⟩ := h.run (Op.allowed_of_run hop)
    cases hop.symm.trans hop'
    obtain ⟨hstill, hhit⟩ := h.run_still hconst hop hp
    intro hit hmem
    obtain heq | hmem := List.mem_cons.mp hmem
    · exact hhit hit heq.symm
    · exact ih hl hops hstill hit hmem

end

end Pool

namespace Expr

/-- An expression observes the registers that it names and the words that it dereferences, and nothing
else: contexts that agree in these give it the same value or the same error. The words that it
dereferences are those without which it fails there. An expression without dereferences does not depend
on the memory, and a watchpoint on one that names no register either is never reported. -/
theorem eval_observes (e : List Char) :
    (∀ c₁ c₂ : Context,
      (∀ name, Names e name →
        c₁.register (String.ofList name) = c₂.register (String.ofList name)) →
      (∀ a ∈ dereferences c₁ e, c₁.read a = c₂.read a) →
      eval c₁ e = eval c₂ e ∧ dereferences c₁ e = dereferences c₂ e) ∧
    (∀ ctx a, a ∈ dereferences ctx e ↔ eval (ctx.hide a) e = .error (.badAddress a)) ∧
    (¬ HasDeref e → ∀ (ctx : Context) read, eval { ctx with read } e = eval ctx e) ∧
    (¬ HasDeref e → (∀ name, ¬ Names e name) →
      ∀ ops replies p, Pool.runAll .empty ops = .ok (replies, p) →
        ∀ hit, Pool.Reply.scanned (some hit) ∈ replies → hit.expr ≠ e) := by
  refine ⟨fun c₁ c₂ hregister hread => eval_congr hregister hread, fun ctx a => mem_dereferences_iff,
    fun hderef ctx read => ?_, fun hderef hname ops replies p hrun => ?_⟩
  · exact eval_congr_of_not_hasDeref hderef fun _ _ => rfl
  · have hconst (c₁ c₂ : Context) : eval c₁ e = eval c₂ e :=
      eval_congr_of_not_hasDeref hderef fun name hmem => absurd hmem (hname name)
    exact Pool.Layout.empty.runAll_still hconst hrun (Pool.still_empty e)

/-- Contexts that agree in a register and in one word, and a watchpoint on a sum of numbers. -/
theorem eval_observes_sum :
    let c₁ : Context := ⟨fun name => if name = "eax" then some 4 else none,
      fun a => if a = 8 then some 7 else none⟩
    let c₂ : Context := ⟨fun _ => some 4, fun a => some (a - 1)⟩
    let e := "*($eax + 4)".toList
    let sum := "1+2".toList
    let ops : List Pool.Op := [.create c₁ sum, .scan c₂, .refresh c₁, .scan c₂]
    (∀ name, Names e name → c₁.register (String.ofList name) = c₂.register (String.ofList name)) ∧
    (∀ a ∈ dereferences c₁ e, c₁.read a = c₂.read a) ∧ eval c₂ e = eval c₁ e ∧ eval c₁ e = .ok 7 ∧
    eval (c₁.hide 8) e = .error (.badAddress 8) ∧
    ¬ HasDeref sum ∧ (∀ name, ¬ Names sum name) ∧
    eval ⟨c₁.register, c₂.read⟩ sum = eval c₁ sum ∧
    ∃ replies p, Pool.runAll .empty ops = .ok (replies, p) ∧ replies.length = 4 ∧
      ∀ hit, Pool.Reply.scanned (some hit) ∈ replies → hit.expr ≠ sum := by
  intro c₁ c₂ e sum ops
  have htokens : tokens e = .ok [.unary .deref, .opening, .register "eax".toList, .binary .add,
      .literal .decimal ['4'], .closing] := eq_ok_of_toOption (by decide +kernel)
  have hsum : tokens sum = .ok [.literal .decimal ['1'], .binary .add, .literal .decimal ['2']] :=
    eq_ok_of_toOption (by decide +kernel)
  -- the only register of the expression is the accumulator
  have hregister : ∀ name, Names e name →
      c₁.register (String.ofList name) = c₂.register (String.ofList name) := by
    intro name hname
    obtain rfl : name = "eax".toList := by simpa using (names_iff htokens name).mp hname
    rfl
  have hderefs : dereferences c₁ e = [8] := by decide +kernel
  have hread : ∀ a ∈ dereferences c₁ e, c₁.read a = c₂.read a := by
    rw [hderefs]
    exact List.forall_mem_singleton.mpr (by decide)
  have hvalue : eval c₁ e = .ok 7 := eq_ok_of_toOption (by decide +kernel)
  have hderef : ¬ HasDeref sum := by
    rw [hasDeref_iff hsum]
    decide
  have hname : ∀ name, ¬ Names sum name := by
    intro name
    rw [names_iff hsum]
    simp
  have hrun : (Pool.runAll .empty ops).toOption.map (·.1.length) = some 4 := by decide +kernel
  obtain ⟨⟨replies, p⟩, hrun, hlen⟩ := Option.map_eq_some_iff.mp hrun
  have hrun := eq_ok_of_toOption hrun
  obtain ⟨hagree, hhide, -, -⟩ := eval_observes e
  obtain ⟨-, -, hmemory, hstill⟩ := eval_observes sum
  exact ⟨hregister, hread, (hagree c₁ c₂ hregister hread).1.symm, hvalue,
    (hhide c₁ 8).mp (hderefs ▸ List.mem_singleton_self 8), hderef, hname, hmemory hderef c₁ c₂.read,
    replies, p, hrun, hlen, hstill hderef hname ops replies p hrun⟩

end Expr

end Monitor386
