import Aks3.Engine.LockOrder
import Aks3.Engine.Sample

/-!
# The lock tables while requests run together

In every state a pool can come to, whatever its tasks are asked, how their calls fail,
and wherever they are dropped or the process is killed, the lock tables and the tasks
agree on who refers to which lock (`Pool.Inv`). Mutual exclusion and the absence of
deadlock follow; that no entry is left over in the tables does not, since a task that is
dropped while it waits does not look at the entry.
-/

set_option autoImplicit false

namespace Aks3.Engine

open Lib

/-! ## What tables and tasks agree on -/

/-- The tables know of a task what its program has to do with them. -/
structure Knows (locks : LockTable LockName TaskId) (t : TaskId) (c : LockCtx) : Prop where
  waits : ∀ l, locks.Waits t l ↔ c.refd = some l
  holds : ∀ l m, locks.Holds t l m ↔ (l, m) ∈ c.held
  prunes : ∀ l, locks.Prunes t l ↔ c.prune = some l

/-- The rest of a task is orderly from `c` on, and its locals are those of `c`. -/
def Fits (c : LockCtx) : Task → Prop
  | .idle => c = .holding []
  | .run loc p => locksOf loc.owned = c.held ∧ loc.refd = c.refd ∧ Orderly (.holding []) c p
  | .busy loc _ _ k =>
    locksOf loc.owned = c.held ∧ loc.refd = none ∧ c.refd = none ∧ c.prune = none ∧
      ∀ r, Orderly (.holding []) c (k r)

/-- What a task has to do with the tables. -/
structure TaskCtx (locks : LockTable LockName TaskId) (t : TaskId) (task : Task) (c : LockCtx) :
    Prop where
  knows : Knows locks t c
  fits : Fits c task
  mode : ∀ x ∈ c.held, MayMode x.2 x.1
  nodup : c.held.Nodup

structure Pool.Inv (s : Pool) : Prop where
  ok : s.locks.Ok
  task : ∀ t, ∃ c, TaskCtx s.locks t (s.tasks t) c

theorem knows_empty (t : TaskId) : Knows (.empty LockName TaskId) t (.holding []) where
  waits l := by simp [LockTable.Waits, LockTable.empty, LockCtx.holding]
  holds l m := by simp [LockTable.Holds, LockTable.empty, LockCtx.holding]
  prunes l := by simp [LockTable.Prunes, LockTable.empty, LockCtx.holding]

theorem taskCtx_idle (t : TaskId) : TaskCtx (.empty LockName TaskId) t .idle (.holding []) :=
  ⟨knows_empty t, rfl, by simp [LockCtx.holding], .nil⟩

theorem Pool.inv_init (w : World OsName) : (Pool.init w).Inv :=
  ⟨LockTable.ok_empty, fun t => ⟨.holding [], taskCtx_idle t⟩⟩

/-! ## The locals -/

@[simp] theorem locksOf_cons_file (p : Path OsName) (owned : List Owned) :
    locksOf (.file p :: owned) = locksOf owned := rfl

@[simp] theorem locksOf_cons_lock (l : LockName) (m : Mode) (owned : List Owned) :
    locksOf (.lock l m :: owned) = (l, m) :: locksOf owned := rfl

theorem locksOf_erase_file (p : Path OsName) (owned : List Owned) :
    locksOf (owned.erase (.file p)) = locksOf owned := by
  induction owned with
  | nil => rfl
  | cons o owned ih =>
      rw [List.erase_cons]
      split
      · rename_i h
        rw [eq_of_beq h, locksOf_cons_file]
      · cases o with
        | lock l m => rw [locksOf_cons_lock, locksOf_cons_lock, ih]
        | file q => rw [locksOf_cons_file, locksOf_cons_file, ih]

/-- The last lock a task took is the first it gives back, whatever files it has. -/
theorem locksOf_erase_lock {l : LockName} {m : Mode} {owned : List Owned}
    {held : List (LockName × Mode)} (h : locksOf owned = (l, m) :: held) :
    locksOf (owned.erase (.lock l m)) = held := by
  induction owned with
  | nil => cases h
  | cons o owned ih =>
      cases o with
      | lock l' m' =>
          rw [locksOf_cons_lock] at h
          cases h
          rw [List.erase_cons_head]
      | file q =>
          rw [locksOf_cons_file] at h
          rw [List.erase_cons_tail (by simp), locksOf_cons_file, ih h]

theorem onSubmit_locks (loc : Locals) (c : Call) :
    locksOf (loc.onSubmit c).owned = locksOf loc.owned ∧ (loc.onSubmit c).refd = loc.refd := by
  cases c with
  | syncAll p =>
      simp only [Locals.onSubmit]
      split
      · exact ⟨locksOf_erase_file p _, rfl⟩
      · exact ⟨rfl, rfl⟩
  | _ => exact ⟨rfl, rfl⟩

theorem onReturn_locks (loc : Locals) (c : Call) (r : c.Res) :
    locksOf (loc.onReturn c r).owned = locksOf loc.owned ∧ (loc.onReturn c r).refd = loc.refd := by
  cases c with
  | openNew p => cases r <;> exact ⟨rfl, rfl⟩
  | rename src dst =>
      cases r with
      | error e => exact ⟨rfl, rfl⟩
      | ok u => exact ⟨locksOf_erase_file src _, rfl⟩
  | _ => exact ⟨rfl, rfl⟩

theorem onPrim_locks (loc : Locals) (o : Sys OsName LockName) :
    locksOf (loc.onPrim o).owned = locksOf loc.owned ∧ (loc.onPrim o).refd = loc.refd := by
  cases o with
  | unlink p => exact ⟨locksOf_erase_file p _, rfl⟩
  | _ => exact ⟨rfl, rfl⟩

/-! ## Steps of one task -/

section Steps

variable {s s' : Pool} {t : TaskId} {c c' : LockCtx} {locks : LockTable LockName TaskId}

@[simp] theorem Pool.tasks_set_self (s : Pool) (t : TaskId) (task : Task) :
    (s.set t task).tasks t = task := Function.update_self ..

theorem Pool.tasks_set_of_ne (s : Pool) {t u : TaskId} (task : Task) (h : u ≠ t) :
    (s.set t task).tasks u = s.tasks u := Function.update_of_ne h ..

/-- What a step of task `t` leaves to the others. -/
theorem Knows.of_leaves {u : TaskId} {waits : TaskId → LockName → Prop}
    {holds : TaskId → LockName → Mode → Prop} {prunes : TaskId → LockName → Prop}
    (h : Knows s.locks u c) (hl : LockTable.Leaves locks waits holds prunes)
    (hw : ∀ l, waits u l ↔ s.locks.Waits u l) (hh : ∀ l m, holds u l m ↔ s.locks.Holds u l m)
    (hp : ∀ l, prunes u l ↔ s.locks.Prunes u l) : Knows locks u c where
  waits l := (hl.waits u l).trans ((hw l).trans (h.waits l))
  holds l m := (hl.holds u l m).trans ((hh l m).trans (h.holds l m))
  prunes l := (hl.prunes u l).trans ((hp l).trans (h.prunes l))

/-- A step of task `t`, by what it does to the tables. -/
theorem Pool.Inv.set_locks (h : s.Inv) {task : Task} {waits : TaskId → LockName → Prop}
    {holds : TaskId → LockName → Mode → Prop} {prunes : TaskId → LockName → Prop}
    (hl : LockTable.Leaves locks waits holds prunes)
    (hw : ∀ u ≠ t, ∀ l, waits u l ↔ s.locks.Waits u l)
    (hh : ∀ u ≠ t, ∀ l m, holds u l m ↔ s.locks.Holds u l m)
    (hp : ∀ u ≠ t, ∀ l, prunes u l ↔ s.locks.Prunes u l) (hc : TaskCtx locks t task c) :
    ({ s with locks }.set t task).Inv := by
  refine ⟨hl.ok, fun u => ?_⟩
  by_cases hu : u = t
  · subst hu
    rw [Pool.tasks_set_self]
    exact ⟨c, hc⟩
  · obtain ⟨c', hc'⟩ := h.task u
    rw [Pool.tasks_set_of_ne _ _ hu]
    exact ⟨c', hc'.knows.of_leaves hl (hw u hu) (hh u hu) (hp u hu), hc'.fits, hc'.mode, hc'.nodup⟩

/-- A step of one task that leaves the tables alone. -/
theorem Pool.Inv.set (h : s.Inv) {task : Task} (hc : TaskCtx s.locks t task c) :
    (s.set t task).Inv := by
  have hsame : LockTable.Leaves s.locks s.locks.Waits s.locks.Holds s.locks.Prunes :=
    ⟨h.ok, fun _ _ => Iff.rfl, fun _ _ _ => Iff.rfl, fun _ _ => Iff.rfl⟩
  exact h.set_locks hsame (fun _ _ _ => Iff.rfl) (fun _ _ _ _ => Iff.rfl) (fun _ _ _ => Iff.rfl) hc

/-- The invariant is about tables and tasks only. -/
theorem Pool.Inv.congr (h : s.Inv) (hl : s'.locks = s.locks) (ht : s'.tasks = s.tasks) :
    s'.Inv := by
  refine ⟨hl ▸ h.ok, fun t => ?_⟩
  rw [hl, ht]
  exact h.task t

end Steps

/-! ## Steps on the tables -/

/-- A lock a task may ask for is none it has. -/
theorem MayTake.notMem {held : List (LockName × Mode)} {l : LockName} (h : MayTake held l)
    (m : Mode) : (l, m) ∉ held := by
  cases l with
  | bucket b =>
      rw [show held = [] from h]
      exact List.not_mem_nil
  | key b k =>
      rw [show held = [(.bucket b, .shared)] from h]
      simp

section LockSteps

variable {s s' : Pool} {t : TaskId} {loc : Locals} {l : LockName} {addr : Nat}
  {again p : EngineProg (Option Resp)} {c : LockCtx} {m : Mode}

theorem Pool.atLock_eq {f : LockObj LockName TaskId → Option Pool}
    (h : s.atLock l addr f = some s') : ∃ o, s.locks.obj addr = some o ∧
    o.name = l ∧ f o = some s' := by
  unfold Pool.atLock at h
  split at h
  · cases h
  · rename_i o ho
    split at h
    · rename_i hn
      exact ⟨o, ho, hn, h⟩
    · cases h

theorem Pool.Inv.refer (h : s.Inv) (hc : TaskCtx s.locks t (.run loc again) c)
    (hr : c.refd = none) (hp : c.prune = none)
    (hm : MayTake c.held l) (ho : Orderly (.holding []) ⟨c.held, some l, none⟩ p)
    (hs : s.lockStep t loc l addr again p .refer = some s') : s'.Inv := by
  obtain ⟨locks, hl, rfl⟩ := Option.map_eq_some_iff.mp hs
  have hk := hc.knows
  have hleaves := h.ok.refer hl
    ⟨by rw [hk.waits, hr]; simp, fun m => by rw [hk.holds]; exact hm.notMem m⟩
  refine h.set_locks hleaves (fun u hu l' => by simp [hu]) (fun u hu l' m => Iff.rfl)
    (fun u hu l' => Iff.rfl) (c := ⟨c.held, some l, none⟩)
      ⟨⟨fun l' => ?_, fun l' m => ?_, fun l' => ?_⟩,
      ⟨hc.fits.1, rfl, ho⟩, hc.mode, hc.nodup⟩
  · rw [hleaves.waits, hk.waits, hr]
    simp [eq_comm]
  · rw [hleaves.holds, hk.holds]
  · rw [hleaves.prunes, hk.prunes, hp]

theorem Pool.Inv.take (h : s.Inv) (hc : TaskCtx s.locks t (.run loc again) c)
    (hr : c.refd = some l) (hp : c.prune = none) (ht : MayTake c.held l) (hm : MayMode m l)
    (ho : Orderly (.holding []) (.holding ((l, m) :: c.held)) p)
    (hs : s.lockStep t loc l addr again p (.take m) = some s') : s'.Inv := by
  obtain ⟨o, hobj, hname, hs⟩ := Pool.atLock_eq hs
  have hk := hc.knows
  split at hs
  · obtain ⟨locks, hl, rfl⟩ := Option.map_eq_some_iff.mp hs
    have hleaves := h.ok.enqueue hl
    exact h.set_locks hleaves (fun u hu l' => Iff.rfl) (fun u hu l' m => Iff.rfl)
      (fun u hu l' => Iff.rfl) ⟨hk.of_leaves hleaves (fun _ => Iff.rfl) (fun _ _ => Iff.rfl)
        fun _ => Iff.rfl, hc.fits, hc.mode, hc.nodup⟩
  · obtain ⟨locks, hl, rfl⟩ := Option.map_eq_some_iff.mp hs
    obtain ⟨o', hobj', hleaves⟩ := h.ok.claim hl
    rw [hobj] at hobj'
    cases hobj'
    rw [hname] at hleaves
    refine Pool.Inv.congr (s := { s with locks }.set t (.run ⟨none, .lock l m :: loc.owned⟩ p))
      ?_ rfl rfl
    refine h.set_locks hleaves (fun u hu l' => by simp [hu]) (fun u hu l' m => by simp [hu])
      (fun u hu l' => Iff.rfl) (c := .holding ((l, m) :: c.held))
      ⟨⟨fun l' => ?_, fun l' m' => ?_, fun l' => ?_⟩, ⟨?_, rfl, ho⟩, ?_, ?_⟩
    · rw [hleaves.waits, hk.waits, hr]
      simp only [LockCtx.holding, reduceCtorEq, iff_false]
      rintro ⟨hl, hne⟩
      exact hne ⟨trivial, (Option.some.inj hl).symm⟩
    · rw [hleaves.holds, hk.holds]
      simp only [LockCtx.holding, List.mem_cons, Prod.mk.injEq, true_and]
      exact or_comm
    · rw [hleaves.prunes, hk.prunes, hp]
      rfl
    · rw [locksOf_cons_lock, hc.fits.1]
      rfl
    · simp only [LockCtx.holding, List.forall_mem_cons]
      exact ⟨hm, hc.mode⟩
    · exact List.nodup_cons.mpr ⟨ht.notMem m, hc.nodup⟩

theorem Pool.Inv.drop (h : s.Inv) {held : List (LockName × Mode)}
    (hc : TaskCtx s.locks t (.run loc again) c) (hr : c.refd = none) (hp : c.prune = none)
    (hheld : c.held = (l, m) :: held)
    (ho : Orderly (.holding []) ⟨held, none, some l⟩ p)
    (hs : s.lockStep t loc l addr again p (.drop m) = some s') : s'.Inv := by
  obtain ⟨o, hobj, hname, hs⟩ := Pool.atLock_eq hs
  obtain ⟨locks, hl, rfl⟩ := Option.map_eq_some_iff.mp hs
  have hk := hc.knows
  obtain ⟨o', hobj', hleaves⟩ := h.ok.release hl fun o' ho' => by rw [hk.prunes, hp]; simp
  rw [hobj] at hobj'
  cases hobj'
  rw [hname] at hleaves
  refine Pool.Inv.congr (s := { s with locks }.set t
    (.run { loc with owned := loc.owned.erase (.lock l m) } p)) ?_ rfl rfl
  refine h.set_locks hleaves (fun u hu l' => Iff.rfl) (fun u hu l' m => by simp [hu])
    (fun u hu l' => by simp [hu]) (c := ⟨held, none, some l⟩)
    ⟨⟨fun l' => ?_, fun l' m' => ?_, fun l' => ?_⟩, ⟨?_, hc.fits.2.1.trans hr, ho⟩,
      fun x hx => ?_, ?_⟩
  · rw [hleaves.waits, hk.waits, hr]
  · rw [hleaves.holds, hk.holds, hheld, List.mem_cons, Prod.mk.injEq]
    have hnd := List.nodup_cons.mp (hheld ▸ hc.nodup)
    constructor
    · rintro ⟨hx | hx, hne⟩
      · exact absurd ⟨rfl, hx⟩ hne
      · exact hx
    · refine fun hx => ⟨.inr hx, ?_⟩
      rintro ⟨-, rfl, rfl⟩
      exact hnd.1 hx
  · rw [hleaves.prunes, hk.prunes, hp]
    simp [eq_comm]
  · exact locksOf_erase_lock (hc.fits.1.trans hheld)
  · exact hc.mode x (hheld ▸ List.mem_cons_of_mem _ hx)
  · exact (List.nodup_cons.mp (hheld ▸ hc.nodup)).2

theorem Pool.Inv.unref (h : s.Inv) (hc : TaskCtx s.locks t (.run loc again) c)
    (hr : c.refd = some l) (hp : c.prune = none)
    (ho : Orderly (.holding []) (.holding c.held) p)
    (hs : s.lockStep t loc l addr again p .unref = some s') : s'.Inv := by
  obtain ⟨o, hobj, hname, hs⟩ := Pool.atLock_eq hs
  obtain ⟨locks, hl, rfl⟩ := Option.map_eq_some_iff.mp hs
  have hk := hc.knows
  obtain ⟨o', hobj', hleaves⟩ := h.ok.cancel hl
  rw [hobj] at hobj'
  cases hobj'
  rw [hname] at hleaves
  refine h.set_locks hleaves (fun u hu l' => by simp [hu]) (fun u hu l' m => Iff.rfl)
    (fun u hu l' => Iff.rfl) (c := .holding c.held)
    ⟨⟨fun l' => ?_, fun l' m' => ?_, fun l' => ?_⟩, ⟨hc.fits.1, rfl, ho⟩, hc.mode, hc.nodup⟩
  · rw [hleaves.waits, hk.waits, hr]
    simp only [LockCtx.holding, reduceCtorEq, iff_false]
    rintro ⟨hl, hne⟩
    exact hne ⟨trivial, (Option.some.inj hl).symm⟩
  · rw [hleaves.holds, hk.holds]
    rfl
  · rw [hleaves.prunes, hk.prunes, hp]
    rfl

theorem Pool.Inv.prune (h : s.Inv) (hc : TaskCtx s.locks t (.run loc again) c)
    (hr : c.refd = none) (hp : c.prune = some l) (ho : Orderly (.holding []) (.holding c.held) p)
    (hs : s.lockStep t loc l addr again p .prune = some s') : s'.Inv := by
  obtain ⟨locks, hl, rfl⟩ := Option.map_eq_some_iff.mp hs
  have hk := hc.knows
  have hleaves := h.ok.prune hl
  refine h.set_locks hleaves (fun u hu l' => Iff.rfl) (fun u hu l' m => Iff.rfl)
    (fun u hu l' => by simp [hu]) (c := .holding c.held)
    ⟨⟨fun l' => ?_, fun l' m' => ?_, fun l' => ?_⟩, ⟨hc.fits.1, hc.fits.2.1.trans hr, ho⟩, hc.mode,
      hc.nodup⟩
  · rw [hleaves.waits, hk.waits, hr]
    rfl
  · rw [hleaves.holds, hk.holds]
    rfl
  · rw [hleaves.prunes, hk.prunes, hp]
    simp only [LockCtx.holding, reduceCtorEq, iff_false]
    rintro ⟨hl, hne⟩
    exact hne ⟨trivial, (Option.some.inj hl).symm⟩

end LockSteps

/-! ## Every step -/

section Next

variable {env : Env OsName} {C : Crates} {s s' : Pool} {t : TaskId} {c : LockCtx}

/-- A step on the tables that the rest of an orderly program starts with. -/
theorem Pool.Inv.lockStep (h : s.Inv) {loc : Locals} {l : LockName} {step : LockStep} {addr : Nat}
    {k : Unit → EngineProg (Option Resp)}
    (hc : TaskCtx s.locks t (.run loc (.op (.prim (.lock l step)) k)) c)
    (hs : s.lockStep t loc l addr (.op (.prim (.lock l step)) k) (k ()) step = some s') :
    s'.Inv := by
  have ho := hc.fits.2.2
  cases step with
  | refer => exact h.refer hc ho.1 ho.2.1 ho.2.2.1 ho.2.2.2 hs
  | take m => exact h.take hc ho.1 ho.2.1 ho.2.2.1 ho.2.2.2.1 ho.2.2.2.2 hs
  | drop m =>
      obtain ⟨hr, hp, held, hheld, ho⟩ := ho
      exact h.drop hc hr hp hheld ho hs
  | unref => exact h.unref hc ho.1 ho.2.1 ho.2.2 hs
  | prune => exact h.prune hc ho.1 ho.2.1 ho.2.2 hs

/-- A step of one task that leaves the tables and its locks alone. -/
theorem Pool.Inv.go (h : s.Inv) {task : Task} (hc : TaskCtx s.locks t (s.tasks t) c)
    (hf : Fits c task) : (s.set t task).Inv :=
  h.set ⟨hc.knows, hf, hc.mode, hc.nodup⟩

theorem Pool.Inv.taskStep (h : s.Inv) {addr : Nat} {fault : Option (IoError × Nat)}
    (hs : s.taskStep env t addr fault = some s') : s'.Inv := by
  obtain ⟨c, hc⟩ := h.task t
  unfold Pool.taskStep at hs
  cases htask : s.tasks t with
  | idle =>
      rw [htask] at hs
      cases hs
  | busy loc call job k =>
      have hf := hc.fits
      rw [htask] at hs hf
      obtain ⟨hown, href, hcr, hcp, ho⟩ := hf
      cases job with
      | pure r =>
          cases hs
          obtain ⟨hl, hr⟩ := onReturn_locks loc call r
          exact h.go hc ⟨hl.trans hown, (hr.trans href).trans hcr.symm, ho r⟩
      | op o j =>
          obtain ⟨x, -, rfl⟩ := Option.map_eq_some_iff.mp hs
          refine Pool.Inv.congr (s := s.set t (.busy loc call (j x.1) k)) ?_ rfl rfl
          exact h.go hc ⟨hown, href, hcr, hcp, ho⟩
  | run loc p =>
      have hf := hc.fits
      rw [htask] at hs hf
      obtain ⟨hown, href, ho⟩ := hf
      cases p with
      | pure resp =>
          cases hs
          refine Pool.Inv.congr (s := s.set t .idle) ?_ rfl rfl
          exact h.go hc ho
      | op o k =>
          cases o with
          | call call =>
              cases hs
              obtain ⟨hl, hr⟩ := onSubmit_locks loc call
              exact h.go hc
                ⟨hl.trans hown, (hr.trans href).trans ho.1, ho.1, ho.2.1, fun r => ho.2.2 r⟩
          | prim o =>
              cases o with
              | lock l step =>
                  rw [htask] at hc
                  exact h.lockStep hc hs
              | _ =>
                  obtain ⟨x, -, rfl⟩ := Option.map_eq_some_iff.mp hs
                  refine Pool.Inv.congr (s := s.set t (.run (loc.onPrim _) (k x.1))) ?_ rfl rfl
                  obtain ⟨hl, hr⟩ := onPrim_locks loc _
                  exact h.go hc ⟨hl.trans hown, hr.trans href, ho.2.2 _⟩

theorem Pool.Inv.start (h : s.Inv) {r : Req} (hs : s.start C t r = some s') : s'.Inv := by
  obtain ⟨c, hc⟩ := h.task t
  have hgo : s.tasks t = .idle → (s.set t (.run .empty (some <$> serve C r))).Inv := by
    intro hidle
    have hf := hc.fits
    rw [hidle] at hf
    obtain rfl : c = .holding [] := hf
    exact h.go hc ⟨rfl, rfl, (orderly_serve C r).map⟩
  unfold Pool.start at hs
  split at hs
  · rename_i hidle _
    cases hs
    exact (hgo hidle).congr rfl rfl
  · cases hs
  · rename_i hidle _ _
    cases hs
    exact (hgo hidle).congr rfl rfl
  · cases hs

/-- A dropped task has nothing left to do but to give back its locks. -/
theorem Pool.Inv.drop_task (h : s.Inv) (hs : s.drop t = some s') : s'.Inv := by
  obtain ⟨c, hc⟩ := h.task t
  have hf := hc.fits
  unfold Pool.drop at hs
  cases htask : s.tasks t with
  | idle =>
      rw [htask] at hs
      cases hs
  | busy loc call job k =>
      rw [htask] at hs hf
      cases hs
      obtain ⟨hown, href, hcr, hcp, -⟩ := hf
      refine Pool.Inv.congr (s := s.set t (.run loc loc.cleanup)) ?_ rfl rfl
      refine h.go hc ⟨hown, href.trans hcr.symm, ?_⟩
      have hclean := orderly_cleanup loc
      rwa [hown, href.trans hcr.symm, ← hcp] at hclean
  | run loc p =>
      rw [htask] at hs hf
      dsimp only at hs
      split at hs
      swap
      · cases hs
      rename_i hawait
      cases hs
      obtain ⟨hown, href, ho⟩ := hf
      refine Pool.Inv.congr (s := s.set t (.run loc loc.cleanup)) ?_ rfl rfl
      refine h.go hc ⟨hown, href, ?_⟩
      -- Where a task awaits something, it has no entry to look at.
      have hp : c.prune = none := by
        unfold Pool.awaits at hawait
        split at hawait
        · rename_i heq
          cases heq
        · rename_i heq
          cases heq
          exact ho.2.1
        · rename_i heq
          cases heq
          exact ho.2.1
        · cases hawait
      have hclean := orderly_cleanup loc
      rwa [hown, href, ← hp] at hclean

/-- **Every step keeps tables and tasks in agreement.** -/
theorem Pool.Inv.next (h : s.Inv) {l : Label} (hs : s.next env C l = some s') : s'.Inv := by
  cases l with
  | start t r => exact h.start hs
  | step t addr fault => exact h.taskStep hs
  | grant addr =>
      obtain ⟨locks, hl, rfl⟩ := Option.map_eq_some_iff.mp hs
      have hleaves := h.ok.grant hl
      refine ⟨hleaves.ok, fun t => ?_⟩
      obtain ⟨c, hc⟩ := h.task t
      exact ⟨c, hc.knows.of_leaves hleaves (fun _ => Iff.rfl) (fun _ _ => Iff.rfl)
        (fun _ => Iff.rfl), hc.fits, hc.mode, hc.nodup⟩
  | drop t => exact h.drop_task hs
  | orphan i fault =>
      change s.orphan env i fault = some s' at hs
      unfold Pool.orphan at hs
      split at hs
      · cases hs
      · cases hs
        exact h.congr rfl rfl
      · obtain ⟨x, -, rfl⟩ := Option.map_eq_some_iff.mp hs
        exact h.congr rfl rfl
  | clock now =>
      cases hs
      exact h.congr rfl rfl
  | kill =>
      cases hs
      exact (Pool.inv_init s.world).congr rfl rfl

/-- **So tables and tasks agree in every state a schedule comes to.** -/
theorem Pool.inv_run (ls : List Label) : ∀ {s : Pool}, s.Inv →
    s.run env C ls = some s' → s'.Inv := by
  induction ls with
  | nil =>
      intro s h hs
      cases hs
      exact h
  | cons l ls ih =>
      intro s h hs
      obtain ⟨s₁, hs₁, hs⟩ := Option.bind_eq_some_iff.mp hs
      exact ih (h.next hs₁) hs

end Next

/-! ## Mutual exclusion -/

/-- The locals of a task. -/
def Task.locals : Task → Locals
  | .idle => .empty
  | .run loc _ => loc
  | .busy loc _ _ _ => loc

/-- A task waits for a lock: it has a reference and no guard. -/
def Task.Waits (task : Task) (l : LockName) : Prop := task.locals.refd = some l

/-- A task holds a lock: it has the guard. -/
def Task.Holds (task : Task) (l : LockName) (m : Mode) : Prop := (l, m) ∈ locksOf task.locals.owned

section Results

variable {env : Env OsName} {C : Crates} {s : Pool} {t : TaskId} {c : LockCtx}

theorem TaskCtx.locals (hc : TaskCtx s.locks t (s.tasks t) c) :
    (s.tasks t).locals.refd = c.refd ∧ locksOf (s.tasks t).locals.owned = c.held := by
  have hf := hc.fits
  cases htask : s.tasks t with
  | idle =>
      rw [htask] at hf
      obtain rfl : c = .holding [] := hf
      exact ⟨rfl, rfl⟩
  | run loc p =>
      rw [htask] at hf
      exact ⟨hf.2.1, hf.1⟩
  | busy loc call job k =>
      rw [htask] at hf
      exact ⟨hf.2.1.trans hf.2.2.1.symm, hf.1⟩

theorem Pool.Inv.waits_iff (h : s.Inv) (l : LockName) :
    (s.tasks t).Waits l ↔ s.locks.Waits t l := by
  obtain ⟨c, hc⟩ := h.task t
  rw [Task.Waits, hc.locals.1, hc.knows.waits]

theorem Pool.Inv.holds_iff (h : s.Inv) (l : LockName) (m : Mode) :
    (s.tasks t).Holds l m ↔ s.locks.Holds t l m := by
  obtain ⟨c, hc⟩ := h.task t
  rw [Task.Holds, hc.locals.2, hc.knows.holds]

theorem Pool.Inv.key_exclusive (h : s.Inv) {b k : String} {m : Mode}
    (hh : (s.tasks t).Holds (.key b k) m) : m = .exclusive := by
  obtain ⟨c, hc⟩ := h.task t
  rw [Task.Holds, hc.locals.2] at hh
  exact hc.mode _ hh

/-- **Mutual exclusion.** All tasks that hold the lock of a name or wait for it refer to
one lock, which is the one in the table; a key is locked by one task at a time; and a
task that holds the lock of a bucket exclusively is the only one that holds it. -/
theorem locks_exclude (w : World OsName) (ls : List Label)
    (hs : (Pool.init w).run env C ls = some s) :
    (∀ l, ∃ id, ∀ t, ((s.tasks t).Waits l ∨ ∃ m, (s.tasks t).Holds l m) →
      s.locks.entry l = some id ∧ (∃ o, s.locks.obj id = some o ∧ t ∈ o.clients) ∧
        ∀ id' o, s.locks.obj id' = some o → o.name = l → t ∈ o.clients → id' = id) ∧
    (∀ b k t u m m', (s.tasks t).Holds (.key b k) m → (s.tasks u).Holds (.key b k) m' → u = t) ∧
    ∀ b t u m, (s.tasks t).Holds (.bucket b) .exclusive → (s.tasks u).Holds (.bucket b) m →
      u = t := by
  have h := Pool.inv_run ls (Pool.inv_init w) hs
  refine ⟨fun l => ?_, fun b k t u m m' ht hu => ?_, fun b t u m ht hu => ?_⟩
  · cases he : s.locks.entry l with
    | none =>
        refine ⟨0, fun t ht => ?_⟩
        rw [h.waits_iff, h.ok.waits_iff] at ht
        simp only [h.holds_iff, h.ok.holds_iff, LockTable.lockOf, he,
          Option.bind_none, reduceCtorEq,
          false_and, exists_false, or_self] at ht
    | some id =>
        refine ⟨id, fun t ht => ⟨rfl, ?_, fun id' o ho hn _ => ?_⟩⟩
        · obtain ⟨o, ho, hn⟩ := h.ok.entry l id he
          refine ⟨o, ho, ?_⟩
          rw [h.waits_iff, ← hn, h.ok.waits_name ho] at ht
          simp only [h.holds_iff, h.ok.holds_name ho] at ht
          rcases ht with hw | ⟨m, hm⟩
          · exact List.mem_append_left _ hw
          · exact List.mem_append_right _ (List.mem_map.mpr ⟨_, hm, rfl⟩)
        · obtain ⟨o', ho', hn'⟩ := h.ok.entry l id he
          exact (h.ok.one_lock ho ho' (hn.trans hn'.symm)).1
  · have hm := h.key_exclusive ht
    subst hm
    rw [h.holds_iff] at ht hu
    exact (h.ok.exclusive ht hu).1
  · rw [h.holds_iff] at ht hu
    exact (h.ok.exclusive ht hu).1

end Results

/-- Task 0 opens the engine. -/
def opened : List Label := .start 0 .openEngine :: List.replicate 41 (.step 0 0 none)

def steps (t : TaskId) (n : Nat) : List Label := List.replicate n (.step t 0 none)

/-- Task 1 has the lock of a bucket, and task 2 waits for it. -/
def contended : List Label :=
  opened ++ [.start 1 (.deleteBucket "abc")] ++ steps 1 2 ++ [.grant 0] ++ steps 1 1 ++
    [.start 2 (.deleteBucket "abc")] ++ steps 2 2

theorem locks_exclude_contended : ∃ s, (Pool.init (World.empty OsName)).run sampleEnv sampleCrates
    contended = some s ∧ (s.tasks 2).Waits (.bucket "abc") ∧
      (s.tasks 1).Holds (.bucket "abc") .exclusive ∧
      ∀ u m, (s.tasks u).Holds (.bucket "abc") m → u = 1 := by
  have hrun : ((Pool.init (World.empty OsName)).run sampleEnv sampleCrates contended).any
      (fun s => decide ((s.tasks 2).locals.refd = some (.bucket "abc")) &&
        decide ((LockName.bucket "abc", Mode.exclusive) ∈ locksOf (s.tasks 1).locals.owned)) =
      true := by decide +kernel
  obtain ⟨s, hs, hend⟩ := (Option.any_eq_true ..).mp hrun
  simp only [Bool.and_eq_true, decide_eq_true_eq] at hend
  exact ⟨s, hs, hend.1, hend.2, fun u m hu =>
    (locks_exclude (World.empty OsName) contended hs).2.2 "abc" 1 u m hend.2 hu⟩

end Aks3.Engine
