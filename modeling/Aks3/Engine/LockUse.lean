import Aks3.Engine.Locking

/-!
# What is left in the lock tables

An entry is taken out of a table by a task that had the lock. A task that is dropped while
it waits gives up its reference and looks no further, so the entry is left over when it was
the last to refer to it (`waiter_leaves_entry`). Nothing else leaves an entry
(`entries_used_iff`).
-/

set_option autoImplicit false

namespace Aks3.Engine

open Lib

/-! ## Who uses a lock -/

/-- A task is in the middle of giving back a lock: it has yet to look at the entry. -/
def Task.Releases (task : Task) (l : LockName) : Prop :=
  ∃ loc k, task = .run loc (.op (.prim (.lock l .prune)) k)

/-- A task holds a lock, waits for it, or is giving it back. -/
def Task.Uses (task : Task) (l : LockName) : Prop :=
  task.Waits l ∨ (∃ m, task.Holds l m) ∨ task.Releases l

theorem not_uses_idle (l : LockName) : ¬ Task.idle.Uses l := by
  rintro (h | ⟨m, h⟩ | ⟨loc, k, h⟩)
  · cases h
  · cases h
  · cases h

section Uses

variable {s s' : Pool} {t : TaskId} {c : LockCtx}

theorem TaskCtx.releases (hc : TaskCtx s.locks t (s.tasks t) c) (l : LockName) :
    (s.tasks t).Releases l ↔ c.prune = some l := by
  have hf := hc.fits
  constructor
  · rintro ⟨loc, k, htask⟩
    rw [htask] at hf
    exact hf.2.2.2.1
  · intro hp
    cases htask : s.tasks t with
    | idle =>
        rw [htask] at hf
        rw [show c = .holding [] from hf] at hp
        cases hp
    | busy loc call job k =>
        rw [htask] at hf
        rw [hf.2.2.2.1] at hp
        cases hp
    | run loc p =>
        rw [htask] at hf
        have ho := hf.2.2
        -- Between the two steps of giving back a lock an orderly program does nothing else.
        cases p with
        | pure resp =>
            rw [show c = .holding [] from ho] at hp
            cases hp
        | op o k =>
            cases o with
            | call call =>
                rw [ho.2.1] at hp
                cases hp
            | prim o =>
                cases o with
                | lock l' step =>
                    cases step with
                    | prune =>
                        rw [ho.2.1] at hp
                        cases hp
                        exact ⟨loc, k, rfl⟩
                    | _ =>
                        rw [ho.2.1] at hp
                        cases hp
                | _ =>
                    rw [ho.2.1] at hp
                    cases hp

/-- What the tables know of their users is what the tasks do. -/
theorem Pool.Inv.uses_iff (h : s.Inv) (l : LockName) :
    (s.tasks t).Uses l ↔ s.locks.Uses t l := by
  obtain ⟨c, hc⟩ := h.task t
  simp only [Task.Uses, LockTable.Uses, h.waits_iff, h.holds_iff, hc.releases, hc.knows.prunes]

end Uses

/-! ## Steps that leave no entry over -/

/-- Where a dropped task gives up a reference, another task uses the lock. -/
def Pool.LeavesUser (s : Pool) : Label → Prop
  | .step t _ _ =>
    ∀ loc l k, s.tasks t = .run loc (.op (.prim (.lock l .unref)) k) →
      ∃ u ≠ t, (s.tasks u).Uses l
  | _ => True

/-- Every step of a schedule meets a condition on the state before it. -/
def Pool.Meets (P : Pool → Label → Prop) (env : Env OsName) (C : Crates) : Pool → List Label → Prop
  | _, [] => True
  | s, l :: ls => P s l ∧ ∀ s', s.next env C l = some s' → s'.Meets P env C ls

instance decidableMeets (P : Pool → Label → Prop) [∀ s, DecidablePred (P s)] (env : Env OsName)
    (C : Crates) : ∀ (s : Pool) (ls : List Label), Decidable (s.Meets P env C ls)
  | _, [] => isTrue trivial
  | s, l :: ls =>
    have : DecidablePred fun s' : Pool => s'.Meets P env C ls := fun s' =>
      decidableMeets P env C s' ls
    inferInstanceAs (Decidable (P s l ∧ ∀ s' ∈ s.next env C l, s'.Meets P env C ls))

/-- Every entry is used by some task. -/
def Pool.EntriesUsed (s : Pool) : Prop :=
  ∀ l, s.locks.entry l ≠ none → ∃ t, (s.tasks t).Uses l

theorem Pool.Inv.entriesUsed_iff {s : Pool} (h : s.Inv) : s.EntriesUsed ↔ s.locks.NoneLeft := by
  simp only [Pool.EntriesUsed, LockTable.NoneLeft, h.uses_iff]

section Steps

variable {env : Env OsName} {C : Crates} {s s' : Pool} {t : TaskId} {c : LockCtx}

theorem Pool.Inv.noneLeft_lockStep (h : s.Inv) (hn : s.locks.NoneLeft) {loc : Locals} {l : LockName}
    {step : LockStep} {addr : Nat} {k : Unit → EngineProg (Option Resp)}
    (htask : s.tasks t = .run loc (.op (.prim (.lock l step)) k))
    (hleft : step = .unref → ∃ u ≠ t, (s.tasks u).Uses l)
    (hs : s.lockStep t loc l addr (.op (.prim (.lock l step)) k) (k ()) step = some s') :
    s'.locks.NoneLeft := by
  obtain ⟨c, hc⟩ := h.task t
  rw [htask] at hc
  have ho := hc.fits.2.2
  have hk := hc.knows
  cases step with
  | refer =>
      obtain ⟨locks, hl, rfl⟩ := Option.map_eq_some_iff.mp hs
      exact hn.refer h.ok hl
        ⟨by rw [hk.waits, ho.1]; simp, fun m => by rw [hk.holds]; exact ho.2.2.1.notMem m⟩
  | take m =>
      obtain ⟨o, -, -, hs⟩ := Pool.atLock_eq hs
      split at hs
      · obtain ⟨locks, hl, rfl⟩ := Option.map_eq_some_iff.mp hs
        exact hn.of_leaves (LockTable.onObj_entry hl) (h.ok.enqueue hl)
      · obtain ⟨locks, hl, rfl⟩ := Option.map_eq_some_iff.mp hs
        exact hn.claim h.ok hl
  | drop m =>
      obtain ⟨o, -, -, hs⟩ := Pool.atLock_eq hs
      obtain ⟨locks, hl, rfl⟩ := Option.map_eq_some_iff.mp hs
      exact hn.release h.ok hl fun o _ => by rw [hk.prunes, ho.2.1]; simp
  | unref =>
      obtain ⟨o, hobj, hname, hs⟩ := Pool.atLock_eq hs
      obtain ⟨locks, hl, rfl⟩ := Option.map_eq_some_iff.mp hs
      refine hn.cancel h.ok hl fun o' ho' => ?_
      rw [hobj] at ho'
      cases ho'
      obtain ⟨u, hu, huse⟩ := hleft rfl
      exact ⟨u, hu, hname ▸ (h.uses_iff l).mp huse⟩
  | prune =>
      obtain ⟨locks, hl, rfl⟩ := Option.map_eq_some_iff.mp hs
      exact hn.prune h.ok hl

/-- A step of a task is a step on the tables, or leaves them alone. -/
theorem Pool.taskStep_locks {addr : Nat} {fault : Option (IoError × Nat)}
    (hs : s.taskStep env t addr fault = some s') :
    (∃ loc l step k, s.tasks t = .run loc (.op (.prim (.lock l step)) k) ∧
      s.lockStep t loc l addr (.op (.prim (.lock l step)) k) (k ()) step = some s') ∨
    s'.locks = s.locks := by
  unfold Pool.taskStep at hs
  split at hs
  · cases hs
  · cases hs
    exact .inr rfl
  · obtain ⟨x, -, rfl⟩ := Option.map_eq_some_iff.mp hs
    exact .inr rfl
  · cases hs
    exact .inr rfl
  · cases hs
    exact .inr rfl
  · rename_i loc l step k htask
    exact .inl ⟨loc, l, step, k, htask, hs⟩
  · obtain ⟨x, -, rfl⟩ := Option.map_eq_some_iff.mp hs
    exact .inr rfl

theorem Pool.start_locks {r : Req} (hs : s.start C t r = some s') : s'.locks = s.locks := by
  unfold Pool.start at hs
  split at hs
  · cases hs
    rfl
  · cases hs
  · cases hs
    rfl
  · cases hs

theorem Pool.drop_locks (hs : s.drop t = some s') : s'.locks = s.locks := by
  unfold Pool.drop at hs
  split at hs
  · cases hs
    rfl
  · split at hs
    · cases hs
      rfl
    · cases hs
  · cases hs

theorem Pool.orphan_locks {i : Nat} {fault : Option (IoError × Nat)}
    (hs : s.orphan env i fault = some s') : s'.locks = s.locks := by
  unfold Pool.orphan at hs
  split at hs
  · cases hs
  · cases hs
    rfl
  · obtain ⟨x, -, rfl⟩ := Option.map_eq_some_iff.mp hs
    rfl

theorem Pool.Inv.noneLeft_next (h : s.Inv) (hn : s.locks.NoneLeft) {label : Label}
    (hleft : s.LeavesUser label) (hs : s.next env C label = some s') : s'.locks.NoneLeft := by
  cases label with
  | start t r => exact Pool.start_locks hs ▸ hn
  | step t addr fault =>
      rcases Pool.taskStep_locks hs with ⟨loc, l, step, k, htask, hs⟩ | hl
      · refine h.noneLeft_lockStep hn htask (fun hstep => ?_) hs
        subst hstep
        exact hleft loc l k htask
      · exact hl ▸ hn
  | grant addr =>
      obtain ⟨locks, hl, rfl⟩ := Option.map_eq_some_iff.mp hs
      exact hn.of_leaves (LockTable.onObj_entry hl) (h.ok.grant hl)
  | drop t => exact Pool.drop_locks hs ▸ hn
  | orphan i fault => exact Pool.orphan_locks hs ▸ hn
  | clock now =>
      cases hs
      exact hn
  | kill =>
      cases hs
      exact LockTable.noneLeft_empty

theorem Pool.noneLeft_run (ls : List Label) : ∀ {s : Pool}, s.Inv → s.locks.NoneLeft →
    s.Meets Pool.LeavesUser env C ls → s.run env C ls = some s' → s'.locks.NoneLeft := by
  induction ls with
  | nil =>
      intro s h hn _ hs
      cases hs
      exact hn
  | cons l ls ih =>
      intro s h hn hm hs
      obtain ⟨s₁, hs₁, hs⟩ := Option.bind_eq_some_iff.mp hs
      exact ih (h.next hs₁) (h.noneLeft_next hn hm.1 hs₁) (hm.2 s₁ hs₁) hs

/-- The step that fails the condition leaves its entry over. -/
theorem Pool.Inv.entry_left (h : s.Inv) {label : Label} (hleft : ¬ s.LeavesUser label)
    (hs : s.next env C label = some s') :
    ∃ l, s'.locks.entry l ≠ none ∧ ∀ u, ¬ (s'.tasks u).Uses l := by
  cases label with
  | step t addr fault =>
      simp only [Pool.LeavesUser, not_forall] at hleft
      obtain ⟨loc, l, k, htask, hnone⟩ := hleft
      have h' := h.next hs
      simp only [Pool.next, Pool.taskStep, htask] at hs
      obtain ⟨o, hobj, hname, hs⟩ := Pool.atLock_eq hs
      obtain ⟨locks, hl, rfl⟩ := Option.map_eq_some_iff.mp hs
      obtain ⟨o', hobj', hleaves⟩ := h.ok.cancel hl
      rw [hobj] at hobj'
      cases hobj'
      have hentry : locks.entry = s.locks.entry := LockTable.onObj_entry hl
      refine ⟨l, ?_, fun u hu => ?_⟩
      · change locks.entry l ≠ none
        rw [hentry, ← hname, h.ok.obj addr o hobj]
        simp
      · rw [h'.uses_iff] at hu
        change locks.Uses u l at hu
        simp only [LockTable.Uses, hleaves.waits, hleaves.holds, hleaves.prunes] at hu
        obtain ⟨c, hc⟩ := h.task t
        rw [htask] at hc
        have ho := hc.fits.2.2
        by_cases hut : u = t
        · subst hut
          have hw : s.locks.Waits u l := (hc.knows.waits l).mpr ho.1
          rcases hu with ⟨-, hne⟩ | ⟨m, hm⟩ | hp
          · exact hne ⟨rfl, hname.symm⟩
          · exact h.ok.not_holds_of_waits hw hm
          · rw [hc.knows.prunes, ho.2.1] at hp
            cases hp
        · exact hnone ⟨u, hut, (h.uses_iff l).mpr (hu.imp_left And.left)⟩
  | _ => exact absurd trivial hleft

end Steps

/-- **Which entries are left over.** As long as every dropped task that gives up a reference
leaves another task that uses the lock, every entry is used, and no request in flight means no
entry at all. The first step that does not do so leaves an entry that no task uses. -/
theorem entries_used_iff (env : Env OsName) (C : Crates) (w : World OsName) :
    (∀ ls s, (Pool.init w).run env C ls = some s →
      (Pool.init w).Meets Pool.LeavesUser env C ls →
        s.EntriesUsed ∧ ((∀ t, s.tasks t = .idle) → ∀ l, s.locks.entry l = none)) ∧
    ∀ ls s label s', (Pool.init w).run env C ls = some s → s.next env C label = some s' →
      ¬ s.LeavesUser label → ¬ s'.EntriesUsed := by
  refine ⟨fun ls s hs hm => ?_, fun ls s label s' hs hs' hleft hused => ?_⟩
  · have h := Pool.inv_run ls (Pool.inv_init w) hs
    have hused := h.entriesUsed_iff.mpr
      (Pool.noneLeft_run ls (Pool.inv_init w) LockTable.noneLeft_empty hm hs)
    refine ⟨hused, fun hidle l => ?_⟩
    by_contra hne
    obtain ⟨t, ht⟩ := hused l hne
    rw [hidle t] at ht
    exact not_uses_idle l ht
  · obtain ⟨l, hne, hnone⟩ := (Pool.inv_run ls (Pool.inv_init w) hs).entry_left hleft hs'
    obtain ⟨t, ht⟩ := hused l hne
    exact hnone t ht

/-! ## A waiter that leaves an entry -/

/-- The task a step is of. -/
def Label.task : Label → Option TaskId
  | .start t _ => some t
  | .step t _ _ => some t
  | .drop t => some t
  | _ => none

section Tasks

variable {env : Env OsName} {C : Crates} {s s' : Pool} {t u : TaskId}

/-- A step on the tables: what becomes of the task, and that nothing but the tables changes
otherwise. -/
theorem Pool.lockStep_cases {loc : Locals} {l : LockName} {addr : Nat}
    {again p : EngineProg (Option Resp)} {step : LockStep}
    (hs : s.lockStep t loc l addr again p step = some s') :
    ∃ loc' p', s'.tasks = Function.update s.tasks t (.run loc' p') ∧ s'.world = s.world ∧
      s'.orphans = s.orphans ∧ (p' = again ∨ p' = p) ∧
      (loc'.owned = loc.owned ∨ ∃ m, loc'.owned = .lock l m :: loc.owned ∨
        loc'.owned = loc.owned.erase (.lock l m)) := by
  cases step with
  | refer =>
      obtain ⟨locks, -, rfl⟩ := Option.map_eq_some_iff.mp hs
      exact ⟨_, _, rfl, rfl, rfl, .inr rfl, .inl rfl⟩
  | take m =>
      obtain ⟨o, -, -, hs⟩ := Pool.atLock_eq hs
      split at hs
      · obtain ⟨locks, -, rfl⟩ := Option.map_eq_some_iff.mp hs
        exact ⟨_, _, rfl, rfl, rfl, .inl rfl, .inl rfl⟩
      · obtain ⟨locks, -, rfl⟩ := Option.map_eq_some_iff.mp hs
        exact ⟨_, _, rfl, rfl, rfl, .inr rfl, .inr ⟨m, .inl rfl⟩⟩
  | drop m =>
      obtain ⟨o, -, -, hs⟩ := Pool.atLock_eq hs
      obtain ⟨locks, -, rfl⟩ := Option.map_eq_some_iff.mp hs
      exact ⟨_, _, rfl, rfl, rfl, .inr rfl, .inr ⟨m, .inr rfl⟩⟩
  | unref =>
      obtain ⟨o, -, -, hs⟩ := Pool.atLock_eq hs
      obtain ⟨locks, -, rfl⟩ := Option.map_eq_some_iff.mp hs
      exact ⟨_, _, rfl, rfl, rfl, .inr rfl, .inl rfl⟩
  | prune =>
      obtain ⟨locks, -, rfl⟩ := Option.map_eq_some_iff.mp hs
      exact ⟨_, _, rfl, rfl, rfl, .inr rfl, .inl rfl⟩

theorem Pool.lockStep_tasks {loc : Locals} {l : LockName} {addr : Nat}
    {again p : EngineProg (Option Resp)} {step : LockStep}
    (hs : s.lockStep t loc l addr again p step = some s') (hu : u ≠ t) :
    s'.tasks u = s.tasks u := by
  obtain ⟨loc', p', tasks, -⟩ := Pool.lockStep_cases hs
  rw [tasks, Function.update_of_ne hu]

theorem Pool.taskStep_tasks {addr : Nat} {fault : Option (IoError × Nat)}
    (hs : s.taskStep env t addr fault = some s') (hu : u ≠ t) : s'.tasks u = s.tasks u := by
  unfold Pool.taskStep at hs
  split at hs
  · cases hs
  · cases hs
    exact Pool.tasks_set_of_ne _ _ hu
  · obtain ⟨x, -, rfl⟩ := Option.map_eq_some_iff.mp hs
    exact Pool.tasks_set_of_ne _ _ hu
  · cases hs
    exact Pool.tasks_set_of_ne _ _ hu
  · cases hs
    exact Pool.tasks_set_of_ne _ _ hu
  · exact Pool.lockStep_tasks hs hu
  · obtain ⟨x, -, rfl⟩ := Option.map_eq_some_iff.mp hs
    exact Pool.tasks_set_of_ne _ _ hu

/-- A step is of one task and leaves the others alone, unless all of them end. -/
theorem Pool.next_tasks {label : Label} (hs : s.next env C label = some s')
    (hk : label ≠ .kill) (hu : label.task ≠ some u) : s'.tasks u = s.tasks u := by
  cases label with
  | start t r =>
      replace hu : u ≠ t := fun h => hu (h ▸ rfl)
      change s.start C t r = some s' at hs
      unfold Pool.start at hs
      split at hs
      · cases hs
        exact Pool.tasks_set_of_ne _ _ hu
      · cases hs
      · cases hs
        exact Pool.tasks_set_of_ne _ _ hu
      · cases hs
  | step t addr fault => exact Pool.taskStep_tasks hs fun h => hu (h ▸ rfl)
  | grant addr =>
      obtain ⟨locks, -, rfl⟩ := Option.map_eq_some_iff.mp hs
      rfl
  | drop t =>
      replace hu : u ≠ t := fun h => hu (h ▸ rfl)
      change s.drop t = some s' at hs
      unfold Pool.drop at hs
      split at hs
      · cases hs
        exact Pool.tasks_set_of_ne _ _ hu
      · split at hs
        · cases hs
          exact Pool.tasks_set_of_ne _ _ hu
        · cases hs
      · cases hs
  | orphan i fault =>
      change s.orphan env i fault = some s' at hs
      unfold Pool.orphan at hs
      split at hs
      · cases hs
      · cases hs
        rfl
      · obtain ⟨x, -, rfl⟩ := Option.map_eq_some_iff.mp hs
        rfl
  | clock now =>
      cases hs
      rfl
  | kill => exact absurd rfl hk

/-- A task with no step in a schedule stays idle. -/
theorem Pool.idle_run (ls : List Label) : ∀ {s : Pool}, s.run env C ls = some s' →
    s.tasks u = .idle → (∀ l ∈ ls, l.task ≠ some u) → s'.tasks u = .idle := by
  induction ls with
  | nil =>
      intro s hs h _
      cases hs
      exact h
  | cons l ls ih =>
      intro s hs h hns
      obtain ⟨s₁, hs₁, hs⟩ := Option.bind_eq_some_iff.mp hs
      obtain ⟨hl, hls⟩ := List.forall_mem_cons.mp hns
      refine ih hs ?_ hls
      by_cases hk : l = .kill
      · subst hk
        cases hs₁
        rfl
      · rw [Pool.next_tasks hs₁ hk hl, h]

end Tasks

/-- Task 1 gives the lock back while task 2 waits for it. Then task 2 is dropped. -/
def droppedWaiter : List Label :=
  contended ++ steps 1 6 ++ [.drop 2] ++ steps 2 2

def Task.isIdle : Task → Bool
  | .idle => true
  | _ => false

theorem Task.eq_idle {task : Task} (h : task.isIdle) : task = .idle := by
  cases task with
  | idle => rfl
  | run loc p => cases h
  | busy loc c job k => cases h

/-- No request is in flight, and the entry is still there. -/
theorem waiter_leaves_entry : ∃ s, (Pool.init (World.empty OsName)).run sampleEnv sampleCrates
    droppedWaiter = some s ∧ (∀ t, s.tasks t = .idle) ∧ s.locks.entry (.bucket "abc") ≠ none := by
  have hrun : ((Pool.init (World.empty OsName)).run sampleEnv sampleCrates droppedWaiter).any
      (fun s => (s.tasks 0).isIdle && (s.tasks 1).isIdle && (s.tasks 2).isIdle &&
        (s.locks.entry (.bucket "abc")).isSome) = true := by decide +kernel
  obtain ⟨s, hs, hend⟩ := (Option.any_eq_true ..).mp hrun
  simp only [Bool.and_eq_true] at hend
  obtain ⟨⟨⟨h₀, h₁⟩, h₂⟩, hentry⟩ := hend
  refine ⟨s, hs, fun t => ?_, Option.isSome_iff_ne_none.mp hentry⟩
  match t with
  | 0 => exact Task.eq_idle h₀
  | 1 => exact Task.eq_idle h₁
  | 2 => exact Task.eq_idle h₂
  | n + 3 =>
      refine Pool.idle_run droppedWaiter hs rfl fun l hl => ?_
      have htask : ∀ l ∈ droppedWaiter, l.task ∈ [none, some 0, some 1, some 2] := by decide
      intro hn
      have := htask l hl
      rw [hn] at this
      simp at this

/-- Task 2 is dropped while task 1 has the lock. -/
def droppedEarlier : List Label :=
  contended ++ [.drop 2] ++ steps 2 2 ++ steps 1 6

/-- Where a task gives up a reference, task `u` holds the lock. -/
def Pool.heldBy (u : TaskId) (s : Pool) : Label → Bool
  | .step t _ _ =>
    match s.tasks t with
    | .run _ (.op (.prim (.lock l .unref)) _) =>
      u ≠ t && (locksOf (s.tasks u).locals.owned).any fun x => x.1 = l
    | _ => true
  | _ => true

def Pool.allHeldBy (u : TaskId) (env : Env OsName) (C : Crates) : Pool → List Label → Bool
  | _, [] => true
  | s, l :: ls => s.heldBy u l && (s.next env C l).all fun s' => s'.allHeldBy u env C ls

theorem Pool.leavesUser_of_heldBy {u : TaskId} {s : Pool} {l : Label} (h : s.heldBy u l) :
    s.LeavesUser l := by
  cases l with
  | step t addr fault =>
      intro loc l k htask
      simp only [Pool.heldBy, htask, Bool.and_eq_true, decide_eq_true_eq, List.any_eq_true] at h
      obtain ⟨hne, x, hx, hl⟩ := h
      exact ⟨u, hne, .inr (.inl ⟨x.2, hl ▸ hx⟩)⟩
  | _ => trivial

theorem Pool.meets_of_allHeldBy {u : TaskId} {env : Env OsName} {C : Crates} (ls : List Label) :
    ∀ {s : Pool}, s.allHeldBy u env C ls → s.Meets Pool.LeavesUser env C ls := by
  induction ls with
  | nil => exact fun _ => trivial
  | cons l ls ih =>
      intro s h
      simp only [Pool.allHeldBy, Bool.and_eq_true, Option.all_eq_true] at h
      exact ⟨Pool.leavesUser_of_heldBy h.1, fun s' hs => ih (h.2 s' hs)⟩

theorem entries_used_dropped_earlier : ∃ s, (Pool.init (World.empty OsName)).run sampleEnv
    sampleCrates droppedEarlier = some s ∧ s.EntriesUsed := by
  have hrun : ((Pool.init (World.empty OsName)).run sampleEnv sampleCrates droppedEarlier).isSome :=
    by decide +kernel
  obtain ⟨s, hs⟩ := Option.isSome_iff_exists.mp hrun
  have hmeets : (Pool.init (World.empty OsName)).allHeldBy 1 sampleEnv sampleCrates
      droppedEarlier := by decide +kernel
  exact ⟨s, hs,
    ((entries_used_iff sampleEnv sampleCrates (World.empty OsName)).1 droppedEarlier s hs
    (Pool.meets_of_allHeldBy _ hmeets)).1⟩

end Aks3.Engine
