import Aks3.Engine.LockUse

/-!
# No deadlock

Locks are taken in one order: that of a bucket, then that of a key in it, and no other
while either is held. So among the tasks that wait for locks there is one whose lock is
free, or held by a task that does not wait. Here a lock that is free is still given out
in the order of its queue: a reader waits behind a writer that waits.
-/

set_option autoImplicit false

namespace Aks3.Engine

open Lib

/-- The lock a task is waiting for, if it is at a lock. -/
def Task.asks : Task → Option (LockName × Mode)
  | .run _ (.op (.prim (.lock l (.take m))) _) => some (l, m)
  | _ => none

/-- Tasks are in the queues of locks with the mode they ask for. -/
def Pool.Asked (s : Pool) : Prop :=
  ∀ t m, s.locks.Asks t m → ∀ l m', (s.tasks t).asks = some (l, m') → m' = m

section Asked

variable {env : Env OsName} {C : Crates} {s s' : Pool} {t : TaskId} {c : LockCtx}

/-- A task that waits for a lock asks for it, or was dropped. -/
theorem Pool.Inv.waiter (h : s.Inv) {l : LockName} (hw : s.locks.Waits t l) :
    ∃ loc step k, s.tasks t = .run loc (.op (.prim (.lock l step)) k) ∧
      (step = .unref ∨ ∃ m, step = .take m) := by
  obtain ⟨c, hc⟩ := h.task t
  have hr := (hc.knows.waits l).mp hw
  have hf := hc.fits
  cases htask : s.tasks t with
  | idle =>
      rw [htask] at hf
      rw [show c = .holding [] from hf] at hr
      cases hr
  | busy loc call job k =>
      rw [htask] at hf
      rw [hf.2.2.1] at hr
      cases hr
  | run loc p =>
      rw [htask] at hf
      have ho := hf.2.2
      cases p with
      | pure resp =>
          rw [show c = .holding [] from ho] at hr
          cases hr
      | op o k =>
          cases o with
          | call call =>
              rw [ho.1] at hr
              cases hr
          | prim o =>
              cases o with
              | lock l' step =>
                  cases step with
                  | take m =>
                      rw [ho.1] at hr
                      cases hr
                      exact ⟨loc, .take m, k, rfl, .inr ⟨m, rfl⟩⟩
                  | unref =>
                      rw [ho.1] at hr
                      cases hr
                      exact ⟨loc, .unref, k, rfl, .inl rfl⟩
                  | _ =>
                      rw [ho.1] at hr
                      cases hr
              | _ =>
                  rw [ho.1] at hr
                  cases hr

/-- A task that no longer waits has asked for nothing. -/
theorem Pool.Inv.not_asks (h : s.Inv) (hr : (s.tasks t).locals.refd = none) (m : Mode) :
    ¬ s.locks.Asks t m := by
  intro hasks
  obtain ⟨l, hl⟩ := hasks.waits
  rw [← h.waits_iff, Task.Waits, hr] at hl
  cases hl

theorem Pool.asks_lockStep {loc : Locals} {l : LockName} {addr : Nat}
    {again p : EngineProg (Option Resp)} {step : LockStep} {u : TaskId} {m' : Mode}
    (hs : s.lockStep t loc l addr again p step = some s') (h : s'.locks.Asks u m') :
    s.locks.Asks u m' ∨ u = t ∧ step = .take m' := by
  cases step with
  | refer =>
      obtain ⟨locks, hl, rfl⟩ := Option.map_eq_some_iff.mp hs
      exact .inl (.refer hl h)
  | take m =>
      obtain ⟨o, -, -, hs⟩ := Pool.atLock_eq hs
      split at hs
      · obtain ⟨locks, hl, rfl⟩ := Option.map_eq_some_iff.mp hs
        refine (LockTable.Asks.enqueue hl h).imp_right fun hx => ?_
        cases hx
        exact ⟨rfl, rfl⟩
      · obtain ⟨locks, hl, rfl⟩ := Option.map_eq_some_iff.mp hs
        exact .inl (.claim hl h)
  | drop m =>
      obtain ⟨o, -, -, hs⟩ := Pool.atLock_eq hs
      obtain ⟨locks, hl, rfl⟩ := Option.map_eq_some_iff.mp hs
      exact .inl (.release hl h)
  | unref =>
      obtain ⟨o, -, -, hs⟩ := Pool.atLock_eq hs
      obtain ⟨locks, hl, rfl⟩ := Option.map_eq_some_iff.mp hs
      exact .inl (.cancel hl h)
  | prune =>
      obtain ⟨locks, hl, rfl⟩ := Option.map_eq_some_iff.mp hs
      exact .inl (.prune hl h)

theorem Pool.Inv.asked_taskStep (h : s.Inv) (ha : s.Asked) {addr : Nat}
    {fault : Option (IoError × Nat)} (hs : s.taskStep env t addr fault = some s') : s'.Asked := by
  intro u m hasks l m' htask'
  have hbefore : s.locks.Asks u m ∨ u = t ∧ ∃ loc l k,
      s.tasks t = .run loc (.op (.prim (.lock l (.take m))) k) := by
    rcases Pool.taskStep_locks hs with ⟨loc, l, step, k, htask, hs⟩ | hl
    · refine (Pool.asks_lockStep hs hasks).imp_right fun hx => ?_
      obtain ⟨rfl, rfl⟩ := hx
      exact ⟨rfl, loc, l, k, htask⟩
    · exact .inl (hl ▸ hasks)
  by_cases hu : u = t
  swap
  · rw [Pool.taskStep_tasks hs hu] at htask'
    exact ha u m (hbefore.resolve_right fun hx => hu hx.1) l m' htask'
  subst hu
  have h' : s'.Inv := h.taskStep hs
  -- The task was at a lock before the step, since it has asked for one.
  obtain ⟨loc, l₀, step, k, htask, hstep⟩ : ∃ loc l step k,
      s.tasks u = .run loc (.op (.prim (.lock l step)) k) ∧
        (step = .unref ∨ ∃ m₀, step = .take m₀ ∧ m₀ = m) := by
    rcases hbefore with hasks | ⟨-, loc, l, k, htask⟩
    · obtain ⟨l₀, hl⟩ := hasks.waits
      obtain ⟨loc, step, k, htask, rfl | ⟨m₀, rfl⟩⟩ := h.waiter hl
      · exact ⟨loc, l₀, .unref, k, htask, .inl rfl⟩
      · exact ⟨loc, l₀, .take m₀, k, htask, .inr ⟨m₀, rfl, ha u m hasks l₀ m₀ (by rw [htask]; rfl)⟩⟩
    · exact ⟨loc, l, .take m, k, htask, .inr ⟨m, rfl, rfl⟩⟩
  simp only [Pool.taskStep, htask] at hs
  rcases hstep with rfl | ⟨m₀, rfl, rfl⟩
  · obtain ⟨o, -, -, hs⟩ := Pool.atLock_eq hs
    obtain ⟨locks, -, rfl⟩ := Option.map_eq_some_iff.mp hs
    exact absurd hasks (h'.not_asks (by rw [Pool.tasks_set_self]; rfl) m)
  · obtain ⟨o, -, -, hs⟩ := Pool.atLock_eq hs
    split at hs
    · obtain ⟨locks, -, rfl⟩ := Option.map_eq_some_iff.mp hs
      rw [Pool.tasks_set_self] at htask'
      cases htask'
      rfl
    · obtain ⟨locks, -, rfl⟩ := Option.map_eq_some_iff.mp hs
      exact absurd hasks (h'.not_asks (congrArg (·.locals.refd) (Pool.tasks_set_self ..)) m₀)

theorem asks_cleanup (loc : Locals) : (Task.run loc loc.cleanup).asks = none := by
  obtain ⟨refd, owned⟩ := loc
  cases refd with
  | some l => rfl
  | none =>
      match owned with
      | [] => rfl
      | .lock l m :: owned => rfl
      | .file p :: owned => rfl

theorem Pool.Asked.congr (ha : s.Asked) (hl : s'.locks = s.locks)
    (ht : ∀ u, s'.tasks u = s.tasks u ∨ (s'.tasks u).asks = none ∨ ∀ m, ¬ s'.locks.Asks u m) :
    s'.Asked := by
  intro u m hasks l m' htask
  rcases ht u with hu | hu | hu
  · exact ha u m (hl ▸ hasks) l m' (hu ▸ htask)
  · rw [hu] at htask
    cases htask
  · exact absurd hasks (hu m)

theorem Pool.Inv.asked_next (h : s.Inv) (ha : s.Asked) {label : Label}
    (hs : s.next env C label = some s') : s'.Asked := by
  have h' := h.next hs
  have hne : ∀ {u t}, u ≠ t → label.task = some t → label.task ≠ some u := by
    intro u t hu ht hx
    rw [ht] at hx
    exact hu (Option.some.inj hx).symm
  cases label with
  | start t r =>
      refine ha.congr (Pool.start_locks hs) fun u => ?_
      by_cases hu : u = t
      · refine .inr (.inr (h'.not_asks ?_))
        subst hu
        change s.start C u r = some s' at hs
        unfold Pool.start at hs
        split at hs
        · cases hs
          exact congrArg (·.locals.refd) (Pool.tasks_set_self ..)
        · cases hs
        · cases hs
          exact congrArg (·.locals.refd) (Pool.tasks_set_self ..)
        · cases hs
      · exact .inl (Pool.next_tasks hs (by simp) (hne hu rfl))
  | step t addr fault => exact h.asked_taskStep ha hs
  | grant addr =>
      obtain ⟨locks, hl, rfl⟩ := Option.map_eq_some_iff.mp hs
      exact fun u m hasks => ha u m (.grant hl hasks)
  | drop t =>
      refine ha.congr (Pool.drop_locks hs) fun u => ?_
      by_cases hu : u = t
      · refine .inr (.inl ?_)
        subst hu
        change s.drop u = some s' at hs
        unfold Pool.drop at hs
        split at hs
        · rename_i loc _ _ _ _
          cases hs
          exact (congrArg Task.asks (Pool.tasks_set_self ..)).trans (asks_cleanup loc)
        · rename_i loc _ _
          split at hs
          · cases hs
            exact (congrArg Task.asks (Pool.tasks_set_self ..)).trans (asks_cleanup loc)
          · cases hs
        · cases hs
      · exact .inl (Pool.next_tasks hs (by simp) (hne hu rfl))
  | orphan i fault =>
      exact ha.congr (Pool.orphan_locks hs) fun u =>
        .inl (Pool.next_tasks hs (by simp) (by simp [Label.task]))
  | clock now =>
      cases hs
      exact ha
  | kill =>
      cases hs
      rintro u m ⟨id, o, ho, -⟩
      cases ho

theorem Pool.asked_run (ls : List Label) : ∀ {s : Pool}, s.Inv → s.Asked →
    s.run env C ls = some s' → s'.Asked := by
  induction ls with
  | nil =>
      intro s _ ha hs
      cases hs
      exact ha
  | cons l ls ih =>
      intro s h ha hs
      obtain ⟨s₁, hs₁, hs⟩ := Option.bind_eq_some_iff.mp hs
      exact ih (h.next hs₁) (h.asked_next ha hs₁) hs

end Asked

/-! ## Which tasks can go on -/

/-- A step of a task that no fault befalls, or a lock given to the first in its queue. -/
def Label.IsOf (u : TaskId) : Label → Prop
  | .step t _ fault => t = u ∧ fault = none
  | .grant _ => True
  | _ => False

/-- A task comes to hold a lock by its own steps. -/
def Pool.Gets (env : Env OsName) (C : Crates) (s : Pool) (u : TaskId) (l : LockName) (m : Mode) :
    Prop :=
  ∃ ls s', (∀ x ∈ ls, x.IsOf u) ∧ s.run env C ls = some s' ∧ (s'.tasks u).Holds l m

/-- A task can go on, whatever the others do: it can take a step, or it asks for a lock and comes
to hold it. -/
def Pool.CanGo (env : Env OsName) (C : Crates) (s : Pool) (u : TaskId) : Prop :=
  match (s.tasks u).asks with
  | none => ∃ addr s', s.next env C (.step u addr none) = some s'
  | some (l, m) => s.Gets env C u l m

/-- A task that holds the lock another holder of a lock may ask for may ask for none. -/
theorem MayTake.chain {held held' : List (LockName × Mode)} {l l' l'' : LockName} {m m' : Mode}
    (h : MayTake held l') (hl : (l, m) ∈ held) (h' : MayTake held' l'') (hl' : (l', m') ∈ held') :
    False := by
  cases l' with
  | bucket b =>
      rw [show held = [] from h] at hl
      cases hl
  | key b k =>
      cases l'' with
      | bucket b' =>
          rw [show held' = [] from h'] at hl'
          cases hl'
      | key b' k' =>
          rw [show held' = [(.bucket b', .shared)] from h'] at hl'
          simp at hl'

section CanGo

variable {env : Env OsName} {C : Crates} {s : Pool} {t u : TaskId} {l : LockName} {m : Mode}

theorem Pool.atLock_of {o : LockObj LockName TaskId} {addr : Nat}
    {f : LockObj LockName TaskId → Option Pool} (ho : s.locks.obj addr = some o) (hn : o.name = l) :
    s.atLock l addr f = f o := by
  rw [Pool.atLock, ho]
  exact if_pos hn

/-- A task that does not ask for a lock can take a step. -/
theorem Pool.Inv.canGo (h : s.Inv) (hne : s.tasks u ≠ .idle) (ha : (s.tasks u).asks = none) :
    s.CanGo env C u := by
  unfold Pool.CanGo
  rw [ha]
  obtain ⟨c, hc⟩ := h.task u
  have hf := hc.fits
  have hk := hc.knows
  simp only [Pool.next, Pool.taskStep]
  cases htask : s.tasks u with
  | idle => exact absurd htask hne
  | busy loc call job k =>
      cases job with
      | pure r => exact ⟨0, _, rfl⟩
      | op o j => exact ⟨0, _, rfl⟩
  | run loc p =>
      rw [htask] at hf ha
      have ho := hf.2.2
      cases p with
      | pure resp => exact ⟨0, _, rfl⟩
      | op o k =>
          cases o with
          | call call => exact ⟨0, _, rfl⟩
          | prim o =>
              cases o with
              | lock l step =>
                  cases step with
                  | refer =>
                      obtain ⟨new, locks, hl⟩ := h.ok.exists_refer u l
                      exact ⟨new, _, Option.map_eq_some_iff.mpr ⟨locks, hl, rfl⟩⟩
                  | take m => cases ha
                  | drop m =>
                      obtain ⟨-, -, held, hheld, -⟩ := ho
                      have hh := (hk.holds l m).mpr (hheld ▸ List.mem_cons_self)
                      obtain ⟨id, o, locks, hobj, hname, hl⟩ := LockTable.exists_release hh
                      exact ⟨id, _, (Pool.atLock_of hobj hname).trans
                        (Option.map_eq_some_iff.mpr ⟨locks, hl, rfl⟩)⟩
                  | unref =>
                      have hw := (hk.waits l).mpr ho.1
                      obtain ⟨id, o, locks, hobj, hname, hl⟩ := LockTable.exists_cancel hw
                      exact ⟨id, _, (Pool.atLock_of hobj hname).trans
                        (Option.map_eq_some_iff.mpr ⟨locks, hl, rfl⟩)⟩
                  | prune =>
                      obtain ⟨locks, hl⟩ := LockTable.exists_prune ((hk.prunes l).mpr ho.2.1)
                      exact ⟨0, _, Option.map_eq_some_iff.mpr ⟨locks, hl, rfl⟩⟩
              | _ => exact ⟨0, _, rfl⟩

theorem Pool.Gets.cons {s₁ : Pool} {x : Label} (hs : s.next env C x = some s₁) (hx : x.IsOf u)
    (h : s₁.Gets env C u l m) : s.Gets env C u l m := by
  obtain ⟨ls, s', hls, hrun, hh⟩ := h
  exact ⟨x :: ls, s', List.forall_mem_cons.mpr ⟨hx, hls⟩, by rw [Pool.run, hs]; exact hrun, hh⟩

section Lock

variable {o : LockObj LockName TaskId} {id : Nat} {loc : Locals}
  {k : Unit → EngineProg (Option Resp)}

/-- A task that was given the lock. -/
theorem Pool.Inv.gets_granted (h : s.Inv) (hobj : s.locks.obj id = some o) (hn : o.name = l)
    (hmem : (u, m) ∈ o.granted)
    (htask : s.tasks u = .run loc (.op (.prim (.lock l (.take m))) k)) :
    s.Gets env C u l m := by
  have hrefs : u ∉ o.refs := by
    intro hr
    have hnd := (List.nodup_append.mp (h.ok.lock id o hobj).nodup).1
    simp only [LockObj.waiting] at hnd
    exact (List.nodup_append.mp hnd).2.2 u (List.mem_append_left _ hr) u
      (List.mem_map.mpr ⟨_, hmem, rfl⟩) rfl
  obtain ⟨locks, hl⟩ : ∃ locks, s.locks.onObj id (LockObj.claim u m) = some locks :=
    ⟨_, LockTable.onObj_of hobj (if_pos hmem)⟩
  obtain ⟨s', hs', htask'⟩ : ∃ s', s.next env C (.step u id none) = some s' ∧
      s'.tasks u = .run ⟨none, .lock l m :: loc.owned⟩ (k ()) := by
    simp only [Pool.next, Pool.taskStep, htask, Pool.lockStep, Pool.atLock_of hobj hn, if_neg hrefs,
      hl, Option.map_some]
    exact ⟨_, rfl, Pool.tasks_set_self ..⟩
  refine .cons hs' ⟨rfl, rfl⟩ ⟨[], s', by simp, rfl, ?_⟩
  rw [htask']
  exact List.mem_cons_self

/-- The first in the queue of a free lock. -/
theorem Pool.Inv.gets_first (h : s.Inv) (hobj : s.locks.obj id = some o) (hn : o.name = l)
    (hfree : o.active = []) {queue : List (TaskId × Mode)} (hq : o.queue = (u, m) :: queue)
    (htask : s.tasks u = .run loc (.op (.prim (.lock l (.take m))) k)) :
    s.Gets env C u l m := by
  have hgrant : o.grant = some { o with queue, granted := (u, m) :: o.granted } := by
    simp only [LockObj.grant, hq]
    exact if_pos (.inl hfree)
  have hs : s.next env C (.grant id) =
      some { s with locks := s.locks.put id { o with queue, granted := (u, m) :: o.granted } } :=
    Option.map_eq_some_iff.mpr ⟨_, LockTable.onObj_of hobj hgrant, rfl⟩
  have hobj' : (s.locks.put id { o with queue, granted := (u, m) :: o.granted }).obj id =
      some { o with queue, granted := (u, m) :: o.granted } := by
    rw [LockTable.obj_put ((h.ok.lock id o hobj).grant hgrant), Function.update_self]
  exact .cons hs trivial ((h.next hs).gets_granted hobj' hn List.mem_cons_self htask)

/-- A task that has yet to join the queue of a free lock, which is empty. -/
theorem Pool.Inv.gets_referred (h : s.Inv) (hobj : s.locks.obj id = some o) (hn : o.name = l)
    (hfree : o.active = []) (hq : o.queue = []) (hr : u ∈ o.refs)
    (htask : s.tasks u = .run loc (.op (.prim (.lock l (.take m))) k)) :
    s.Gets env C u l m := by
  have henqueue : o.enqueue u m = some { o with refs := o.refs.erase u, queue := [(u, m)] } := by
    simp only [LockObj.enqueue, if_pos hr, hq, List.nil_append]
  obtain ⟨s', hs', htask', hl'⟩ : ∃ s', s.next env C (.step u id none) = some s' ∧
      s'.tasks u = .run loc (.op (.prim (.lock l (.take m))) k) ∧
      s'.locks = s.locks.put id { o with refs := o.refs.erase u, queue := [(u, m)] } := by
    simp only [Pool.next, Pool.taskStep, htask, Pool.lockStep, Pool.atLock_of hobj hn, if_pos hr,
      LockTable.onObj_of hobj henqueue, Option.map_some]
    exact ⟨_, rfl, Pool.tasks_set_self .., rfl⟩
  have hobj' : s'.locks.obj id = some { o with refs := o.refs.erase u, queue := [(u, m)] } := by
    rw [hl', LockTable.obj_put ((h.ok.lock id o hobj).enqueue henqueue), Function.update_self]
  exact .cons hs' ⟨rfl, rfl⟩ ((h.next hs').gets_first hobj' hn hfree rfl htask')

/-- Among the tasks that wait for a lock nobody holds there is one that can go on. -/
theorem Pool.Inv.free_lock (h : s.Inv) (ha : s.Asked) (hobj : s.locks.obj id = some o)
    (hfree : o.held = []) (hw : o.waiting ≠ []) :
    ∃ v, s.tasks v ≠ .idle ∧ s.CanGo env C v := by
  -- Whoever is next either asks for the lock or was dropped.
  have hnext : ∀ v ∈ o.waiting, (∀ m loc k,
      s.tasks v = .run loc (.op (.prim (.lock o.name (.take m))) k) → s.Gets env C v o.name m) →
      ∃ v, s.tasks v ≠ .idle ∧ s.CanGo env C v := by
    intro v hv hgets
    obtain ⟨loc, step, k, htask, rfl | ⟨m, rfl⟩⟩ := h.waiter ((h.ok.waits_name hobj).mpr hv)
    · exact ⟨v, by simp [htask], h.canGo (by simp [htask]) (by rw [htask]; rfl)⟩
    · refine ⟨v, by simp [htask], ?_⟩
      unfold Pool.CanGo
      rw [htask]
      exact hgets m loc k htask
  have hmode : ∀ {v m₀ m loc k}, (v, m₀) ∈ o.queue ++ o.granted →
      s.tasks v = .run loc (.op (.prim (.lock o.name (.take m))) k) → m₀ = m := by
    intro v m₀ m loc k hmem htask
    exact (ha v m₀ ⟨id, o, hobj, hmem⟩ o.name m (by rw [htask]; rfl)).symm
  cases hg : o.granted with
  | cons x granted =>
      obtain ⟨v, m₀⟩ := x
      have hmem : (v, m₀) ∈ o.granted := hg ▸ List.mem_cons_self
      refine hnext v ?_ fun m loc k htask => ?_
      · exact List.mem_append_right _ (List.mem_map.mpr ⟨_, hmem, rfl⟩)
      · obtain rfl := hmode (List.mem_append_right _ hmem) htask
        exact h.gets_granted hobj rfl hmem htask
  | nil =>
      have hactive : o.active = [] := by rw [LockObj.active, hg, hfree, List.append_nil]
      cases hq : o.queue with
      | cons x queue =>
          obtain ⟨v, m₀⟩ := x
          have hmem : (v, m₀) ∈ o.queue := hq ▸ List.mem_cons_self
          refine hnext v ?_ fun m loc k htask => ?_
          · exact List.mem_append_left _
              (List.mem_append_right _ (List.mem_map.mpr ⟨_, hmem, rfl⟩))
          · obtain rfl := hmode (List.mem_append_left _ hmem) htask
            exact h.gets_first hobj rfl hactive hq htask
      | nil =>
          obtain ⟨v, hv⟩ := List.exists_mem_of_ne_nil _ hw
          refine hnext v hv fun m loc k htask => h.gets_referred hobj rfl hactive hq ?_ htask
          simpa [LockObj.waiting, hq, hg] using hv

end Lock

theorem Task.asks_eq {task : Task} (ha : task.asks = some (l, m)) :
    ∃ loc k, task = .run loc (.op (.prim (.lock l (.take m))) k) := by
  unfold Task.asks at ha
  split at ha
  · cases ha
    exact ⟨_, _, rfl⟩
  · cases ha

/-- A task that asks for a lock waits for it, and may do so with the locks it holds. -/
theorem Pool.Inv.asks_spec (h : s.Inv) (ha : (s.tasks u).asks = some (l, m)) :
    s.locks.Waits u l ∧ ∃ held, MayTake held l ∧
      ∀ l' m', s.locks.Holds u l' m' → (l', m') ∈ held := by
  obtain ⟨loc, k, htask⟩ := Task.asks_eq ha
  obtain ⟨c, hc⟩ := h.task u
  have ho := hc.fits
  rw [htask] at ho
  exact ⟨(hc.knows.waits l).mpr ho.2.2.1, c.held, ho.2.2.2.2.1, fun l' m' =>
    (hc.knows.holds l' m').mp⟩

theorem Pool.Inv.ne_idle_of_holds (h : s.Inv) (hh : s.locks.Holds u l m) : s.tasks u ≠ .idle := by
  intro hidle
  rw [← h.holds_iff, hidle] at hh
  cases hh

/-- A task that asks for a lock can go on, or some task holds the lock, or another can go on. -/
theorem Pool.Inv.goes_or_held (h : s.Inv) (ha : s.Asked) (hw : s.locks.Waits t l) :
    (∃ v, s.tasks v ≠ .idle ∧ s.CanGo env C v) ∨ ∃ v m, s.locks.Holds v l m := by
  obtain ⟨id, o, hobj, rfl, hmem⟩ := hw
  cases hheld : o.held with
  | nil => exact .inl (h.free_lock ha hobj hheld (List.ne_nil_of_mem hmem))
  | cons x held =>
      exact .inr ⟨x.1, x.2, (h.ok.holds_name hobj).mpr (hheld ▸ List.mem_cons_self)⟩

end CanGo

/-- **No deadlock.** While a call is unfinished, some unfinished call can go on. -/
theorem some_call_goes {env : Env OsName} {C : Crates} {s : Pool} (w : World OsName)
    (ls : List Label) (hs : (Pool.init w).run env C ls = some s) (t : TaskId)
    (ht : s.tasks t ≠ .idle) : ∃ u, s.tasks u ≠ .idle ∧ s.CanGo env C u := by
  have h := Pool.inv_run ls (Pool.inv_init w) hs
  have ha : s.Asked :=
    Pool.asked_run ls (Pool.inv_init w) (by rintro u m ⟨id, o, ho, -⟩; cases ho) hs
  -- From a task to one that holds the lock it asks for: at most twice, by the order.
  cases hasks : (s.tasks t).asks with
  | none => exact ⟨t, ht, h.canGo ht hasks⟩
  | some x =>
      rcases h.goes_or_held ha (h.asks_spec hasks).1 with hgo | ⟨v, m, hv⟩
      · exact hgo
      have hvi := h.ne_idle_of_holds hv
      cases hvasks : (s.tasks v).asks with
      | none => exact ⟨v, hvi, h.canGo hvi hvasks⟩
      | some y =>
          obtain ⟨l', m'⟩ := y
          obtain ⟨hw, held, hmay, hheld⟩ := h.asks_spec hvasks
          rcases h.goes_or_held ha hw with hgo | ⟨u, m₁, hu⟩
          · exact hgo
          have hui := h.ne_idle_of_holds hu
          cases huasks : (s.tasks u).asks with
          | none => exact ⟨u, hui, h.canGo hui huasks⟩
          | some z =>
              exfalso
              obtain ⟨l'', m''⟩ := z
              obtain ⟨-, held', hmay', hheld'⟩ := h.asks_spec huasks
              exact MayTake.chain hmay (hheld _ _ hv) hmay' (hheld' _ _ hu)

theorem some_call_goes_contended : ∃ s, (Pool.init (World.empty OsName)).run sampleEnv sampleCrates
    contended = some s ∧ (s.tasks 2).asks = some (.bucket "abc", .exclusive) ∧
      ∃ u, s.tasks u ≠ .idle ∧ s.CanGo sampleEnv sampleCrates u := by
  have hrun : ((Pool.init (World.empty OsName)).run sampleEnv sampleCrates contended).any
      (fun s => decide ((s.tasks 2).asks = some (.bucket "abc", .exclusive))) = true := by
    decide +kernel
  obtain ⟨s, hs, hend⟩ := (Option.any_eq_true ..).mp hrun
  have hasks := of_decide_eq_true hend
  refine ⟨s, hs, hasks, some_call_goes (World.empty OsName) contended hs 2 fun hidle => ?_⟩
  rw [hidle] at hasks
  cases hasks

end Aks3.Engine
