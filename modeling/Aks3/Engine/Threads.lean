import Aks3.Engine.LockUse
import Aks3.Lib.Footprint
import Aks3.Lib.Protocol

/-!
# Following a protocol together

A task has a program of system calls left to run (`Task.rest`). A step of the pool either leaves
that program as it is or takes its first call (`Pool.taskStep_cases`), and a dropped task hands the
job it awaited over to nobody.

A `Discipline` is a protocol for these programs together with what the accounts of all of them say
about the machine. If one call keeps that, then it holds in every state of every run: however
requests run together, however their calls fail, wherever they are dropped and however often the
process is killed (`Pool.follows_run`). What the protocol says about the answer of a request holds
of every answer that was ever given.
-/

set_option autoImplicit false

namespace Aks3.Engine

open Lib

/-- The system calls a task has left to make. -/
def Task.rest : Task → WalkProg (Option Resp)
  | .idle => pure none
  | .run _ p => p.interp Op.code
  | .busy _ _ job k => job >>= fun r => (k r).interp Op.code

/-! ## Requests and their answers -/

/-- What was seen of a run, the last first. -/
def Pool.events (s : Pool) : List Event := s.log.map Prod.fst

def Event.bounds : Event → Bool
  | .started _ _ | .ended _ _ => true
  | _ => false

/-- The beginnings and ends of requests, the last one first. -/
def Pool.heard (s : Pool) : List Event := (s.log.map Prod.fst).filter Event.bounds

/-- The request a task was given last. -/
def lastRequest (t : TaskId) : List Event → Option Req
  | [] => none
  | .started u r :: events => if u = t then some r else lastRequest t events
  | _ :: events => lastRequest t events

/-- Every answer is one the request may get. -/
def AnswersMeet (G : Req → Resp → Prop) : List Event → Prop
  | [] => True
  | .ended t (some resp) :: events =>
    (∀ r, lastRequest t events = some r → G r resp) ∧ AnswersMeet G events
  | _ :: events => AnswersMeet G events

/-! ## What a step can do -/

abbrev Held := List (LockName × Mode)

/-- The locks of a task after a step on the tables. -/
def heldAfter (l : LockName) : LockStep → Held → Held
  | .take m, held => (l, m) :: held
  | .drop m, held => held.erase (l, m)
  | _, held => held

def NoLockCall : Sys OsName LockName → Prop
  | .lock _ _ => False
  | _ => True

/-- A job a task awaits does nothing to the lock tables. -/
def Task.JobFree : Task → Prop
  | .busy _ _ job _ => job.All NoLockCall
  | _ => True

theorem noLockCall_code (c : Call) : c.code.All NoLockCall := by
  cases c with
  | createDirAll p => exact StdFs.all_createDirAll (fun _ => trivial) fun _ _ _ => trivial
  | removeDirAll p => exact StdFs.all_removeDirAll trivial fun _ _ => ⟨trivial, trivial, trivial⟩
  | tryExists p =>
      exact all_code_of_reads (fun s hs => by cases s <;> first | exact hs.elim | trivial)
        (.call (.tryExists p)) trivial
  | sortedKeys p => exact all_sortedKeys trivial (fun _ => trivial) p
  | _ => exact Prog.all_call trivial

theorem locksOf_erase (l : LockName) (m : Mode) (owned : List Owned) :
    locksOf (owned.erase (.lock l m)) = (locksOf owned).erase (l, m) := by
  induction owned with
  | nil => rfl
  | cons o owned ih =>
      cases o with
      | file p => rw [List.erase_cons_tail (by simp), locksOf_cons_file, locksOf_cons_file, ih]
      | lock l' m' =>
          by_cases heq : l' = l ∧ m' = m
          · obtain ⟨rfl, rfl⟩ := heq
            rw [List.erase_cons_head, locksOf_cons_lock, List.erase_cons_head]
          · rw [List.erase_cons_tail (by simpa using heq), locksOf_cons_lock, locksOf_cons_lock,
              List.erase_cons_tail (by simpa using heq), ih]

/-- What is seen of a step on the tables. -/
def lockEvents (t : TaskId) (l : LockName) : LockStep → List Event
  | .take m => [.took t l m]
  | .drop m => [.gave t l m]
  | _ => []

section Steps

variable {env : Env OsName} {C : Crates} {s s' : Pool} {t : TaskId}

theorem Pool.start_cases {r : Req} (hs : s.start C t r = some s') :
    s'.world = s.world ∧ s'.orphans = s.orphans ∧ s'.heard = .started t r :: s.heard ∧
      s'.tasks = Function.update s.tasks t (.run .empty (some <$> serve C r)) := by
  unfold Pool.start at hs
  split at hs
  · cases hs
    exact ⟨rfl, rfl, rfl, rfl⟩
  · cases hs
  · cases hs
    exact ⟨rfl, rfl, rfl, rfl⟩
  · cases hs

theorem Pool.start_idle {r : Req} (hs : s.start C t r = some s') : s.tasks t = .idle := by
  unfold Pool.start at hs
  split at hs <;> first | assumption | cases hs

theorem Pool.start_events {r : Req} (hs : s.start C t r = some s') :
    s'.events = .started t r :: s.events := by
  unfold Pool.start at hs
  split at hs <;> cases hs <;> rfl

theorem Pool.lockStep_held {loc : Locals} {l : LockName} {addr : Nat}
    {again p : EngineProg (Option Resp)} {step : LockStep}
    (hs : s.lockStep t loc l addr again p step = some s') :
    ∃ loc' p', s'.world = s.world ∧ s'.orphans = s.orphans ∧
      s'.tasks = Function.update s.tasks t (.run loc' p') ∧
      (p' = again ∧ s'.events = s.events ∧ locksOf loc'.owned = locksOf loc.owned ∨
        p' = p ∧ s'.events = lockEvents t l step ++ s.events ∧
          locksOf loc'.owned = heldAfter l step (locksOf loc.owned)) := by
  cases step with
  | refer =>
      obtain ⟨locks, -, rfl⟩ := Option.map_eq_some_iff.mp hs
      exact ⟨_, _, rfl, rfl, rfl, .inr ⟨rfl, rfl, rfl⟩⟩
  | take m =>
      obtain ⟨o, -, -, hs⟩ := Pool.atLock_eq hs
      split at hs
      · obtain ⟨locks, -, rfl⟩ := Option.map_eq_some_iff.mp hs
        exact ⟨_, _, rfl, rfl, rfl, .inl ⟨rfl, rfl, rfl⟩⟩
      · obtain ⟨locks, -, rfl⟩ := Option.map_eq_some_iff.mp hs
        exact ⟨_, _, rfl, rfl, rfl, .inr ⟨rfl, rfl, rfl⟩⟩
  | drop m =>
      obtain ⟨o, -, -, hs⟩ := Pool.atLock_eq hs
      obtain ⟨locks, -, rfl⟩ := Option.map_eq_some_iff.mp hs
      exact ⟨_, _, rfl, rfl, rfl, .inr ⟨rfl, rfl, locksOf_erase l m loc.owned⟩⟩
  | unref =>
      obtain ⟨o, -, -, hs⟩ := Pool.atLock_eq hs
      obtain ⟨locks, -, rfl⟩ := Option.map_eq_some_iff.mp hs
      exact ⟨_, _, rfl, rfl, rfl, .inr ⟨rfl, rfl, rfl⟩⟩
  | prune =>
      obtain ⟨locks, -, rfl⟩ := Option.map_eq_some_iff.mp hs
      exact ⟨_, _, rfl, rfl, rfl, .inr ⟨rfl, rfl, rfl⟩⟩

/-- The locks of a task. -/
def Task.held (task : Task) : Held := locksOf task.locals.owned

/-- A step of a task ends its request, leaves the calls it has left as they are, or makes the
first of them: with the locks it holds then, and what is seen of it. -/
theorem Pool.taskStep_cases {addr : Nat} {fault : Option (IoError × Nat)}
    (hs : s.taskStep env t addr fault = some s') :
    s.tasks t ≠ .idle ∧ s'.orphans = s.orphans ∧
    ∃ task : Task, ((s.tasks t).JobFree → task.JobFree) ∧
      s'.tasks = Function.update s.tasks t task ∧
      ((∃ resp, (s.tasks t).rest = .pure resp ∧ s'.world = s.world ∧ task = .idle ∧
        s'.events = .ended t resp :: s.events) ∨
      (s'.world = s.world ∧ task.rest = (s.tasks t).rest ∧ task.held = (s.tasks t).held ∧
        task ≠ .idle ∧ s'.events = s.events) ∨
      (∃ l step k, (s.tasks t).rest = .op (.lock l step) k ∧ s'.world = s.world ∧
        task.rest = k () ∧ task.held = heldAfter l step (s.tasks t).held ∧ task ≠ .idle ∧
        s'.events = lockEvents t l step ++ s.events) ∨
      ∃ o k x, ((s.tasks t).JobFree → ∀ l step, o ≠ .lock l step) ∧ (s.tasks t).rest = .op o k ∧
        callOrFault env fault o s.world = some x ∧ s'.world = x.2 ∧ task.rest = k x.1 ∧
        task.held = (s.tasks t).held ∧ task ≠ .idle ∧ s'.events = s.events) := by
  unfold Pool.taskStep at hs
  split at hs
  · cases hs
  · rename_i loc c r k htask
    cases hs
    rw [htask]
    exact ⟨Task.noConfusion, rfl, .run (loc.onReturn c r) (k r), fun _ => trivial, rfl,
      .inr (.inl ⟨rfl, rfl, (onReturn_locks loc c r).1, Task.noConfusion, rfl⟩)⟩
  · rename_i loc c o j k htask
    obtain ⟨x, hx, rfl⟩ := Option.map_eq_some_iff.mp hs
    rw [htask]
    have hlock : (Task.busy loc c (.op o j) k).JobFree → ∀ l step, o ≠ .lock l step := by
      rintro hjob l step rfl
      exact hjob.1
    exact ⟨Task.noConfusion, rfl, .busy loc c (j x.1) k, fun hjob => hjob.2 x.1, rfl,
      .inr (.inr (.inr ⟨o, _, x, hlock, rfl, hx, rfl, rfl, rfl, Task.noConfusion, rfl⟩))⟩
  · rename_i loc resp htask
    cases hs
    rw [htask]
    exact ⟨Task.noConfusion, rfl, .idle, fun _ => trivial, rfl, .inl ⟨resp, rfl, rfl, rfl, rfl⟩⟩
  · rename_i loc c k htask
    cases hs
    rw [htask]
    exact ⟨Task.noConfusion, rfl, .busy (loc.onSubmit c) c c.code k,
      fun _ => noLockCall_code c, rfl,
      .inr (.inl ⟨rfl, rfl, (onSubmit_locks loc c).1, Task.noConfusion, rfl⟩)⟩
  · rename_i loc l step k htask
    obtain ⟨loc', p', world, orphans, tasks, hp⟩ := Pool.lockStep_held hs
    rw [htask]
    refine ⟨Task.noConfusion, orphans, .run loc' p', fun _ => trivial, tasks, .inr ?_⟩
    rcases hp with ⟨rfl, hevents, hheld⟩ | ⟨rfl, hevents, hheld⟩
    · exact .inl ⟨world, rfl, hheld, Task.noConfusion, hevents⟩
    · exact .inr (.inl ⟨l, step, _, rfl, world, rfl, hheld, Task.noConfusion, hevents⟩)
  · rename_i loc o k hlock htask
    obtain ⟨x, hx, rfl⟩ := Option.map_eq_some_iff.mp hs
    have hprim : ∀ l step, o ≠ .lock l step := by
      rintro l step rfl
      exact hlock l step k HEq.rfl rfl
    rw [htask]
    exact ⟨Task.noConfusion, rfl, .run (loc.onPrim o) (k x.1), fun _ => trivial, rfl,
      .inr (.inr (.inr ⟨o, _, x, fun _ => hprim, rfl, hx, rfl, rfl, (onPrim_locks loc o).1,
        Task.noConfusion, rfl⟩))⟩

/-- A dropped task is left with its destructors. The job it awaited, which is the first part of
the calls it had left, goes on without it. -/
theorem Pool.drop_cases (hs : s.drop t = some s') :
    s.tasks t ≠ .idle ∧ s'.world = s.world ∧ s'.heard = s.heard ∧
      ∃ loc, s'.tasks = Function.update s.tasks t (.run loc loc.cleanup) ∧
        (s'.orphans = s.orphans ∨
          ∃ (c : Call) (job : WalkProg c.Res) (k : c.Res → WalkProg (Option Resp)),
          (s.tasks t).rest = job >>= k ∧ s'.orphans = (job >>= fun _ => pure ()) :: s.orphans) := by
  unfold Pool.drop at hs
  split at hs
  · rename_i loc c job k htask
    cases hs
    rw [htask]
    exact ⟨Task.noConfusion, rfl, rfl, loc, rfl, .inr ⟨c, job, _, rfl, rfl⟩⟩
  · rename_i loc p htask
    split at hs
    · cases hs
      rw [htask]
      exact ⟨Task.noConfusion, rfl, rfl, loc, rfl, .inl rfl⟩
    · cases hs
  · cases hs

end Steps

/-! ## Disciplines -/

/-- Whoever can make a system call: a task, or a job nobody awaits, by its position. -/
abbrev Owner := TaskId ⊕ Nat

/-- The accounts once each owner has that of another, or a new one. -/
def handOver {σ : Type} (fresh : σ) (f : Owner → Option Owner) (acc : Owner → σ) (u : Owner) : σ :=
  (f u).elim fresh acc

/-- A protocol, and what the accounts of all owners together say about the machine. -/
structure Discipline (env : Env OsName) (σ : Type) extends
    Protocol (sysSig OsName LockName) σ where
  /-- The account of somebody who has done nothing yet. -/
  fresh : σ
  inv : World OsName → (Owner → σ) → Prop
  call : ∀ {w acc u fault} {o : Sys OsName LockName} {x : o.Res × World OsName}, inv w acc →
    pre (acc u) o → Pool.callOrFault env fault o w = some x →
      ∃ a, post (acc u) o x.1 a ∧ inv x.2 (Function.update acc u a)
  lock : ∀ a l step, post a (.lock l step) () a
  clock : ∀ {w acc} now, inv w acc → inv { w with clock := now } acc
  /-- Accounts can change hands, and be given up. -/
  hand : ∀ {w acc} (f : Owner → Option Owner), (∀ u v x, f u = some x → f v = some x → u = v) →
    inv w acc → inv w (handOver fresh f acc)

variable {env : Env OsName} {C : Crates} {σ : Type}

/-- How the account of a request ends. -/
def Ends (G : Req → Resp → Prop) (r : Req) (x : Option Resp) (_ : σ) : Prop :=
  ∀ resp, x = some resp → G r resp

/-- What is left of every task and job follows the discipline, with the accounts `acc`. -/
structure Pool.Follows (D : Discipline env σ) (G : Req → Resp → Prop) (s : Pool)
    (acc : Owner → σ) : Prop where
  inv : D.inv s.world acc
  tasks : ∀ t, s.tasks t ≠ .idle → ∃ r, lastRequest t s.heard = some r ∧
    D.Kept (Ends G r) (s.tasks t).rest (acc (.inl t))
  orphans : ∀ i job, s.orphans[i]? = some job → D.Kept (fun _ _ => True) job (acc (.inr i))
  answers : AnswersMeet G s.heard

/-- What a discipline asks of the engine's methods, for the requests that are made. -/
structure Disciplined (D : Discipline env σ) (C : Crates) (R : Req → Prop)
    (G : Req → Resp → Prop) : Prop where
  serve : ∀ r, R r →
    D.KeptBy Op.code (fun resp _ => G r resp) (serve C r) D.fresh
  cleanup : ∀ loc : Locals, D.KeptBy Op.code (fun x _ => x = none) loc.cleanup D.fresh

/-! ### Accounts that change hands -/

/-- Task `t` has nothing left. -/
def dropTask (t : TaskId) : Owner → Option Owner
  | .inl u => if u = t then none else some (.inl u)
  | .inr i => some (.inr i)

/-- What task `t` had is a new job's, the first. -/
def handToJob (t : TaskId) : Owner → Option Owner
  | .inl u => if u = t then none else some (.inl u)
  | .inr 0 => some (.inl t)
  | .inr (i + 1) => some (.inr i)

/-- The job at position `i` is gone. -/
def dropJob (i : Nat) : Owner → Option Owner
  | .inl u => some (.inl u)
  | .inr j => some (.inr (if j < i then j else j + 1))

theorem dropTask_inj {t : TaskId} (u v x : Owner) (hu : dropTask t u = some x)
    (hv : dropTask t v = some x) : u = v := by
  cases u <;> cases v <;> grind [dropTask]

theorem handToJob_inj {t : TaskId} (u v x : Owner) (hu : handToJob t u = some x)
    (hv : handToJob t v = some x) : u = v := by
  rcases u with u | _ | i <;> rcases v with v | _ | j <;> grind [handToJob]

theorem dropJob_inj {i : Nat} (u v x : Owner) (hu : dropJob i u = some x)
    (hv : dropJob i v = some x) : u = v := by
  cases u <;> cases v <;> grind [dropJob]

namespace Pool.Follows

variable {D : Discipline env σ} {R : Req → Prop} {G : Req → Resp → Prop} {s s' : Pool}
  {acc acc' : Owner → σ} {t : TaskId} {task : Task}

/-- The other tasks go on as they were. -/
theorem tasks_update (h : s.Follows D G acc) (tasks : s'.tasks = Function.update s.tasks t task)
    (others : ∀ u, u ≠ t → acc' (.inl u) = acc (.inl u))
    (heard : ∀ u, u ≠ t → lastRequest u s'.heard = lastRequest u s.heard)
    (own : task ≠ .idle → ∃ r, lastRequest t s'.heard = some r ∧
      D.Kept (Ends G r) task.rest (acc' (.inl t))) (u : TaskId) (hu : s'.tasks u ≠ .idle) :
    ∃ r, lastRequest u s'.heard = some r ∧ D.Kept (Ends G r) (s'.tasks u).rest (acc' (.inl u)) := by
  rw [tasks] at hu ⊢
  by_cases hut : u = t
  · subst hut
    rw [Function.update_self] at hu ⊢
    exact own hu
  · rw [Function.update_of_ne hut] at hu ⊢
    rw [others u hut, heard u hut]
    exact h.tasks u hu

theorem start (h : s.Follows D G acc) (hd : Disciplined D C R G) {r : Req} (hr : R r)
    (hs : s.start C t r = some s') : ∃ acc', s'.Follows D G acc' := by
  obtain ⟨world, orphans, heard, tasks⟩ := Pool.start_cases hs
  have last : ∀ u, lastRequest u s'.heard = if t = u then some r else lastRequest u s.heard := by
    intro u
    rw [heard]
    rfl
  refine ⟨_, world ▸ D.hand (dropTask t) dropTask_inj h.inv, ?_, orphans ▸ h.orphans,
    heard ▸ h.answers⟩
  refine h.tasks_update tasks (fun u hu => ?_) (fun u hu => ?_) fun _ => ⟨r, ?_, ?_⟩
  · simp [handOver, dropTask, hu]
  · rw [last, if_neg (Ne.symm hu)]
  · rw [last, if_pos rfl]
  · have kept : D.KeptBy Op.code (Ends G r) (some <$> serve C r) D.fresh :=
      .map ((hd.serve r hr).mono fun resp _ hG resp' h' => Option.some.inj h' ▸ hG)
    have none : handOver D.fresh (dropTask t) acc (.inl t) = D.fresh := by simp [handOver, dropTask]
    rw [none]
    exact kept

theorem taskStep (h : s.Follows D G acc) {addr : Nat} {fault : Option (IoError × Nat)}
    (hs : s.taskStep env t addr fault = some s') : ∃ acc', s'.Follows D G acc' := by
  obtain ⟨busy, orphans, task, -, tasks, hstep⟩ := Pool.taskStep_cases hs
  obtain ⟨r, hr, kept⟩ := h.tasks t busy
  -- The task goes on with its request, and its account may have changed.
  have goOn : ∀ a, s'.heard = s.heard → D.inv s'.world (Function.update acc (.inl t) a) →
      D.Kept (Ends G r) task.rest a → s'.Follows D G (Function.update acc (.inl t) a) := by
    intro a heard inv kept
    refine ⟨inv, h.tasks_update tasks (fun u hu => ?_) (fun u _ => by rw [heard])
      fun _ => ⟨r, ?_, ?_⟩,
      fun i job hi => ?_, heard ▸ h.answers⟩
    · exact Function.update_of_ne (fun heq => hu (Sum.inl.inj heq)) _ _
    · rw [heard, hr]
    · rwa [Function.update_self]
    · rw [Function.update_of_ne Sum.inr_ne_inl]
      exact h.orphans i job (orphans ▸ hi)
  have same : Function.update acc (.inl t) (acc (.inl t)) = acc := Function.update_eq_self _ acc
  rcases hstep with ⟨resp, hrest, world, rfl, events⟩ | ⟨world, rest, -, -, events⟩ |
    ⟨l, step, k, hrest, world, rest, -, -, events⟩ | ⟨o, k, x, -, hrest, hx,
      world, rest, -, -, events⟩
  · rw [hrest] at kept
    have heard : s'.heard = .ended t resp :: s.heard := congrArg (List.filter Event.bounds) events
    refine ⟨acc, world ▸ h.inv, h.tasks_update tasks (fun _ _ => rfl)
      (fun u _ => by rw [heard]; rfl)
      fun hne => absurd rfl hne, orphans ▸ h.orphans, ?_⟩
    rw [heard]
    cases resp with
    | none => exact h.answers
    | some resp =>
        exact ⟨fun r' hr' => Option.some.inj (hr.symm.trans hr') ▸ kept resp rfl, h.answers⟩
  · have heard : s'.heard = s.heard := congrArg (List.filter Event.bounds) events
    exact ⟨_, goOn (acc (.inl t)) heard (by rw [same, world]; exact h.inv) (rest ▸ kept)⟩
  · rw [hrest] at kept
    have heard : s'.heard = s.heard := by
      refine (congrArg (List.filter Event.bounds) events).trans ?_
      cases step <;> rfl
    exact ⟨_, goOn (acc (.inl t)) heard (by rw [same, world]; exact h.inv)
      (rest ▸ kept.2 () _ (D.lock _ l step))⟩
  · rw [hrest] at kept
    obtain ⟨a, post, inv⟩ := D.call h.inv kept.1 hx
    have heard : s'.heard = s.heard := congrArg (List.filter Event.bounds) events
    exact ⟨_, goOn a heard (world ▸ inv) (rest ▸ kept.2 x.1 a post)⟩

theorem drop (h : s.Follows D G acc) (hd : Disciplined D C R G) (hs : s.drop t = some s') :
    ∃ acc', s'.Follows D G acc' := by
  obtain ⟨busy, world, heard, loc, tasks, horphans⟩ := Pool.drop_cases hs
  obtain ⟨r, hr, kept⟩ := h.tasks t busy
  have last : lastRequest t s'.heard = some r := heard ▸ hr
  have same : ∀ u, u ≠ t → lastRequest u s'.heard = lastRequest u s.heard :=
    fun u _ => by rw [heard]
  have cleanup : D.Kept (Ends G r) (Task.run loc loc.cleanup).rest D.fresh :=
    (hd.cleanup loc).mono fun x _ hx resp h' => by cases hx.symm.trans h'
  rcases horphans with orphans | ⟨c, job, k, hrest, orphans⟩
  · refine ⟨_, world ▸ D.hand (dropTask t) dropTask_inj h.inv, ?_, orphans ▸ h.orphans,
      heard ▸ h.answers⟩
    refine h.tasks_update tasks (fun u hu => ?_) same fun _ => ⟨r, last, ?_⟩
    · simp [handOver, dropTask, hu]
    · simpa [handOver, dropTask] using cleanup
  · refine ⟨_, world ▸ D.hand (handToJob t) handToJob_inj h.inv, ?_, fun i j hj => ?_,
      heard ▸ h.answers⟩
    · refine h.tasks_update tasks (fun u hu => ?_) same fun _ => ⟨r, last, ?_⟩
      · simp [handOver, handToJob, hu]
      · simpa [handOver, handToJob] using cleanup
    · rw [orphans] at hj
      cases i with
      | zero =>
          cases hj
          rw [hrest] at kept
          exact kept.of_bind.bind fun _ _ _ => trivial
      | succ i => exact h.orphans i j hj

theorem orphan (h : s.Follows D G acc) {i : Nat} {fault : Option (IoError × Nat)}
    (hs : s.orphan env i fault = some s') : ∃ acc', s'.Follows D G acc' := by
  unfold Pool.orphan at hs
  split at hs
  · cases hs
  · cases hs
    refine ⟨_, D.hand (dropJob i) dropJob_inj h.inv, h.tasks, fun j job hj => ?_, h.answers⟩
    rw [List.getElem?_eraseIdx] at hj
    change D.Kept _ job (acc (.inr (if j < i then j else j + 1)))
    split_ifs at hj ⊢
    · exact h.orphans j job hj
    · exact h.orphans (j + 1) job hj
  · rename_i o k hi
    obtain ⟨x, hx, rfl⟩ := Option.map_eq_some_iff.mp hs
    have kept : D.Kept (fun _ _ => True) (.op o k) (acc (.inr i)) := h.orphans i _ hi
    obtain ⟨a, post, inv⟩ := D.call h.inv kept.1 hx
    refine ⟨Function.update acc (.inr i) a, inv, fun u hu => ?_, fun j job hj => ?_, h.answers⟩
    · rw [Function.update_of_ne Sum.inl_ne_inr]
      exact h.tasks u hu
    · by_cases hji : j = i
      · subst hji
        rw [Function.update_self]
        have : some (k x.1) = some job := by
          rw [← hj, List.getElem?_set_self (List.getElem?_eq_some_iff.mp hi).1]
        exact Option.some.inj this ▸ kept.2 x.1 a post
      · rw [Function.update_of_ne fun heq => hji (Sum.inr.inj heq)]
        rw [List.getElem?_set_ne (Ne.symm hji)] at hj
        exact h.orphans j job hj

/-- **One step of the pool.** -/
theorem next (h : s.Follows D G acc) (hd : Disciplined D C R G) {label : Label}
    (hr : ∀ t r, label = .start t r → R r) (hs : s.next env C label = some s') :
    ∃ acc', s'.Follows D G acc' := by
  cases label with
  | start t r => exact h.start hd (hr t r rfl) hs
  | step t addr fault => exact h.taskStep hs
  | grant addr =>
      obtain ⟨locks, -, rfl⟩ := Option.map_eq_some_iff.mp hs
      exact ⟨acc, h.inv, h.tasks, h.orphans, h.answers⟩
  | drop t => exact h.drop hd hs
  | orphan i fault => exact h.orphan hs
  | clock now =>
      cases hs
      exact ⟨acc, D.clock now h.inv, h.tasks, h.orphans, h.answers⟩
  | kill =>
      cases hs
      exact ⟨acc, h.inv, fun _ hne => absurd rfl hne, fun _ _ hj => (by cases hj), h.answers⟩

end Pool.Follows

/-- **In every state of every run of requests that follow a discipline, its accounts describe the
machine, and every answer was one the request may get.** -/
theorem Pool.follows_run {D : Discipline env σ} {R : Req → Prop} {G : Req → Resp → Prop}
    (hd : Disciplined D C R G) {s' : Pool} : ∀ {ls : List Label} {s : Pool} {acc : Owner → σ},
      (∀ t r, .start t r ∈ ls → R r) → s.Follows D G acc → s.run env C ls = some s' →
        ∃ acc', s'.Follows D G acc'
  | [], _, acc, _, h, hs => by
      cases hs
      exact ⟨acc, h⟩
  | label :: ls, _, _, hr, h, hs => by
      obtain ⟨s₁, hs₁, hs⟩ := Option.bind_eq_some_iff.mp hs
      obtain ⟨acc₁, h₁⟩ := h.next hd (fun t r heq => hr t r (heq ▸ List.mem_cons_self)) hs₁
      exact Pool.follows_run hd (fun t r hm => hr t r (List.mem_cons_of_mem _ hm)) h₁ hs

/-- A process that is not running yet follows any discipline the machine meets. -/
theorem Pool.follows_init {D : Discipline env σ} {G : Req → Resp → Prop} {w : World OsName}
    (h : D.inv w fun _ => D.fresh) : (Pool.init w).Follows D G fun _ => D.fresh :=
  ⟨h, fun _ hne => absurd rfl hne, fun _ _ hj => (by cases hj), trivial⟩

end Aks3.Engine
