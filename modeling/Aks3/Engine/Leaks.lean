import Aks3.Engine.FailedCreate
import Aks3.Engine.Laid
import Aks3.Engine.Staging

/-!
# No staged file is left behind

A pool of requests is run in any order, with any calls failing and any requests dropped. Whatever
comes into the staging directory is on the account of some task from then on (`Staged`), and a task
that has ended has no account. So when all have ended nothing of theirs is left.

Two things are outside of this: a destructor that fails, which is best effort, and a request that is
dropped while its staged file is being created, which has no destructor yet.
-/

set_option autoImplicit false

namespace Aks3.Engine

open Lib

/-! ## Tasks -/

/-- A job that was handed over for a call, as far as it has come. -/
def Job : (c : Call) → WalkProg c.Res → Prop
  | .openNew p, job => job = StdFs.createNew p ∨ ∃ r, job = .pure r
  | .rename src dst, job =>
    KeepsOut (.rename src dst) ∧ (job = StdFs.rename src dst ∨ ∃ r, job = .pure r)
  | _, job => job.All KeepsOut

theorem job_code {c : Call} (h : staging.allowed (.call c)) : Job c c.code := by
  cases c with
  | openNew p => exact .inl rfl
  | rename src dst => exact ⟨h.1, .inl rfl⟩
  | _ => exact h

theorem Job.keepsOut {c : Call} {job : WalkProg c.Res} (h : Job c job) (hc : ∀ p, c ≠ .openNew p) :
    job.All KeepsOut := by
  cases c with
  | openNew p => exact absurd rfl (hc p)
  | rename src dst =>
      obtain ⟨out, rfl | ⟨r, rfl⟩⟩ := h
      · exact all_sys out
      · trivial
  | _ => exact h

/-- The files a task has to see to. A job that is done has its answer, even if the task has not
taken it yet. -/
def Task.files : Task → Multiset (Path OsName)
  | .idle => 0
  | .run loc _ => loc.files
  | .busy loc c (.pure r) _ => staging.entry (.call c) r loc.files
  | .busy loc _ (.op _ _) _ => loc.files

/-- A task ends with nothing to see to, whatever it is answered. -/
def Task.Kept : Task → Prop
  | .idle => True
  | .run loc p => staging.Kept (fun _ F => F = 0) p loc.files
  | .busy loc c job k => Job c job ∧
      ∀ r, staging.Kept (fun _ F => F = 0) (k r) (staging.entry (.call c) r loc.files)

section Tasks

variable {env : Env OsName} {w₀ w : World OsName} {fault : Option (IoError × Nat)} {loc : Locals}
  {c : Call} {k : c.Res → EngineProg (Option Resp)} {q : Path OsName}

theorem Task.files_submit : (Task.busy loc c c.code k).files = loc.files := by
  cases c with
  | openNew p => rfl
  | rename src dst => rfl
  | createDirAll p => cases (Call.createDirAll p).code <;> rfl
  | removeDirAll p => cases (Call.removeDirAll p).code <;> rfl
  | tryExists p => cases (Call.tryExists p).code <;> rfl
  | sortedKeys p => cases (Call.sortedKeys p).code <;> rfl
  | _ => rfl

/-- Only a creation that is done is not among the locals yet. -/
theorem Task.mem_files_of_busy {job : WalkProg c.Res} (hc : ∀ p, c ≠ .openNew p)
    (h : q ∈ (Task.busy loc c job k).files) : q ∈ loc.files := by
  cases job with
  | op o j => exact h
  | pure r =>
      cases c with
      | openNew p => exact absurd rfl (hc p)
      | rename src dst =>
          cases r with
          | error e => exact h
          | ok u => exact Multiset.mem_of_mem_erase h
      | _ => exact h

/-- What a call of a job does to the staging directory: `q` is a stray there after it only if the
task has it on its account now, or it was a stray before and did not leave the account. -/
def Accounted (w₀ w w' : World OsName) (F F' : Multiset (Path OsName)) : Prop :=
  ∀ n, Stray w₀ w' (n :: tmpDir) →
    n :: tmpDir ∈ F' ∨ Stray w₀ w (n :: tmpDir) ∧ (n :: tmpDir ∈ F → n :: tmpDir ∈ F')

/-- What is stray in the staging directory can be removed. -/
def StraysRemovable (env : Env OsName) (w₀ w : World OsName) : Prop :=
  ∀ n, Stray w₀ w (n :: tmpDir) → Removable env w (n :: tmpDir)

theorem accounted_keepsOut {o : Sys OsName LockName} {x : o.Res × World OsName} (ho : KeepsOut o)
    (h : Pool.callOrFault env fault o w = some x) (F : Multiset (Path OsName)) :
    Accounted w₀ w x.2 F F :=
  fun n hs => .inr ⟨(Stray.of_call h (ho n) hs).1, id⟩

theorem straysRemovable_keepsOut {o : Sys OsName LockName} {x : o.Res × World OsName}
    (ho : KeepsOut o) (h : Pool.callOrFault env fault o w = some x)
    (hw : StraysRemovable env w₀ w) :
    StraysRemovable env w₀ x.2 := by
  intro n hs
  obtain ⟨before, keeps⟩ := Stray.of_call h (ho n) hs
  exact keeps (hw n before)

variable (loc k) in
/-- A call of a job. -/
theorem job_step {o : Sys OsName LockName} {j : o.Res → WalkProg c.Res} {x : o.Res × World OsName}
    (hj : Job c (.op o j)) (h : Pool.callOrFault env fault o w = some x)
    (hw : StraysRemovable env w₀ w) :
    Job c (j x.1) ∧ StraysRemovable env w₀ x.2 ∧
      Accounted w₀ w x.2 loc.files (Task.busy loc c (j x.1) k).files := by
  cases c with
  | openNew p =>
      obtain hop | ⟨r, hop⟩ := hj
      · change Prog.op o j = Prog.op (S := sysSig OsName LockName) (.createNew p) .pure at hop
        cases hop
        obtain ⟨r, w'⟩ := x
        refine ⟨.inr ⟨r, rfl⟩, fun n hs => ?_, fun n hs => ?_⟩
        · rcases Stray.of_createNew h hs with ⟨-, -, rem⟩ | ⟨before, keeps⟩
          · exact rem
          · exact keeps (hw n before)
        · rcases Stray.of_createNew h hs with ⟨hn, hr, -⟩ | ⟨before, -⟩
          · subst hr
            exact .inl (hn ▸ Multiset.mem_cons_self _ _)
          · refine .inr ⟨before, fun hm => ?_⟩
            cases r with
            | error e => exact hm
            | ok u => exact Multiset.mem_cons_of_mem hm
      · cases hop
  | rename src dst =>
      obtain ⟨out, hop | ⟨r, hop⟩⟩ := hj
      · change Prog.op o j = Prog.op (S := sysSig OsName LockName) (.rename src dst) .pure at hop
        cases hop
        obtain ⟨r, w'⟩ := x
        refine ⟨⟨out, .inr ⟨r, rfl⟩⟩, straysRemovable_keepsOut out h hw, fun n hs => ?_⟩
        refine .inr ⟨(Stray.of_call h (out n) hs).1, fun hm => ?_⟩
        cases r with
        | error e => exact hm
        | ok u => exact (Multiset.mem_erase_of_ne (ne_of_rename (out n) h hs)).mpr hm
      · cases hop
  | _ =>
      refine ⟨hj.2 _, straysRemovable_keepsOut hj.1 h hw, ?_⟩
      have same : Accounted w₀ w x.2 loc.files loc.files := accounted_keepsOut hj.1 h loc.files
      cases hr : j x.1 <;> exact same

/-- A step of a method's own. A destructor takes its file off the account, and removes it. -/
theorem accounted_prim {o : Sys OsName LockName} {x : o.Res × World OsName} (ho : KeepsOut o)
    (h : Pool.callOrFault env fault o w = some x) (hw : StraysRemovable env w₀ w)
    (hf : fault = none ∨ ∀ p, o ≠ .unlink p) : Accounted w₀ w x.2 loc.files
    (loc.onPrim o).files := by
  cases o with
  | unlink p =>
      obtain rfl := hf.resolve_right fun hne => hne p rfl
      intro n hs
      have before := (Stray.of_call h (ho n) hs).1
      refine .inr ⟨before, fun hm => ?_⟩
      cases h
      rw [loc.files_onPrim (.unlink p) (.ok ())]
      exact (Multiset.mem_erase_of_ne (ne_of_unlink (hw n before) hs)).mpr hm
  | _ => exact accounted_keepsOut ho h loc.files

end Tasks

/-! ## The pool -/

/-- Whatever is in the staging directory and was not there at first is on the account of a task. -/
structure Staged (env : Env OsName) (w₀ : World OsName) (s : Pool) : Prop where
  removable : StraysRemovable env w₀ s.world
  held : ∀ n, Stray w₀ s.world (n :: tmpDir) → ∃ t, n :: tmpDir ∈ (s.tasks t).files
  kept : ∀ t, (s.tasks t).Kept
  orphans : ∀ job ∈ s.orphans, job.All KeepsOut

/-- The process is not killed or opened again, no destructor fails, and no request is dropped while
its staged file is being created. -/
def Pool.Orderly (s : Pool) : Label → Prop
  | .start _ r => r ≠ .openEngine
  | .step t _ (some _) => ∀ loc p k, s.tasks t ≠ .run loc (.op (.prim (.unlink p)) k)
  | .drop t => ∀ loc p job k, s.tasks t ≠ .busy loc (.openNew p) job k
  | .kill => False
  | _ => True

instance decidableRemoves (task : Task) :
    Decidable (∀ loc p k, task ≠ .run loc (.op (.prim (.unlink p)) k)) := by
  cases task with
  | run loc rest =>
      cases rest with
      | op o k =>
          cases o with
          | prim s =>
              cases s with
              | unlink p => exact isFalse fun h => h loc p k rfl
              | _ => exact isTrue fun _ _ _ h => by cases h
          | call c => exact isTrue fun _ _ _ h => by cases h
      | pure r => exact isTrue fun _ _ _ h => by cases h
  | _ => exact isTrue fun _ _ _ h => by cases h

instance decidableCreates (task : Task) :
    Decidable (∀ loc p job k, task ≠ .busy loc (.openNew p) job k) := by
  cases task with
  | busy loc c job k =>
      cases c with
      | openNew p => exact isFalse fun h => h loc p job k rfl
      | _ => exact isTrue fun _ _ _ _ h => by cases h
  | _ => exact isTrue fun _ _ _ _ h => by cases h

instance decidableOrderly (s : Pool) : DecidablePred s.Orderly
  | .start _ .openEngine => isFalse fun h => h rfl
  | .start _ (.createBucket _) | .start _ (.deleteBucket _) | .start _ (.bucketExists _)
  | .start _ .listBuckets | .start _ (.putObject _ _ _ _) | .start _ (.getObject _ _ _)
  | .start _ (.headObject _ _) | .start _ (.deleteObject _ _) | .start _ (.listObjectsV2 _ _) =>
    isTrue nofun
  | .step t _ (some _) => decidableRemoves (s.tasks t)
  | .drop t => decidableCreates (s.tasks t)
  | .kill => isFalse id
  | .step _ _ none | .grant _ | .orphan _ _ | .clock _ => isTrue trivial

namespace Staged

variable {env : Env OsName} {C : Crates} {w₀ : World OsName} {s s' : Pool}
    {t : TaskId} {task : Task}

theorem start (idle : ∀ t, s.tasks t = .idle) (none : s.orphans = []) : Staged env s.world s := by
  have nothing : ∀ q, ¬ Stray s.world s.world q := fun q ⟨y, hy, new⟩ => new y hy rfl
  refine ⟨fun n hs => absurd hs (nothing _), fun n hs => absurd hs (nothing _), fun t => ?_, ?_⟩
  · rw [idle t]
    trivial
  · rw [none]
    exact fun _ h => nomatch h

/-- A step that replaces one task. -/
theorem update (h : Staged env w₀ s) (tasks : s'.tasks = Function.update s.tasks t task)
    (kept : task.Kept) (orphans : ∀ job ∈ s'.orphans, job.All KeepsOut)
    (removable : StraysRemovable env w₀ s'.world)
    (acc : Accounted w₀ s.world s'.world (s.tasks t).files task.files) : Staged env w₀ s' := by
  refine ⟨removable, fun n hs => ?_, fun u => ?_, orphans⟩
  · have self : s'.tasks t = task := by rw [tasks, Function.update_self]
    rcases acc n hs with now | ⟨before, keeps⟩
    · exact ⟨t, self ▸ now⟩
    · obtain ⟨u, hu⟩ := h.held n before
      by_cases hut : u = t
      · subst hut
        exact ⟨u, self ▸ keeps hu⟩
      · refine ⟨u, ?_⟩
        rwa [tasks, Function.update_of_ne hut]
  · rw [tasks]
    by_cases hut : u = t
    · subst hut
      rwa [Function.update_self]
    · rw [Function.update_of_ne hut]
      exact h.kept u

/-- A step that replaces one task and changes nothing else that matters here. -/
theorem retask (h : Staged env w₀ s) (tasks : s'.tasks = Function.update s.tasks t task)
    (world : s'.world = s.world) (orphans : s'.orphans = s.orphans) (kept : task.Kept)
    (files : ∀ q, q ∈ (s.tasks t).files → q ∈ task.files) : Staged env w₀ s' := by
  refine h.update tasks kept (orphans ▸ h.orphans) (world ▸ h.removable) fun n hs => ?_
  exact .inr ⟨world ▸ hs, files _⟩

/-- A step on the lock tables. -/
theorem lockStep (h : Staged env w₀ s) {loc : Locals} {l : LockName} {addr : Nat}
    {again p : EngineProg (Option Resp)} {step : LockStep}
    (htask : (s.tasks t).files = loc.files)
    (hagain : staging.Kept (fun _ F => F = 0) again loc.files)
    (hp : staging.Kept (fun _ F => F = 0) p loc.files)
    (hs : s.lockStep t loc l addr again p step = some s') : Staged env w₀ s' := by
  obtain ⟨loc', p', tasks, world, orphans, hp', owned⟩ := Pool.lockStep_cases hs
  have files : loc'.files = loc.files := by
    unfold Locals.files
    rcases owned with owned | ⟨m, owned | owned⟩
    · rw [owned]
    · rw [owned, filesOf]
    · rw [owned, filesOf_erase_lock]
  refine h.retask tasks world orphans ?_ fun q hq => ?_
  · change staging.Kept _ p' loc'.files
    rw [files]
    rcases hp' with rfl | rfl
    · exact hagain
    · exact hp
  · change q ∈ loc'.files
    rwa [files, ← htask]

theorem taskStep (h : Staged env w₀ s) {addr : Nat} {fault : Option (IoError × Nat)}
    (ho : s.Orderly (.step t addr fault)) (hs : s.taskStep env t addr fault = some s') :
    Staged env w₀ s' := by
  have hk := h.kept t
  unfold Pool.taskStep at hs
  split at hs
  · cases hs
  · -- The answer of a job is taken.
    rename_i loc c r k htask
    rw [htask] at hk
    cases hs
    refine h.retask rfl rfl rfl ?_ fun q hq => ?_
    · change staging.Kept _ (k r) (loc.onReturn c r).files
      rw [loc.files_onReturn]
      exact hk.2 r
    · rw [htask] at hq
      change q ∈ (loc.onReturn c r).files
      rwa [loc.files_onReturn]
  · rename_i loc c o j k htask
    rw [htask] at hk
    obtain ⟨x, hx, rfl⟩ := Option.map_eq_some_iff.mp hs
    obtain ⟨job, removable, acc⟩ := job_step loc k hk.1 hx h.removable
    refine h.update rfl ⟨job, hk.2⟩ h.orphans removable ?_
    rw [htask]
    exact acc
  · -- The task ends, with an empty account.
    rename_i loc resp htask
    rw [htask] at hk
    cases hs
    refine h.retask rfl rfl rfl trivial fun q hq => ?_
    have empty : loc.files = 0 := hk
    rw [htask] at hq
    change q ∈ loc.files at hq
    rw [empty] at hq
    exact absurd hq (Multiset.notMem_zero q)
  · rename_i loc c k htask
    rw [htask] at hk
    cases hs
    refine h.retask rfl rfl rfl ⟨job_code hk.1, fun r => ?_⟩ fun q hq => ?_
    · rw [loc.files_onSubmit]
      exact hk.2 r
    · rw [htask] at hq
      have submitted : (Task.busy (loc.onSubmit c) c c.code k).files = loc.files :=
        Task.files_submit.trans (loc.files_onSubmit c)
      exact submitted ▸ hq
  · rename_i loc l step k htask
    rw [htask] at hk
    exact h.lockStep (by rw [htask]; rfl) hk (hk.2 ()) hs
  · rename_i loc o k hlock htask
    rw [htask] at hk
    obtain ⟨x, hx, rfl⟩ := Option.map_eq_some_iff.mp hs
    have unfailing : fault = none ∨ ∀ p, o ≠ .unlink p := by
      cases fault with
      | none => exact .inl rfl
      | some f =>
          refine .inr ?_
          rintro p rfl
          exact ho loc p k htask
    refine h.update rfl ?_ h.orphans (straysRemovable_keepsOut hk.1 hx h.removable) ?_
    · change staging.Kept _ (k x.1) (loc.onPrim o).files
      rw [loc.files_onPrim o x.1]
      exact hk.2 x.1
    · rw [htask]
      exact accounted_prim hk.1 hx h.removable unfailing

theorem begin (h : Staged env w₀ s) {r : Req} (hr : r ≠ .openEngine)
    (hs : s.start C t r = some s') : Staged env w₀ s' := by
  unfold Pool.start at hs
  split at hs
  · exact absurd rfl hr
  · cases hs
  · rename_i hidle _ _
    cases hs
    refine h.retask rfl rfl rfl (.map (tidy_serve C hr 0)) fun q hq => ?_
    rw [hidle] at hq
    exact absurd hq (Multiset.notMem_zero q)
  · cases hs

theorem drop (h : Staged env w₀ s) (ho : s.Orderly (.drop t)) (hs : s.drop t = some s') :
    Staged env w₀ s' := by
  have hk := h.kept t
  unfold Pool.drop at hs
  split at hs
  · -- The job runs on. It is none that creates a file in the staging directory.
    rename_i loc c job k htask
    rw [htask] at hk
    have other : ∀ p, c ≠ .openNew p := by
      rintro p rfl
      exact ho loc p job k htask
    cases hs
    refine h.update rfl (kept_cleanup loc) ?_ h.removable fun n hs => .inr ⟨hs, fun hm => ?_⟩
    · intro j hj
      rcases List.mem_cons.mp hj with rfl | hj
      · exact (hk.1.keepsOut other).bind fun _ => Prog.all_pure _
      · exact h.orphans j hj
    · rw [htask] at hm
      exact Task.mem_files_of_busy other hm
  · rename_i loc p htask
    split at hs
    · cases hs
      refine h.retask rfl rfl rfl (kept_cleanup loc) fun q hq => ?_
      rw [htask] at hq
      exact hq
    · cases hs
  · cases hs

/-- A step that changes no task. -/
theorem same_tasks (h : Staged env w₀ s) (tasks : s'.tasks = s.tasks)
    (orphans : ∀ job ∈ s'.orphans, job.All KeepsOut) (removable : StraysRemovable env w₀ s'.world)
    (strays : ∀ n, Stray w₀ s'.world (n :: tmpDir) → Stray w₀ s.world (n :: tmpDir)) :
    Staged env w₀ s' :=
  ⟨removable, fun n hs => tasks ▸ h.held n (strays n hs), fun t => tasks ▸ h.kept t, orphans⟩

theorem orphan (h : Staged env w₀ s) {i : Nat} {fault : Option (IoError × Nat)}
    (hs : s.orphan env i fault = some s') : Staged env w₀ s' := by
  unfold Pool.orphan at hs
  split at hs
  · cases hs
  · cases hs
    exact h.same_tasks rfl (fun j hj => h.orphans j (List.mem_of_mem_eraseIdx hj)) h.removable
      fun _ => id
  · rename_i o j hi
    have all : Prog.All KeepsOut (.op o j) := h.orphans _ (List.mem_of_getElem? hi)
    obtain ⟨x, hx, rfl⟩ := Option.map_eq_some_iff.mp hs
    refine h.same_tasks rfl (fun job hjob => ?_) (straysRemovable_keepsOut all.1 hx h.removable)
      fun n hs => (Stray.of_call hx (all.1 n) hs).1
    rcases List.mem_or_eq_of_mem_set hjob with hjob | rfl
    · exact h.orphans job hjob
    · exact all.2 x.1

/-- **A step keeps every stray on some task's account.** -/
theorem next (h : Staged env w₀ s) {label : Label} (ho : s.Orderly label)
    (hs : s.next env C label = some s') : Staged env w₀ s' := by
  cases label with
  | start t r => exact h.begin ho hs
  | step t addr fault => exact h.taskStep ho hs
  | grant addr =>
      obtain ⟨locks, -, rfl⟩ := Option.map_eq_some_iff.mp hs
      exact h.same_tasks rfl h.orphans h.removable fun _ => id
  | drop t => exact h.drop ho hs
  | orphan i fault => exact h.orphan hs
  | clock now =>
      cases hs
      exact h.same_tasks rfl h.orphans h.removable fun _ => id
  | kill => exact ho.elim

theorem run : ∀ {ls : List Label} {s : Pool}, Staged env w₀ s → s.Meets Pool.Orderly env C ls →
    s.run env C ls = some s' → Staged env w₀ s'
  | [], _, h, _, hs => by
      cases hs
      exact h
  | _ :: _, _, h, ⟨ho, hrest⟩, hs => by
      obtain ⟨s₁, hs₁, hs⟩ := Option.bind_eq_some_iff.mp hs
      exact run (h.next ho hs₁) (hrest s₁ hs₁) hs

end Staged

/-! ## The next start -/

/-- A store of the layout has an empty staging directory once opening it was tried, whether or not
its stamp could be read. -/
theorem openEngine_clears {env : Env OsName} {C : Crates} {w : World OsName} (hown : OwnNames env)
    (hs : Shaped env.fits w.tree) (n : OsName) :
    (runAlone env (serve C .openEngine) w).2.tree.find (n :: tmpDir) = none := by
  by_cases hst : Stamped C w.tree
  · obtain ⟨w', hrun, ready, -⟩ := openEngine_run hown hs hst
    rw [hrun]
    cases hx : w'.tree.find (n :: tmpDir) with
    | none => rfl
    | some x =>
        have file : x.kind = (Place.staged n).kind := ready.shaped.kind_eq hx
        have free := ready.empty n
        cases x with
        | file i d => exact nomatch free.symm.trans (FileTree.fileAt_eq_some.mpr ⟨i, hx⟩)
        | dir i => cases file
  · -- The stamp is there, so the sweep is the last thing that changes anything.
    have present : ∃ x, w.tree.find formatPath = some x := by
      by_contra none
      refine hst fun bytes hb => ?_
      obtain ⟨i, hi⟩ := FileTree.fileAt_eq_some.mp hb
      exact absurd ⟨_, hi⟩ none
    obtain ⟨x, hx⟩ := present
    have tmp_fit : Fit env.fits tmpDir := hown.tmp_fit
    have buckets_fit : Fit env.fits bucketsDir := hown.buckets_fit
    obtain ⟨w₁, run₁, file₁, dir₁, -⟩ := mkdirs_run tmp_fit (hs.clear .tmp rfl)
    have hs₁ : Shaped env.fits w₁.tree := hs.of_view (fun q hq => .inl (file₁ q ▸ hq))
      fun q hq => ((dir₁ q).mp hq).imp_right (Place.suffix_fit .tmp rfl hown.tmp_fit)
    obtain ⟨w₂, run₂, file₂, dir₂, -⟩ := mkdirs_run buckets_fit (hs₁.clear .buckets rfl)
    have hs₂ : Shaped env.fits w₂.tree := hs₁.of_view (fun q hq => .inl (file₂ q ▸ hq))
      fun q hq => ((dir₂ q).mp hq).imp_right (Place.suffix_fit .buckets rfl hown.buckets_fit)
    have tmp₂ : w₂.tree.IsDir tmpDir := (dir₂ _).mpr (.inl ((dir₁ _).mpr (.inr List.suffix_rfl)))
    obtain ⟨w₃, run₃, empty₃, -⟩ := sweepTmp_clears hs₂.fit tmp₂
    have hx₁ := find_of_spares env (spares_mkdirs tmpDir) hx
    rw [run₁] at hx₁
    have hx₂ := find_of_spares env (spares_mkdirs bucketsDir) hx₁
    rw [run₂] at hx₂
    have hx₃ := find_of_spares env (spares_sweepTmp outside_formatPath) hx₂
    rw [run₃] at hx₃
    rw [serve_openEngine_run, openSteps, Prog.run_bind_ok run₁, Prog.run_bind_ok run₂,
      Prog.run_bind_ok run₃]
    dsimp only
    rw [initFormat_present hown hx₃]
    exact empty₃ n

/-- **Requests run together in any order, with calls failing and requests dropped. Once all have
ended, what is in the staging directory was there before them, unless a destructor failed or a
request was dropped while its file was being created. And whatever happened before a process was
killed, opening the store again leaves the staging directory empty.** -/
theorem staging_never_leaks (env : Env OsName) (C : Crates) (hown : OwnNames env) (s₀ s : Pool)
    (ls : List Label) (idle₀ : ∀ t, s₀.tasks t = .idle) (none₀ : s₀.orphans = [])
    (hrun : s₀.run env C ls = some s) :
    (s₀.Meets Pool.Orderly env C ls → (∀ t, s.tasks t = .idle) →
      ∀ n y, s.world.tree.find (n :: tmpDir) = some y →
        ∃ z, s₀.world.tree.find (n :: tmpDir) = some z ∧ z.slot = y.slot) ∧
    (Shaped env.fits s₀.world.tree →
      ∀ n, (runAlone env (serve C .openEngine) s.kill.world).2.tree.find (n :: tmpDir) = none) := by
  refine ⟨fun orderly idle n y hy => ?_, fun shaped n => ?_⟩
  · have staged₀ : Staged env s₀.world s₀ := .start idle₀ none₀
    have staged := staged₀.run orderly hrun
    by_contra other
    have stray : Stray s₀.world s.world (n :: tmpDir) :=
      ⟨y, hy, fun z hz slot => other ⟨z, hz, slot⟩⟩
    obtain ⟨t, ht⟩ := staged.held n stray
    rw [idle t] at ht
    exact Multiset.notMem_zero _ ht
  · have laid₀ : s₀.LaidOut env := by
      refine ⟨shaped, fun t => ?_, ?_⟩
      · rw [idle₀ t]
        trivial
      · rw [none₀]
        exact fun _ h => nomatch h
    exact openEngine_clears hown (Pool.shaped_run laid₀ hrun).shaped n

/-- A process that serves a store it just opened. -/
def servingStore : Pool := { Pool.init openedStore with phase := .up }

/-- A bucket is being created, and its metadata is about to be written to a staged file. -/
def writingMeta : List Label :=
  [.start 1 (.createBucket "abc")] ++ steps 1 2 ++ [.grant 0] ++ steps 1 10

/-- The request is dropped then. The write it handed over ends after its destructors. -/
def droppedWriting : List Label :=
  writingMeta ++ [.drop 1] ++ steps 1 4 ++ [.orphan 0 none, .orphan 0 none]

/-- The write fails, and so does the destructor that should remove the file. -/
def failedDestructor : List Label :=
  writingMeta ++ [.step 1 0 (some (ErrorKind.storageFull.os, 0))] ++ steps 1 1 ++
    [.step 1 0 (some (ErrorKind.other.os, 0))] ++ steps 1 8

/-- Only task 1 is ever started, so it is enough that it has ended. -/
theorem idle_of_first {s : Pool} {ls : List Label}
    (hs : servingStore.run sampleEnv sampleCrates ls = some s)
    (htask : ∀ l ∈ ls, l.task ∈ [none, some 1]) (h₁ : (s.tasks 1).isIdle) (t : TaskId) :
    s.tasks t = .idle := by
  by_cases ht : t = 1
  · subst ht
    exact Task.eq_idle h₁
  · refine Pool.idle_run ls hs rfl fun l hl heq => ?_
    have known := htask l hl
    rw [heq] at known
    simp [ht] at known

/-- The request that was dropped while it wrote has left nothing. -/
theorem staging_never_leaks_dropped : ∃ s, servingStore.run sampleEnv sampleCrates
    droppedWriting = some s ∧
    (∀ n y, s.world.tree.find (n :: tmpDir) = some y →
      ∃ z, openedStore.tree.find (n :: tmpDir) = some z ∧ z.slot = y.slot) ∧
    ∀ n, (runAlone sampleEnv (serve sampleCrates .openEngine) s.kill.world).2.tree.find
      (n :: tmpDir) = none := by
  have hrun : (servingStore.run sampleEnv sampleCrates droppedWriting).any
      (fun s => (s.tasks 1).isIdle) = true := by decide +kernel
  obtain ⟨s, hs, hend⟩ := (Option.any_eq_true ..).mp hrun
  have orderly : servingStore.Meets Pool.Orderly sampleEnv sampleCrates droppedWriting := by
    decide +kernel
  have result := staging_never_leaks sampleEnv sampleCrates (.of_all fun _ => rfl) servingStore s
    droppedWriting (fun _ => rfl) rfl hs
  exact ⟨s, hs, result.1 orderly (idle_of_first hs (by decide) hend),
    result.2 ready_openedStore.shaped⟩

/-- **A destructor that fails leaves its file behind, with the process alive and nothing in
flight.** -/
theorem staging_keeps_failed_destructor : ∃ s n, servingStore.run sampleEnv sampleCrates
    failedDestructor = some s ∧
    (∀ t, s.tasks t = .idle) ∧ s.orphans = [] ∧ s.phase = .up ∧
    openedStore.tree.find (n :: tmpDir) = none ∧ s.world.tree.fileAt (n :: tmpDir) = some [] := by
  have hrun : (servingStore.run sampleEnv sampleCrates failedDestructor).any
      (fun s => (s.tasks 1).isIdle && s.orphans.isEmpty && decide (s.phase = .up) &&
        decide (openedStore.tree.find
          (tmpName (sampleEnv.uuid openedStore.tick) :: tmpDir) = none) &&
        decide (s.world.tree.fileAt
          (tmpName (sampleEnv.uuid openedStore.tick) :: tmpDir) = some [])) = true := by
    decide +kernel
  obtain ⟨s, hs, hend⟩ := (Option.any_eq_true ..).mp hrun
  simp only [Bool.and_eq_true, decide_eq_true_eq, List.isEmpty_iff] at hend
  obtain ⟨⟨⟨⟨h₁, orphans⟩, up⟩, free⟩, file⟩ := hend
  exact ⟨s, _, hs, idle_of_first hs (by decide) h₁, orphans, up, free, file⟩

end Aks3.Engine
