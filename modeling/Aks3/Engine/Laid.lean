import Aks3.Engine.Effects
import Aks3.Engine.LockUse
import Aks3.Lib.Footprint

/-!
# Nothing but the layout is ever made

Whatever a method is asked and however its calls are answered, each directory it makes and
each file it creates or renames is a place of the layout (`laid_serve`). So a tree that
holds nothing else never comes to, however the methods run together, wherever they are
dropped, and however often the process is killed (`Pool.shaped_run`).
-/

set_option autoImplicit false

namespace Aks3.Engine

open Lib

/-! ## One call -/

/-- What a call makes is a place of the layout. -/
def Laid : Sys OsName LockName → Prop
  | .mkdir p => ∃ pl : Place, pl.kind = .dir ∧ p = pl.path
  | .createNew p => ∃ pl : Place, pl.kind = .file ∧ p = pl.path
  | .rename _ q => ∃ pl : Place, pl.kind = .file ∧ q = pl.path
  | _ => True

section Calls

variable {env : Env OsName} {w : World OsName}

/-- A tree whose nodes are old ones, or places that fit, is of the layout's shape. -/
theorem Shaped.of_nodes {fits : OsName → Bool} {t t' : FileTree OsName} (h : Shaped fits t)
    (hn : ∀ p x, t'.find p = some x → (∃ y, t.find p = some y ∧ y.kind = x.kind) ∨
      Fit fits p ∧ ∃ pl : Place, p = pl.path ∧ x.kind = pl.kind) : Shaped fits t' where
  place p x hx hne := by
    rcases hn p x hx with ⟨y, hy, hk⟩ | ⟨-, hpl⟩
    · rw [← hk]
      exact h.place p y hy hne
    · exact hpl
  fit p hp := by
    obtain ⟨x, hx⟩ := Option.ne_none_iff_exists'.mp hp
    rcases hn p x hx with ⟨y, hy, -⟩ | ⟨hf, -⟩
    · exact h.fit p (by simp [hy])
    · exact hf

theorem Shaped.mkdir (h : Shaped env.fits w.tree) {pl : Place} (hk : pl.kind = .dir) :
    Shaped env.fits (w.fs.mkdir env.fits pl.path).2.tree := by
  rcases Fs.mkdir_cases env.fits w.fs pl.path with
    ⟨n, q, i, hp, hx, hpath, hf, -, -, he⟩ | ⟨e, he⟩
  · rw [he]
    refine h.of_nodes fun p x hx => ?_
    rw [Fs.find_link, ← hpath] at hx
    split at hx
    · rename_i heq
      cases hx
      exact .inr ⟨heq ▸ hf, pl, heq, hk.symm⟩
    · exact .inl ⟨x, hx, rfl⟩
  · rw [he]
    exact h

theorem Shaped.createNew (h : Shaped env.fits w.tree) {pl : Place} (hk : pl.kind = .file) :
    Shaped env.fits (w.fs.createNew env.fits pl.path).2.tree := by
  rcases Fs.createNew_cases env.fits w.fs pl.path with
    ⟨n, q, i, hp, hx, hpath, hf, -, -, he⟩ | ⟨e, he⟩
  · rw [he]
    refine h.of_nodes fun p x hx => ?_
    rw [Fs.find_link, ← hpath] at hx
    split at hx
    · rename_i heq
      cases hx
      exact .inr ⟨heq ▸ hf, pl, heq, hk.symm⟩
    · exact .inl ⟨x, hx, rfl⟩
  · rw [he]
    exact h

theorem Shaped.rename (h : Shaped env.fits w.tree) (src : Path OsName) {pl : Place}
    (hk : pl.kind = .file) : Shaped env.fits (w.fs.rename env.fits src pl.path).2.tree := by
  rcases Fs.rename_cases env.fits w.fs src pl.path with
    ⟨n, p, i, m, q, j, a, d, fs', -, hdst, hf, -, -, -, -, hm, he⟩ | ⟨e, he⟩
  · rw [he]
    refine h.of_nodes fun r x hx => ?_
    rw [hm.find, ← hdst] at hx
    split at hx
    · rename_i heq
      cases hx
      exact .inr ⟨heq ▸ hf, pl, heq, hk.symm⟩
    · split at hx
      · cases hx
      · exact .inl ⟨x, hx, rfl⟩
  · rw [he]
    exact h

theorem Shaped.append (h : Shaped env.fits w.tree) (bs : Bytes) (p : Path OsName) :
    Shaped env.fits (w.fs.append env.fits bs p).2.tree := by
  rcases Fs.append_cases env.fits w.fs bs p with ⟨j, d, fs', hp, hr, he⟩ | ⟨e, he⟩
  · rw [he]
    refine h.of_nodes fun q x hx => ?_
    rw [hr.find] at hx
    split at hx
    · rename_i heq
      cases hx
      exact .inl ⟨.file j d, heq ▸ hp, rfl⟩
    · exact .inl ⟨x, hx, rfl⟩
  · rw [he]
    exact h

/-- Removing a node leaves the others as they are. -/
theorem Shaped.unlinkAt (h : Shaped env.fits w.tree) (i : Nat) (n : OsName) (p : Path OsName) (hc) :
    Shaped env.fits (w.fs.unlinkAt i n p hc).tree := by
  refine h.of_nodes fun q x hx => ?_
  rw [Fs.find_unlinkAt] at hx
  split at hx
  · cases hx
  · exact .inl ⟨x, hx, rfl⟩

/-- **A call that makes nothing but places keeps the shape.** -/
theorem Shaped.exec (h : Shaped env.fits w.tree) {o : Sys OsName LockName} (ho : Laid o) :
    Shaped env.fits (World.exec env o w).2.tree := by
  cases o with
  | mkdir p =>
      obtain ⟨pl, hk, rfl⟩ := ho
      exact h.mkdir hk
  | createNew p =>
      obtain ⟨pl, hk, rfl⟩ := ho
      exact h.createNew hk
  | rename src q =>
      obtain ⟨pl, hk, rfl⟩ := ho
      exact h.rename src hk
  | rmdir p =>
      change Shaped env.fits (w.fs.rmdir env.fits p).2.tree
      rcases Fs.rmdir_cases env.fits w.fs p with ⟨n, q, i, j, hc, -, -, -, he⟩ | ⟨e, he⟩
      · rw [he]
        exact h.unlinkAt i n q hc
      · rw [he]
        exact h
  | unlink p =>
      change Shaped env.fits (w.fs.unlink env.fits p).2.tree
      rcases Fs.unlink_cases env.fits w.fs p with ⟨n, q, i, a, d, hc, -, -, -, he⟩ | ⟨e, he⟩
      · rw [he]
        exact h.unlinkAt i n q hc
      · rw [he]
        exact h
  | append p bs => exact h.append bs p
  | syncFile p =>
      change Shaped env.fits (w.fs.syncFile env.fits p).2.tree
      rw [Fs.tree_syncFile]
      exact h
  | _ => exact h

theorem Shaped.execFault (h : Shaped env.fits w.tree) {o : Sys OsName LockName} {e : IoError}
    {part : Nat} {x : o.Res × World OsName} (hx : World.execFault env e part o w = some x) :
    Shaped env.fits x.2.tree := by
  cases o with
  | append p bs =>
      cases hx
      exact h.append (bs.take part) p
  | budget | now | uuid | recv | lock l s => cases hx
  | _ =>
      cases hx
      exact h

end Calls

/-! ## Methods -/

/-- The system calls of an operation make nothing but places. -/
def LaidOp (o : Op) : Prop := o.code.All Laid

/-- A method that makes nothing but places. -/
abbrev LaidOut {α : Type} (p : EngineProg α) : Prop := Prog.All (S := engineSig) LaidOp p

theorem laid_of_peeks (o : Sys OsName LockName) (h : Peeks o) : Laid o := by
  cases o <;> first | exact h.elim | trivial

theorem laidOp_of_reads (o : Op) (h : Reads o) : LaidOp o := all_code_of_reads laid_of_peeks o h

theorem laidOp_lock (l : LockName) (step : LockStep) : LaidOp (.prim (.lock l step)) :=
  Prog.all_call trivial

theorem laidOp_uuid : LaidOp (.prim .uuid) := Prog.all_call trivial

theorem laidOp_createDirAll (pl : Place) (hk : pl.kind = .dir) :
    LaidOp (.call (.createDirAll pl.path)) :=
  StdFs.all_createDirAll (fun _ => trivial) fun n q hq =>
    (Place.suffix_path pl hk hq).resolve_left (List.cons_ne_nil n q)

theorem laidOp_removeFile (p : Path OsName) : LaidOp (.call (.removeFile p)) :=
  Prog.all_call trivial

theorem laidOp_removeDir (p : Path OsName) : LaidOp (.call (.removeDir p)) := Prog.all_call trivial

theorem laidOp_removeDirAll (p : Path OsName) : LaidOp (.call (.removeDirAll p)) :=
  StdFs.all_removeDirAll trivial fun _ _ => ⟨trivial, trivial, trivial⟩

/-- A staged file is published at a place, in a directory that is one. -/
theorem commits_laid (u : String) (pl up : Place) (hk : pl.kind = .file) (hup : up.kind = .dir)
    (hparent : parentDir pl.path = up.path) : Commits LaidOp (tmpName u :: tmpDir) pl.path where
  stages :=
    { openNew := Prog.all_call ⟨.staged (tmpName u), rfl, rfl⟩
      writeAll := fun _ => Prog.all_call trivial
      syncAll := Prog.all_call trivial
      unlink := Prog.all_call trivial }
  createDirAll := hparent ▸ laidOp_createDirAll up hup
  rename := Prog.all_call ⟨pl, hk, rfl⟩

/-- **Whatever is asked, and however the calls are answered, nothing but places is made.** -/
theorem laid_serve (C : Crates) (r : Req) : LaidOut (serve C r) := by
  have answer : ∀ {α : Type} {x : EngineM α} {f : α → Answer}, LaidOut x.run →
      LaidOut (do pure (f (← x)) : EngineM Answer).run := fun hx =>
    .bindE hx fun _ => Prog.all_pureE _
  cases r with
  | openEngine =>
      exact answer (all_openEngine laidOp_of_reads C laidOp_uuid
        (laidOp_createDirAll .tmp rfl) (laidOp_createDirAll .buckets rfl)
        (fun _ => laidOp_removeDirAll _) (fun _ => laidOp_removeFile _)
        fun u => commits_laid u .format .aks3 rfl rfl rfl)
  | createBucket b =>
      exact answer (all_createBucket laidOp_of_reads C laidOp_lock laidOp_uuid
        (Prog.all_call ⟨.bucket b, rfl, rfl⟩) (laidOp_removeDirAll _)
        fun u => commits_laid u (.bucketMeta b) (.bucket b) rfl rfl rfl)
  | deleteBucket b =>
      exact answer (all_deleteBucket laidOp_of_reads laidOp_lock (laidOp_removeDirAll _))
  | bucketExists b => exact answer ((readOnly_bucketExists b).mono laidOp_of_reads)
  | listBuckets => exact answer ((readOnly_listBuckets C).mono laidOp_of_reads)
  | putObject b k body opts =>
      exact answer (all_putObject laidOp_of_reads C laidOp_lock laidOp_uuid
        (fun u => commits_laid u (.data b k) (.object b k) rfl rfl rfl)
        (fun u => commits_laid u (.manifest b k) (.object b k) rfl rfl rfl) body opts)
  | getObject b k range => exact answer ((readOnly_getObject C b k range).mono laidOp_of_reads)
  | headObject b k => exact answer ((readOnly_headObject C b k).mono laidOp_of_reads)
  | deleteObject b k =>
      exact answer (all_deleteObject laidOp_of_reads laidOp_lock (laidOp_removeFile _)
        (laidOp_removeFile _) fun q _ _ _ => laidOp_removeDir q)
  | listObjectsV2 b p =>
      exact answer (.bindE ((readOnly_checkedBucketDir b).mono laidOp_of_reads) fun _ =>
        all_withLock (laidOp_lock _) _ ((readOnly_listLocked C b p).mono laidOp_of_reads))

theorem laid_cleanup (loc : Locals) : LaidOut loc.cleanup := by
  have all : ∀ owned, LaidOut (destructors owned) := by
    intro owned
    induction owned with
    | nil => exact Prog.all_pure _
    | cons o owned ih =>
        cases o with
        | lock l m =>
            exact .bind (.bind (Prog.all_call (laidOp_lock l _)) fun _ =>
              Prog.all_call (laidOp_lock l _)) fun _ => ih
        | file p =>
            exact .bind (.bind (Prog.all_call (Prog.all_call trivial)) fun _ => Prog.all_pure _)
              fun _ => ih
  unfold Locals.cleanup
  split
  · exact all loc.owned
  · exact .bind (Prog.all_call (laidOp_lock _ _)) fun _ => all loc.owned

/-! ## The pool -/

/-- What is left of a task makes nothing but places. -/
def Task.LaidOut : Task → Prop
  | .idle => True
  | .run _ p => Engine.LaidOut p
  | .busy _ _ job k => job.All Laid ∧ ∀ r, Engine.LaidOut (k r)

structure Pool.LaidOut (env : Env OsName) (s : Pool) : Prop where
  shaped : Shaped env.fits s.world.tree
  tasks : ∀ t, (s.tasks t).LaidOut
  orphans : ∀ job ∈ s.orphans, job.All Laid

namespace Pool.LaidOut

variable {env : Env OsName} {C : Crates} {s s' : Pool} {t : TaskId} {task : Task}

theorem call {fault : Option (IoError × Nat)} {o : Sys OsName LockName} {w : World OsName}
    {x : o.Res × World OsName} (h : Shaped env.fits w.tree) (ho : Laid o)
    (hx : Pool.callOrFault env fault o w = some x) : Shaped env.fits x.2.tree := by
  cases fault with
  | none =>
      cases hx
      exact h.exec ho
  | some f => exact h.execFault hx

theorem update (h : s.LaidOut env) (tasks : s'.tasks = Function.update s.tasks t task)
    (shaped : Shaped env.fits s'.world.tree) (orphans : ∀ job ∈ s'.orphans, job.All Laid)
    (laid : task.LaidOut) : s'.LaidOut env := by
  refine ⟨shaped, fun u => ?_, orphans⟩
  rw [tasks]
  by_cases hut : u = t
  · subst hut
    rwa [Function.update_self]
  · rw [Function.update_of_ne hut]
    exact h.tasks u

theorem taskStep (h : s.LaidOut env) {addr : Nat} {fault : Option (IoError × Nat)}
    (hs : s.taskStep env t addr fault = some s') : s'.LaidOut env := by
  have ht := h.tasks t
  unfold Pool.taskStep at hs
  split at hs
  · cases hs
  · rename_i loc c r k htask
    rw [htask] at ht
    cases hs
    exact h.update rfl h.shaped h.orphans (ht.2 r)
  · rename_i loc c o j k htask
    rw [htask] at ht
    obtain ⟨x, hx, rfl⟩ := Option.map_eq_some_iff.mp hs
    exact h.update rfl (call h.shaped ht.1.1 hx) h.orphans ⟨ht.1.2 x.1, ht.2⟩
  · cases hs
    exact h.update rfl h.shaped h.orphans trivial
  · rename_i loc c k htask
    rw [htask] at ht
    cases hs
    exact h.update rfl h.shaped h.orphans ⟨ht.1, ht.2⟩
  · rename_i loc l step k htask
    rw [htask] at ht
    obtain ⟨loc', p', tasks, world, orphans, hp, -⟩ := Pool.lockStep_cases hs
    refine h.update tasks (world ▸ h.shaped) (orphans ▸ h.orphans) ?_
    rcases hp with rfl | rfl
    · exact ht
    · exact ht.2 ()
  · rename_i loc o k hlock htask
    rw [htask] at ht
    obtain ⟨x, hx, rfl⟩ := Option.map_eq_some_iff.mp hs
    exact h.update rfl (call h.shaped ht.1.1 hx) h.orphans (ht.2 x.1)

theorem next (h : s.LaidOut env) {label : Label} (hs : s.next env C label = some s') :
    s'.LaidOut env := by
  cases label with
  | start t r =>
      change s.start C t r = some s' at hs
      unfold Pool.start at hs
      split at hs
      · cases hs
        exact h.update rfl h.shaped h.orphans (laid_serve C .openEngine).map
      · cases hs
      · cases hs
        exact h.update rfl h.shaped h.orphans (laid_serve C _).map
      · cases hs
  | step t addr fault => exact h.taskStep hs
  | grant addr =>
      obtain ⟨locks, -, rfl⟩ := Option.map_eq_some_iff.mp hs
      exact ⟨h.shaped, h.tasks, h.orphans⟩
  | drop t =>
      change s.drop t = some s' at hs
      have ht := h.tasks t
      unfold Pool.drop at hs
      split at hs
      · rename_i loc c job k htask
        rw [htask] at ht
        cases hs
        refine h.update rfl h.shaped (fun j hj => ?_) (laid_cleanup loc)
        rcases List.mem_cons.mp hj with rfl | hj
        · exact ht.1.bind fun _ => Prog.all_pure _
        · exact h.orphans j hj
      · split at hs
        · cases hs
          exact h.update rfl h.shaped h.orphans (laid_cleanup _)
        · cases hs
      · cases hs
  | orphan i fault =>
      change s.orphan env i fault = some s' at hs
      unfold Pool.orphan at hs
      split at hs
      · cases hs
      · cases hs
        exact ⟨h.shaped, h.tasks, fun j hj => h.orphans j (List.mem_of_mem_eraseIdx hj)⟩
      · rename_i o j hi
        have all : Prog.All Laid (.op o j) := h.orphans _ (List.mem_of_getElem? hi)
        obtain ⟨x, hx, rfl⟩ := Option.map_eq_some_iff.mp hs
        refine ⟨call h.shaped all.1 hx, h.tasks, fun job hjob => ?_⟩
        rcases List.mem_or_eq_of_mem_set hjob with hjob | rfl
        · exact h.orphans job hjob
        · exact all.2 x.1
  | clock now =>
      cases hs
      exact ⟨h.shaped, h.tasks, h.orphans⟩
  | kill =>
      cases hs
      exact ⟨h.shaped, fun _ => trivial, fun _ hj => nomatch hj⟩

end Pool.LaidOut

/-- **However requests run together, fail, are dropped and killed, the tree keeps its shape.** -/
theorem Pool.shaped_run {env : Env OsName} {C : Crates} {s' : Pool} :
    ∀ {ls : List Label} {s : Pool},
    s.LaidOut env → s.run env C ls = some s' → s'.LaidOut env
  | [], _, h, hs => by
      cases hs
      exact h
  | _ :: _, _, h, hs => by
      obtain ⟨s₁, hs₁, hs⟩ := Option.bind_eq_some_iff.mp hs
      exact Pool.shaped_run (h.next hs₁) hs

end Aks3.Engine
