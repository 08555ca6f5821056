import Aks3.Engine.Buckets
import Aks3.Engine.Effects
import Aks3.Engine.Sample
import Aks3.Lib.Footprint

/-!
# What opening a data directory leaves alone

The layout is made and the staging directory swept before the stamp is looked at. So a data
directory with a stamp this build refuses is still changed, unless an earlier step fails or has
nothing to do: `openEngine_leaves_alone_iff` says exactly when. The trees here are arbitrary, not
only those a build leaves behind. What is outside the staging directory is never changed
(`openSteps_outside`).
-/

set_option autoImplicit false

namespace Aks3.Engine

open Lib

variable {C : Crates} {env : Env OsName} {w : World OsName} {q : Path OsName}

/-! ## Operations that spare a path -/

/-- The operation does not change what is at the path. -/
abbrev Spares (q : Path OsName) (o : Op) : Prop := 
  o.code.All fun s : Sys OsName LockName => ¬ s.Spoils q

theorem find_of_spares (env : Env OsName) {α : Type} {p : EngineProg α}
    (hp : p.All (Spares q)) {x : Node}
    (h : w.tree.find q = some x) : (p.run (engineExec env) w).2.tree.find q = some x := by
  have step : ∀ (o : Op) (w : World OsName), Spares q o → w.tree.find q = some x →
      (engineExec env o w).2.tree.find q = some x := fun o w ho hw =>
    (Prog.Along.of_all (I := fun _ => True) (J := fun w : World OsName => w.tree.find q = some x) ho
      (fun s w hs hw => World.find_exec_some env hs hw) (fun _ _ => trivial) hw).post
  exact (Prog.Along.of_all (I := fun _ => True) (J := fun w : World OsName =>
    w.tree.find q = some x) hp step
    (fun _ _ => trivial) h).post

/-- A sequence leaves a path alone when its first part does and the second does from there. -/
theorem find_bindE (env : Env OsName) {α β : Type} {a : IoM α} {f : α → IoM β} {x : Node}
    (ha : a.run.All (Spares q))
    (hf : ∀ r w', w'.tree.find q = some x →
      ((f r).run.run (engineExec env) w').2.tree.find q = some x)
    (h : w.tree.find q = some x) :
    ((a >>= f).run.run (engineExec env) w).2.tree.find q = some x := by
  have first := find_of_spares env ha h
  generalize hr : a.run.run (engineExec env) w = r at first
  obtain ⟨r, w₁⟩ := r
  cases r with
  | error e =>
      rw [Prog.run_bind_error hr]
      exact first
  | ok r =>
      rw [Prog.run_bind_ok hr]
      exact hf r w₁ first

theorem spares_reads (o : Op) (h : Reads o) : Spares q o :=
  all_code_of_reads (fun s hs => by cases s <;> first | exact hs.elim | exact id) o h

theorem spares_createDirAll (p : Path OsName) : Spares q (.call (.createDirAll p)) :=
  StdFs.all_createDirAll (fun _ => id) fun _ _ _ => id

theorem spares_mkdirs (p : Path OsName) : (TokioFs.createDirAll p).run.All (Spares q) :=
  Prog.all_call (spares_createDirAll p)

/-- Making a directory of the layout fails on a file, makes what is missing, and leaves a directory
as it is. -/
theorem createDirAll_run_cases {n : OsName} {p : Path OsName} (hf : Fit env.fits (n :: p))
    (hp : w.tree.IsDir p) :
    (∃ w', (∃ i d, w.tree.find (n :: p) = some (.file i d)) ∧ w'.fs = w.fs ∧
      (TokioFs.createDirAll (n :: p)).run.run (engineExec env) w =
        (.error ErrorKind.alreadyExists.os, w')) ∨
    (∃ w', w.tree.find (n :: p) = none ∧ w'.tree.IsDir (n :: p) ∧
      (TokioFs.createDirAll (n :: p)).run.run (engineExec env) w = (.ok (), w')) ∨
    ∃ w', w.tree.IsDir (n :: p) ∧ w'.fs = w.fs ∧
      (TokioFs.createDirAll (n :: p)).run.run (engineExec env) w = (.ok (), w') :=
  StdFs.createDirAll_cases hf hp

/-- The path is not below the staging directory. -/
def Outside (q : Path OsName) : Prop := ∀ n, ¬ n :: tmpDir <:+ q

theorem spares_sweepTmp (hq : Outside q) : sweepTmp.run.All (Spares q) := by
  refine .bindE (Prog.all_call (spares_reads _ trivial)) fun entries => .lift ?_
  refine all_sweepEntries (fun n => ?_) (fun n => Prog.all_call fun he => ?_) entries
  · refine StdFs.all_removeDirAll id fun r hr => ⟨id, fun he => ?_, fun he => ?_⟩
    · exact hq n (he ▸ hr)
    · exact hq n (he ▸ hr)
  · exact hq n (he ▸ List.suffix_rfl)

theorem spares_initFormat (hq : Outside q) (hf : q ≠ formatPath) :
    (initFormat C).run.All (Spares q) := by
  have staged : ∀ u, tmpName u :: tmpDir ≠ q := fun u he =>
    hq (tmpName u) (he ▸ (List.suffix_rfl : tmpName u :: tmpDir <:+ _))
  refine all_initFormat spares_reads C (Prog.all_call id) fun u => ⟨⟨?_, ?_, ?_, ?_⟩, ?_, ?_⟩
  · exact Prog.all_call id
  · exact fun _ => Prog.all_call (staged u)
  · exact Prog.all_call id
  · exact Prog.all_call (staged u)
  · exact spares_createDirAll _
  · exact Prog.all_call fun he => he.elim (staged u) fun h => hf h.symm

/-! ## The sweep, on any tree -/

/-- Every node of the tree has a path the filesystem accepts. -/
def AllFit (fits : OsName → Bool) (t : FileTree OsName) : Prop := ∀ q, t.find q ≠ none → Fit fits q

theorem AllFit.of_find {fits : OsName → Bool} {t t' : FileTree OsName} (h : AllFit fits t)
    (hsub : ∀ q, t'.find q ≠ none → t.find q ≠ none) : AllFit fits t' := fun q hq => h q (hsub q hq)

/-- One entry of the staging directory is removed, a directory with all that is below it. -/
theorem sweepEntry_run (hfit : AllFit env.fits w.tree) {n : OsName} {x : Node}
    (hx : w.tree.find (n :: tmpDir) = some x) (entries : List (OsName × Kind)) :
    ∃ w', (sweepEntries tmpDir ((n, x.kind) :: entries)).run (engineExec env) w =
        (sweepEntries tmpDir entries).run (engineExec env) w' ∧
      StdFs.Cleared env.fits w w' (n :: tmpDir) := by
  cases x with
  | dir i =>
      obtain ⟨w', hrun, hcl⟩ := StdFs.removeDirAll_run (L := LockName) ⟨i, hx⟩ hfit
      refine ⟨w', ?_, hcl⟩
      rw [Node.kind_dir, sweepEntries, Prog.run_bind]
      exact congrArg (fun r => (sweepEntries tmpDir entries).run (engineExec env) r.2) hrun
  | file a d =>
      obtain ⟨w', hrun, hcl⟩ := StdFs.unlink_cleared (L := LockName) (hfit _ (by simp [hx])) hx
      refine ⟨w', ?_, hcl⟩
      rw [Node.kind_file, sweepEntries, Prog.run_bind]
      exact congrArg (fun r => (sweepEntries tmpDir entries).run (engineExec env) r.2) hrun

theorem sweepEntries_clears : ∀ (entries : List (OsName × Kind)) {w : World OsName},
    (entries.map Prod.fst).Nodup → AllFit env.fits w.tree →
    (∀ c ∈ entries, ∃ x, w.tree.find (c.1 :: tmpDir) = some x ∧ x.kind = c.2) →
    ∃ w', (sweepEntries tmpDir entries).run (engineExec env) w = ((), w') ∧
      (∀ c ∈ entries, w'.tree.find (c.1 :: tmpDir) = none) ∧
      ∀ q, w'.tree.find q ≠ none → w.tree.find q ≠ none
  | [], w, _, _, _ => ⟨w, rfl, by simp, fun _ => id⟩
  | (n, k) :: entries, w, distinct, hfit, hkinds => by
      rw [List.map_cons, List.nodup_cons] at distinct
      obtain ⟨x, hx, rfl⟩ := hkinds (n, k) List.mem_cons_self
      obtain ⟨w₁, hrun₁, hcl⟩ := sweepEntry_run hfit hx entries
      have sub : ∀ q, w₁.tree.find q ≠ none → w.tree.find q ≠ none := by
        intro q hq
        rw [hcl.find] at hq
        split at hq
        · exact absurd rfl hq
        · exact hq
      obtain ⟨w', hrun, hgone, hsub⟩ := sweepEntries_clears entries distinct.2 (hfit.of_find sub)
        fun c hc => by
          have other : ¬ n :: tmpDir <:+ c.1 :: tmpDir := StdFs.not_suffix_of_ne fun he =>
            distinct.1 (List.mem_map.mpr ⟨c, hc, he.symm⟩)
          rw [hcl.find, if_neg other]
          exact hkinds c (List.mem_cons_of_mem _ hc)
      refine ⟨w', hrun₁.trans hrun, fun c hc => ?_, fun q hq => sub q (hsub q hq)⟩
      rcases List.mem_cons.mp hc with rfl | hc
      · by_contra still
        exact hsub _ still (hcl.gone _ List.suffix_rfl)
      · exact hgone c hc

/-- **The sweep empties the staging directory**, whatever is in it. -/
theorem sweepTmp_clears (hfit : AllFit env.fits w.tree) (htmp : w.tree.IsDir tmpDir) :
    ∃ w', sweepTmp.run.run (engineExec env) w = (.ok (), w') ∧
      (∀ n, w'.tree.find (n :: tmpDir) = none) ∧
      ((∀ n, w.tree.find (n :: tmpDir) = none) → w'.fs = w.fs) := by
  have hperm := env.order_perm w.tick (w.tree.children tmpDir)
  have hcall : (TokioFs.readDir tmpDir).run.run (engineExec env) w =
      (.ok (env.order w.tick (w.tree.children tmpDir)), { w with tick := w.tick + 1 }) := by
    refine (StdFs.readDir_run (L := LockName) tmpDir w).trans ?_
    obtain ⟨i, hi⟩ := htmp
    rw [Fs.readDir_ok (hfit _ (by simp [hi])) ⟨i, hi⟩]
    rfl
  have distinct := (hperm.map Prod.fst).nodup_iff.mpr (FileTree.nodup_children w.tree tmpDir)
  generalize env.order w.tick (w.tree.children tmpDir) = entries at hperm hcall distinct
  have hmem : ∀ n kd, (n, kd) ∈ entries ↔ ∃ x, w.tree.find (n :: tmpDir) = some x ∧ x.kind = kd :=
    fun n kd => hperm.mem_iff.trans FileTree.mem_children
  obtain ⟨w', hrun, hgone, hsub⟩ := sweepEntries_clears entries (w := { w with tick := w.tick + 1 })
    distinct hfit fun c hc => (hmem c.1 c.2).mp hc
  refine ⟨w', ?_, fun n => ?_, fun empty => ?_⟩
  · rw [sweepTmp, Prog.run_bind_ok hcall, ExceptT.run_lift, Prog.run_map, hrun]
  · by_contra still
    obtain ⟨x, hx⟩ := Option.ne_none_iff_exists'.mp (hsub _ still)
    exact still (hgone (n, x.kind) ((hmem n x.kind).mpr ⟨x, hx, rfl⟩))
  · have none_ : entries = [] := by
      refine List.eq_nil_iff_forall_not_mem.mpr fun c hc => ?_
      obtain ⟨x, hx, -⟩ := (hmem c.1 c.2).mp hc
      rw [empty] at hx
      cases hx
    subst none_
    rw [← (Prod.mk.inj hrun).2]

/-! ## Refused and accepted data directories -/

/-- The bytes of a stamp that cannot be parsed, or that of a newer build. -/
def BadStamp (C : Crates) (bytes : Bytes) : Prop :=
  match C.diskFormatJson.fromSlice bytes with
  | .error _ => True
  | .ok onDisk => onDisk.format > DISK_FORMAT

instance (C : Crates) (bytes : Bytes) : Decidable (BadStamp C bytes) :=
  match h : C.diskFormatJson.fromSlice bytes with
  | .error _ => .isTrue (by simp [BadStamp, h])
  | .ok onDisk => decidable_of_iff (onDisk.format > DISK_FORMAT) (by simp [BadStamp, h])

/-- The data directory has a stamp that this build refuses. -/
def RefusedTree (C : Crates) (t : FileTree OsName) : Prop :=
  ∃ bytes, t.fileAt formatPath = some bytes ∧ BadStamp C bytes

theorem initFormat_refused (hown : OwnNames env) (h : RefusedTree C w.tree) :
    ∃ e, (initFormat C).run.run (engineExec env) w = (.error e, w) := by
  obtain ⟨bytes, hfile, bad⟩ := h
  have read : (TokioFs.read formatPath).run.run (engineExec env) w = (.ok bytes, w) := by
    have content : w.fs.readFile env.fits formatPath = .ok bytes :=
      Fs.readFile_ok hown.format_fit hfile
    rw [read_run, content]
    rfl
  rw [initFormat, Prog.run_bind_lift read]
  dsimp only
  rw [BadStamp] at bad
  cases parse : C.diskFormatJson.fromSlice bytes with
  | error e => exact ⟨_, rfl⟩
  | ok onDisk =>
      rw [parse] at bad
      dsimp only at bad ⊢
      rw [if_pos bad]
      exact ⟨_, rfl⟩

/-- The steps of opening, before the errors are wrapped. -/
def openSteps (C : Crates) : IoM Unit := do
  TokioFs.createDirAll tmpDir
  TokioFs.createDirAll bucketsDir
  sweepTmp
  initFormat C

theorem serve_openEngine_run (w : World OsName) :
    runAlone env (serve C .openEngine) w =
      ((((openSteps C).run.run (engineExec env) w).1.mapError EngineError.ofIo).map fun _ => .unit,
        ((openSteps C).run.run (engineExec env) w).2) := by
  have adapt : (openEngine C).run.run (engineExec env) w =
      (((openSteps C).run.run (engineExec env) w).1.mapError EngineError.ofIo,
        ((openSteps C).run.run (engineExec env) w).2) := liftIo_run rfl
  rw [runAlone, serve]
  exact (Prog.run_bind_pure (fun _ => Answer.unit) (openEngine C)).trans (by rw [adapt])

/-- A stamp that is there is not written. -/
theorem initFormat_present (hown : OwnNames env) {x : Node} (h : w.tree.find formatPath = some x) :
    ((initFormat C).run.run (engineExec env) w).2 = w := by
  have fits : Fit env.fits formatPath := hown.format_fit
  rw [initFormat, Prog.run_bind_lift (read_run _)]
  cases x with
  | dir i =>
      have read : w.fs.readFile env.fits formatPath = .error .isADirectory := by
        rw [Fs.readFile, FileTree.resolve_of_find fits h]
      rw [read]
      rfl
  | file i d =>
      have read : w.fs.readFile env.fits formatPath = .ok d := by
        rw [Fs.readFile, FileTree.resolve_of_find fits h]
      rw [read]
      dsimp only [Except.mapError]
      split
      · rfl
      · split <;> rfl

theorem outside_formatPath : Outside formatPath := by
  intro n hs
  have := hs.length_le
  simp [formatPath, tmpDir] at this

theorem outside_tmpDir : Outside tmpDir := by
  intro n hs
  have := hs.length_le
  simp [tmpDir] at this

theorem outside_bucketsDir : Outside bucketsDir := by
  intro n hs
  have := hs.length_le
  simp [bucketsDir, tmpDir] at this

/-- The sweep and the stamp change nothing outside the staging directory. -/
theorem sweep_stamp_outside (hown : OwnNames env) {x : Node} (hq : Outside q)
    (hx : w.tree.find q = some x) :
    ((sweepTmp >>= fun _ => initFormat C).run.run (engineExec env) w).2.tree.find q = some x := by
  refine find_bindE env (spares_sweepTmp hq) (fun _ w₁ h₁ => ?_) hx
  by_cases format : q = formatPath
  · rw [format] at h₁ ⊢
    rw [initFormat_present hown h₁, h₁]
  · exact find_of_spares env (spares_initFormat hq format) h₁

/-- **Opening changes nothing outside the staging directory.** -/
theorem openSteps_outside (hown : OwnNames env) {x : Node} (hq : Outside q)
    (hx : w.tree.find q = some x) :
    ((openSteps C).run.run (engineExec env) w).2.tree.find q = some x := by
  refine find_bindE env (spares_mkdirs _) (fun _ w₁ h₁ => ?_) hx
  exact find_bindE env (spares_mkdirs _) (fun _ _ => sweep_stamp_outside hown hq) h₁

theorem RefusedTree.of_find {t t' : FileTree OsName} (h : RefusedTree C t)
    (hfile : ∀ x, t.find formatPath = some x → t'.find formatPath = some x) : RefusedTree C t' := by
  obtain ⟨bytes, hb, bad⟩ := h
  obtain ⟨i, hi⟩ := FileTree.fileAt_eq_some.mp hb
  exact ⟨bytes, FileTree.fileAt_eq_some.mpr ⟨i, hfile _ hi⟩, bad⟩

/-- A refused data directory is not opened. -/
theorem openSteps_error (hown : OwnNames env) (h : RefusedTree C w.tree) :
    ∃ e, ((openSteps C).run.run (engineExec env) w).1 = .error e := by
  generalize hr : (openSteps C).run.run (engineExec env) w = r
  obtain ⟨r, w'⟩ := r
  cases r with
  | error e => exact ⟨e, rfl⟩
  | ok u =>
      -- every step before the stamp leaves it as it is, so the last one fails
      obtain ⟨_, w₁, h₁, hr⟩ := Prog.ok_of_bind hr
      obtain ⟨_, w₂, h₂, hr⟩ := Prog.ok_of_bind hr
      obtain ⟨_, w₃, h₃, hr⟩ := Prog.ok_of_bind hr
      have bad : RefusedTree C w₃.tree := h.of_find fun x hx => by
        have hx₁ := find_of_spares env (spares_mkdirs tmpDir) hx
        rw [h₁] at hx₁
        have hx₂ := find_of_spares env (spares_mkdirs bucketsDir) hx₁
        rw [h₂] at hx₂
        have hx₃ := find_of_spares env (spares_sweepTmp outside_formatPath) hx₂
        rwa [h₃] at hx₃
      obtain ⟨e, he⟩ := initFormat_refused hown bad
      rw [he] at hr
      cases hr

/-- The steps before the stamp is read have nothing to change: a file is in the way of one of
them, or both directories are there and the staging directory is empty. -/
def Undisturbed (t : FileTree OsName) : Prop :=
  (∃ i d, t.find tmpDir = some (.file i d)) ∨
    (t.IsDir tmpDir ∧ ((∃ i d, t.find bucketsDir = some (.file i d)) ∨
      (t.IsDir bucketsDir ∧ ∀ n, t.find (n :: tmpDir) = none)))

/-- The tree is the one there was. -/
def SameTree (t t' : FileTree OsName) : Prop := ∀ q, t'.find q = t.find q

theorem SameTree.of_fs {w w' : World OsName} (h : w'.fs = w.fs) : SameTree w.tree w'.tree :=
  fun q => by rw [World.tree, World.tree, h]

theorem openSteps_same_iff (hown : OwnNames env) (hfit : AllFit env.fits w.tree)
    (h : RefusedTree C w.tree) :
    SameTree w.tree ((openSteps C).run.run (engineExec env) w).2.tree ↔ Undisturbed w.tree := by
  have aks3 : w.tree.IsDir [AKS3_DIR] := by
    obtain ⟨bytes, hfile, -⟩ := h
    exact FileTree.isDir_of_fileAt (Option.ne_none_iff_exists'.mpr ⟨bytes, hfile⟩)
  have tmp_fit : Fit env.fits tmpDir := hown.tmp_fit
  have buckets_fit : Fit env.fits bucketsDir := hown.buckets_fit
  rcases createDirAll_run_cases tmp_fit aks3 with
    ⟨w₁, file, same, run⟩ | ⟨w₁, free, ⟨i, made⟩, run⟩ | ⟨w₁, dir, same, run⟩
  · -- the staging directory is a file: the first step fails
    rw [openSteps, tmpDir, Prog.run_bind_error run]
    exact iff_of_true (.of_fs same) (.inl file)
  · -- it is made
    rw [openSteps, tmpDir, Prog.run_bind_ok run]
    refine iff_of_false (fun same => ?_) ?_
    · have after := find_bindE env (spares_mkdirs bucketsDir)
        (fun _ _ => sweep_stamp_outside (C := C) hown outside_tmpDir) made
      exact Option.some_ne_none _ (after.symm.trans ((same tmpDir).trans free))
    · rintro (⟨j, d, hf⟩ | ⟨⟨j, hj⟩, -⟩)
      · exact Option.some_ne_none _ (hf.symm.trans free)
      · exact Option.some_ne_none _ (hj.symm.trans free)
  rw [openSteps, tmpDir, Prog.run_bind_ok run]
  have tree₁ : w₁.tree = w.tree := congrArg Fs.tree same
  rw [← tree₁] at dir hfit h ⊢
  have noFile : ∀ i d, w₁.tree.find tmpDir ≠ some (.file i d) := by
    obtain ⟨j, hj⟩ := dir
    intro i d hf
    cases hj.symm.trans hf
  clear same tree₁ run aks3
  rcases createDirAll_run_cases buckets_fit w₁.tree.isDir_nil with
    ⟨w₂, file, same, run⟩ | ⟨w₂, free, ⟨i, made⟩, run⟩ | ⟨w₂, bdir, same, run⟩
  · rw [bucketsDir, Prog.run_bind_error run]
    exact iff_of_true (.of_fs same) (.inr ⟨dir, .inl file⟩)
  · rw [bucketsDir, Prog.run_bind_ok run]
    refine iff_of_false (fun same => ?_) ?_
    · have after := sweep_stamp_outside (C := C) hown outside_bucketsDir made
      exact Option.some_ne_none _ (after.symm.trans ((same bucketsDir).trans free))
    · rintro (⟨j, d, hf⟩ | ⟨-, ⟨j, d, hf⟩ | ⟨⟨j, hj⟩, -⟩⟩)
      · exact noFile j d hf
      · exact Option.some_ne_none _ (hf.symm.trans free)
      · exact Option.some_ne_none _ (hj.symm.trans free)
  rw [bucketsDir, Prog.run_bind_ok run]
  have tree₂ : w₂.tree = w₁.tree := congrArg Fs.tree same
  rw [← tree₂] at dir hfit h bdir noFile ⊢
  obtain ⟨w₃, sweep, empty, idle⟩ := sweepTmp_clears hfit dir
  have bad : RefusedTree C w₃.tree := h.of_find fun x hx => by
    have hx₃ := find_of_spares env (spares_sweepTmp outside_formatPath) hx
    rwa [sweep] at hx₃
  obtain ⟨e, stop⟩ := initFormat_refused hown bad
  rw [Prog.run_bind_ok sweep, stop]
  constructor
  · exact fun same => .inr ⟨dir, .inr ⟨bdir, fun n => (same _).symm.trans (empty n)⟩⟩
  · rintro (⟨j, d, hf⟩ | ⟨-, ⟨j, d, hf⟩ | ⟨-, none_⟩⟩)
    · exact absurd hf (noFile j d)
    · obtain ⟨i, hi⟩ := bdir
      cases hi.symm.trans hf
    · exact .of_fs (idle none_)

/-- What is wanted of opening the tree of `w`: a refused data directory is as it was, and of one
that is opened everything outside the staging directory is. -/
structure LeavesAlone (C : Crates) (env : Env OsName) (w : World OsName) : Prop where
  refused : RefusedTree C w.tree →
    (∃ e, (runAlone env (serve C .openEngine) w).1 = .error e) ∧
      SameTree w.tree (runAlone env (serve C .openEngine) w).2.tree
  accepted : (runAlone env (serve C .openEngine) w).1 = .ok .unit → ∀ q x, Outside q →
    w.tree.find q = some x → (runAlone env (serve C .openEngine) w).2.tree.find q = some x

/-- Opening leaves a data directory alone exactly when it is not a refused one, or nothing is done
to it before the stamp is read. -/
theorem openEngine_leaves_alone_iff (C : Crates) (env : Env OsName) (w : World OsName)
    (hown : OwnNames env) (hfit : AllFit env.fits w.tree) :
    LeavesAlone C env w ↔ (RefusedTree C w.tree → Undisturbed w.tree) := by
  constructor
  · intro h refused
    have same := (h.refused refused).2
    rw [serve_openEngine_run] at same
    exact (openSteps_same_iff hown hfit refused).mp same
  · intro h
    refine ⟨fun refused => ?_, fun _ q x hq hx => ?_⟩
    · obtain ⟨e, he⟩ := openSteps_error hown refused
      rw [serve_openEngine_run, he]
      exact ⟨⟨_, rfl⟩, (openSteps_same_iff hown hfit refused).mpr (h refused)⟩
    · rw [serve_openEngine_run]
      exact openSteps_outside hown hq hx

theorem sampleStamp_ne (f : DiskFormat) :
    sampleCrates.diskFormatJson.toVec f ≠ utf8 "\x7b\"format\":2\x7d" :=
  Json.patch_ne (h := Json.unary_ne (by decide)) (Json.unary_ne (by decide)) (by decide) f

/-- The sample crates, which also read the stamp of the next build. -/
def newerCrates : Crates :=
  { sampleCrates with
    diskFormatJson := sampleCrates.diskFormatJson.patch ⟨2⟩
      (utf8 "\x7b\"format\":2\x7d") sampleStamp_ne }

/-- A data directory of the next build, with a file in its staging directory. -/
def newerBuild : World OsName :=
  [Sys.mkdir [AKS3_DIR], .mkdir tmpDir, .mkdir bucketsDir, .createNew formatPath,
    .append formatPath (utf8 "\x7b\"format\":2\x7d"), .createNew (utf8 "x.tmp" :: tmpDir)].foldl
    (fun w s => (World.exec (L := LockName) sampleEnv s w).2) (World.empty OsName)

/-- One whose staging directory is empty. -/
def idleBuild : World OsName :=
  [Sys.mkdir [AKS3_DIR], .mkdir tmpDir, .mkdir bucketsDir, .createNew formatPath,
    .append formatPath (utf8 "\x7b\"format\":2\x7d")].foldl
    (fun w s => (World.exec (L := LockName) sampleEnv s w).2) (World.empty OsName)

/-- It is refused, and left as it is. -/
theorem openEngine_leaves_alone_newerBuild :
    RefusedTree newerCrates idleBuild.tree ∧ LeavesAlone newerCrates sampleEnv idleBuild := by
  have refused : RefusedTree newerCrates idleBuild.tree := by
    refine ⟨utf8 "\x7b\"format\":2\x7d", ?_, ?_⟩ <;> decide +kernel
  have empty : ∀ p ∈ idleBuild.tree.nodes.keys, p.tail ≠ tmpDir := by decide +kernel
  have idle : Undisturbed idleBuild.tree := by
    refine .inr ⟨by decide +kernel, .inr ⟨by decide +kernel, fun n => ?_⟩⟩
    by_contra present
    exact empty (n :: tmpDir)
      (AList.lookup_isSome.mp (Option.isSome_iff_ne_none.mpr present)) rfl
  exact ⟨refused, (openEngine_leaves_alone_iff newerCrates sampleEnv idleBuild
    (.of_all fun _ => rfl) fun _ _ _ _ => rfl).mpr fun _ => idle⟩

/-- The stamp of the next build is refused, and its staging directory is swept first. -/
theorem openEngine_sweeps_newerBuild :
    RefusedTree newerCrates newerBuild.tree ∧
      newerBuild.tree.fileAt (utf8 "x.tmp" :: tmpDir) = some [] ∧
      (runAlone sampleEnv (serve newerCrates .openEngine) newerBuild).1 =
        .error (.ofIo ⟨.invalidData,
          "data directory format 2 at /.aks3/format.json is newer than the supported format 1",
          none⟩) ∧
      (runAlone sampleEnv (serve newerCrates .openEngine) newerBuild).2.tree.find
        (utf8 "x.tmp" :: tmpDir) = none := by
  refine ⟨⟨utf8 "\x7b\"format\":2\x7d", ?_, ?_⟩, ?_, ?_, ?_⟩
  all_goals decide +kernel

end Aks3.Engine
