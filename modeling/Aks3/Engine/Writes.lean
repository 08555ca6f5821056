import Aks3.Engine.Lists

/-!
# Staged writes, run alone

What `StagedFile` and `write_json_atomic` do to the tree and to the disk when
nothing else runs and the filesystem accepts the names: one file is replaced,
the directories on the way to it are made, and afterwards only the staging
directory has entries that are not on disk.
-/

set_option autoImplicit false

namespace Aks3.Engine

open Lib

/-! ## One file changed -/

/-- The file at `p` is now `v`, and no directory came or went. -/
structure Wrote (w w' : World OsName) (p : Path OsName) (v : Option Bytes)
    (D F : Set (Path OsName)) : Prop where
  file : ∀ q, w'.tree.fileAt q = if q = p then v else w.tree.fileAt q
  dir : ∀ q, w'.tree.IsDir q ↔ w.tree.IsDir q
  keeps : w.Keeps w' D F

/-- The file at `dest` is now `bytes`, and its directory is there. -/
structure Stored (w w' : World OsName) (dest : Path OsName) (bytes : Bytes)
    (D F : Set (Path OsName)) : Prop where
  file : ∀ q, w'.tree.fileAt q = if q = dest then some bytes else w.tree.fileAt q
  dir : ∀ q, w'.tree.IsDir q ↔ w.tree.IsDir q ∨ q <:+ parentDir dest
  keeps : w.Keeps w' D F
  settled : w.fs.Wf → w'.fs.Settled (parentDir dest)

namespace Shaped

variable {fits : OsName → Bool} {t t' : FileTree OsName}

/-- What keeps to the layout in its files and directories keeps its shape. -/
theorem of_view (h : Shaped fits t)
    (hfile : ∀ q, t'.fileAt q ≠ none →
      t.fileAt q ≠ none ∨ ∃ pl : Place, pl.kind = .file ∧ q = pl.path ∧ Fit fits pl.path)
    (hdir : ∀ q, t'.IsDir q → t.IsDir q ∨ q = [] ∨
      ∃ pl : Place, pl.kind = .dir ∧ q = pl.path ∧ Fit fits pl.path) : Shaped fits t' where
  place := by
    intro p x hx hne
    have hold : ∀ {y}, t.find p = some y → y.kind = x.kind →
        ∃ pl : Place, p = pl.path ∧ x.kind = pl.kind := fun hy hk =>
      (h.place p _ hy hne).imp fun _ hpl => ⟨hpl.1, hk ▸ hpl.2⟩
    cases x with
    | file i d =>
        rcases hfile p (by rw [FileTree.fileAt_eq_some.mpr ⟨i, hx⟩]; exact Option.some_ne_none _)
          with hf | ⟨pl, hk, hp, -⟩
        · obtain ⟨d', hd'⟩ := Option.ne_none_iff_exists'.mp hf
          obtain ⟨j, hj⟩ := FileTree.fileAt_eq_some.mp hd'
          exact hold hj rfl
        · exact ⟨pl, hp, hk.symm⟩
    | dir i =>
        rcases hdir p ⟨i, hx⟩ with ⟨j, hj⟩ | hnil | ⟨pl, hk, hp, -⟩
        · exact hold hj rfl
        · exact absurd hnil hne
        · exact ⟨pl, hp, hk.symm⟩
  fit := by
    intro p hp
    obtain ⟨x, hx⟩ := Option.ne_none_iff_exists'.mp hp
    cases x with
    | file i d =>
        rcases hfile p (by rw [FileTree.fileAt_eq_some.mpr ⟨i, hx⟩]; exact Option.some_ne_none _)
          with hf | ⟨pl, -, rfl, hfit⟩
        · exact h.fit p (FileTree.find_ne_none_of_fileAt hf)
        · exact hfit
    | dir i =>
        rcases hdir p ⟨i, hx⟩ with ⟨j, hj⟩ | rfl | ⟨pl, -, rfl, hfit⟩
        · exact h.fit p (by rw [hj]; exact Option.some_ne_none _)
        · exact fun n hn => absurd hn List.not_mem_nil
        · exact hfit

/-- A tree with nothing new in it keeps its shape. -/
theorem of_subset (h : Shaped fits t) (hfile : ∀ q, t'.fileAt q ≠ none → t.fileAt q ≠ none)
    (hdir : ∀ q, t'.IsDir q → t.IsDir q) : Shaped fits t' :=
  h.of_view (fun q hq => .inl (hfile q hq)) fun q hq => .inl (hdir q hq)

theorem of_find (h : Shaped fits t) (hfind : ∀ q, t'.find q ≠ none → t'.find q = t.find q) :
    Shaped fits t' where
  place := fun p x hx => h.place p x (by
    rw [← hfind p (by rw [hx]; exact Option.some_ne_none x), hx])
  fit := fun p hp => h.fit p (hfind p hp ▸ hp)

theorem fit_of_fileAt (h : Shaped fits t) {p : Path OsName} {d : Bytes}
    (hp : t.fileAt p = some d) : Fit fits p :=
  h.fit p (FileTree.find_ne_none_of_fileAt (by rw [hp]; exact Option.some_ne_none d))

theorem fit_of_isDir (h : Shaped fits t) {p : Path OsName} (hp : t.IsDir p) : Fit fits p := by
  obtain ⟨i, hi⟩ := hp
  exact h.fit p (by rw [hi]; exact Option.some_ne_none _)

end Shaped

/-- The directories on the way to one that fits are places that fit. -/
theorem Place.suffix_fit {fits : OsName → Bool} (pl : Place) (hk : pl.kind = .dir)
    (hf : Fit fits pl.path) {q : Path OsName} (hq : q <:+ pl.path) :
    q = [] ∨ ∃ up : Place, up.kind = .dir ∧ q = up.path ∧ Fit fits up.path :=
  (Place.suffix_path pl hk hq).imp_right fun ⟨up, hup, he⟩ => ⟨up, hup, he, he ▸ hf.suffix hq⟩

/-- Putting a file at its place, with the directories above it. -/
theorem Shaped.of_commit {fits : OsName → Bool} {t t' : FileTree OsName} (h : Shaped fits t)
    (pl : Place) (hk : pl.kind = .file) (hf : Fit fits pl.path)
    (hfile : ∀ q, q ≠ pl.path → t'.fileAt q ≠ none → t.fileAt q ≠ none)
    (hdir : ∀ q, t'.IsDir q → t.IsDir q ∨ q <:+ parentDir pl.path) : Shaped fits t' := by
  refine h.of_view (fun q hq => ?_) fun q hq => (hdir q hq).imp_right fun hq => ?_
  · by_cases hp : q = pl.path
    · exact .inr ⟨pl, hk, hp, hf⟩
    · exact .inl (hfile q hp hq)
  · rcases Place.tail_path pl with ht | ⟨up, hup, ht⟩
    · rw [parentDir, ht, List.suffix_nil] at hq
      exact .inl hq
    · rw [parentDir, ht] at hq
      exact Place.suffix_fit up hup (ht ▸ hf.suffix (List.tail_suffix _)) hq

variable {env : Env OsName} {C : Crates} {w : World OsName}

theorem Wrote.shaped {w' : World OsName} (pl : Place) {v : Option Bytes}
    {D F : Set (Path OsName)} (h : Wrote w w' pl.path v D F) (hk : pl.kind = .file)
    (hf : Fit env.fits pl.path) (hs : Shaped env.fits w.tree) : Shaped env.fits w'.tree :=
  hs.of_commit pl hk hf (fun q hp hq => by rwa [h.file, if_neg hp] at hq)
    fun q hq => .inl ((h.dir q).mp hq)

theorem Stored.shaped {w' : World OsName} (pl : Place) {bytes : Bytes}
    {D F : Set (Path OsName)} (h : Stored w w' pl.path bytes D F) (hk : pl.kind = .file)
    (hf : Fit env.fits pl.path) (hs : Shaped env.fits w.tree) : Shaped env.fits w'.tree :=
  hs.of_commit pl hk hf (fun q hp hq => by rwa [h.file, if_neg hp] at hq)
    fun q hq => (h.dir q).mp hq

/-! ## The staged file -/

/-- Creating a staged file in an empty staging directory. -/
theorem create_run (hown : OwnNames env) (ht : w.tree.IsDir tmpDir) (hs : Shaped env.fits w.tree)
    (hempty : ∀ n, w.tree.fileAt (n :: tmpDir) = none) :
    ∃ n w', (StagedFile.create tmpDir).run.run (engineExec env) w = (.ok ⟨n :: tmpDir⟩, w') ∧
      Fit env.fits (n :: tmpDir) ∧ Wrote w w' (n :: tmpDir) (some []) {tmpDir} {n :: tmpDir} := by
  obtain ⟨n, hn⟩ : ∃ n, n = tmpName (env.uuid w.tick) := ⟨_, rfl⟩
  have hf : Fit env.fits (n :: tmpDir) := by
    rw [hn]
    exact hown.staged_fit w.tick
  have hnone := hs.find_none_of_file (.staged n) rfl (hempty n)
  have hok : (w.fs.createNew env.fits (n :: tmpDir)).1 = .ok () := by
    obtain ⟨i, hp, hx, -, hmk⟩ := Fs.createNew_ok hf ht hnone
    rw [hmk]
  refine ⟨n, { w with tick := w.tick + 1, fs := (w.fs.createNew env.fits (n :: tmpDir)).2 },
    ?_, hf, ?_, ?_, ?_⟩
  · have hnew : (TokioFs.openNew (n :: tmpDir)).run.run (engineExec env)
        { w with tick := w.tick + 1 } = _ := World.withFs_of_ok hok
    have huuid : (prim .uuid).run (engineExec env) w =
        (env.uuid w.tick, { w with tick := w.tick + 1 }) := rfl
    rw [StagedFile.create, Prog.run_bind_lift huuid]
    dsimp only
    rw [← hn, Prog.run_bind_ok hnew]
    rfl
  · intro q
    rw [World.tree, Fs.fileAt_createNew, hok]
    simp
  · exact Fs.isDir_createNew env.fits w.fs _
  · exact ⟨fun hw => (Fs.change_createNew env.fits w.fs _).wf hw,
      fun hw => Fs.kept_createNew hw env.fits _, rfl⟩

/-- Writing to a staged file. -/
theorem writeAll_run {p : Path OsName} {d : Bytes} (hf : Fit env.fits p)
    (hp : w.tree.fileAt p = some d) (bs : Bytes) :
    ∃ w', (TokioFs.writeAll p bs).run.run (engineExec env) w = (.ok (), w') ∧
      Wrote w w' p (some (d ++ bs)) ∅ {p} := by
  obtain ⟨i, hi⟩ := FileTree.fileAt_eq_some.mp hp
  have hok : (w.fs.append env.fits bs p).1 = .ok () := by
    obtain ⟨fs', -, he⟩ := Fs.append_ok hf hi
    rw [he]
  refine ⟨{ w with fs := (w.fs.append env.fits bs p).2 }, World.withFs_of_ok hok, ?_, ?_, ?_⟩
  · intro q
    rw [World.tree, Fs.fileAt_append, hok]
    simp [hp]
  · exact Fs.isDir_append env.fits w.fs bs p
  · exact ⟨fun hwf => (Fs.change_append env.fits w.fs bs p).wf hwf,
      fun hwf => Fs.kept_append hwf env.fits bs p, rfl⟩

/-- The destructor of a staged file. -/
theorem drop_run (staged : StagedFile) {d : Bytes} (hf : Fit env.fits staged.path)
    (hp : w.tree.fileAt staged.path = some d) :
    ∃ w', staged.drop.run (engineExec env) w = ((), w') ∧
      Wrote w w' staged.path none {staged.path.tail} ∅ := by
  obtain ⟨i, hi⟩ := FileTree.fileAt_eq_some.mp hp
  have hok : (w.fs.unlink env.fits staged.path).1 = .ok () := by
    cases hpath : staged.path with
    | nil =>
        rw [hpath] at hi
        cases hi
    | cons n p =>
        rw [hpath] at hi hf
        obtain ⟨j, h, -, he⟩ := Fs.unlink_ok hf hi
        rw [he]
  refine ⟨{ w with fs := (w.fs.unlink env.fits staged.path).2 }, rfl, ?_, ?_, ?_⟩
  · intro q
    rw [World.tree, Fs.fileAt_unlink, hok]
    simp
  · exact Fs.isDir_unlink env.fits w.fs _
  · exact ⟨fun hwf => (Fs.change_unlink env.fits w.fs _).wf hwf,
      fun hwf => Fs.kept_unlink hwf env.fits _, rfl⟩

theorem syncAll_run {p : Path OsName} {d : Bytes} (hf : Fit env.fits p)
    (hp : w.tree.fileAt p = some d) :
    ∃ w', (TokioFs.syncAll p).run.run (engineExec env) w = (.ok (), w') ∧ w'.tree = w.tree ∧
      w.Keeps w' ∅ ∅ ∧ w'.fs.Synced p := by
  obtain ⟨i, hi⟩ := FileTree.fileAt_eq_some.mp hp
  have hok : (w.fs.syncFile env.fits p).1 = .ok () := by
    rw [Fs.syncFile_ok hf hi]
  refine ⟨{ w with fs := (w.fs.syncFile env.fits p).2 }, World.withFs_of_ok hok,
    Fs.tree_syncFile env.fits w.fs p, ?_, Fs.synced_syncFile hok⟩
  exact ⟨fun hwf => (Fs.change_syncFile env.fits w.fs p).wf hwf,
    fun hwf => Fs.kept_syncFile hwf env.fits p, rfl⟩

/-! ## The directories to sync -/

theorem tryExists_run {p : Path OsName} (hf : Fit env.fits p) (hc : w.tree.Clear p) :
    (await (.tryExists p)).run (engineExec env) w =
      (.ok (decide (w.tree.find p ≠ none)), { w with tick := w.tick + 1 }) := by
  change (Call.tryExistsCode p).run (World.exec env) w = _
  rw [Call.tryExistsCode, Prog.run_bind, StdFs.stat_run]
  cases hp : w.tree.find p with
  | none =>
      rw [Fs.stat_missing hf hc hp]
      rfl
  | some x =>
      rw [Fs.stat_of_find hf hp]
      rfl

/-- `unwrap_or(false)`: a name the filesystem refuses counts as not there. -/
theorem existsOr_run (hs : Shaped env.fits w.tree) (p : Path OsName) :
    ∃ w', (existsOr p).run (engineExec env) w = (decide (w.tree.find p ≠ none), w') ∧
      w.Ticked w' := by
  refine ⟨{ w with tick := w.tick + 1 }, ?_, ⟨rfl, rfl⟩⟩
  have hcall : (await (.tryExists p)).run (engineExec env) w =
      (match (w.fs.stat env.fits p).mapError ErrorKind.os with
        | .ok _ => .ok true
        | .error e => if e.kind = .notFound then .ok false else .error e,
        { w with tick := w.tick + 1 }) := by
    change (Call.tryExistsCode p).run (World.exec env) w = _
    rw [Call.tryExistsCode, Prog.run_bind, StdFs.stat_run]
    cases w.fs.stat env.fits p with
    | ok _ => rfl
    | error e => cases e <;> rfl
  rw [existsOr, Prog.run_bind, hcall]
  cases hp : w.tree.find p with
  | some x =>
      rw [Fs.stat_of_find (hs.fit p (by rw [hp]; exact Option.some_ne_none x)) hp]
      rfl
  | none =>
      obtain ⟨e, he⟩ := Fs.stat_error env.fits hp
      rw [he]
      cases e <;> rfl

/-- A directory, the missing ones above it, and the first that is there. -/
def syncChain (t : FileTree OsName) : Path OsName → List (Path OsName)
  | [] => [[]]
  | n :: p => if t.find (n :: p) ≠ none then [n :: p] else (n :: p) :: syncChain t p

theorem mem_syncChain_self (t : FileTree OsName) (p : Path OsName) : p ∈ syncChain t p := by
  cases p with
  | nil => exact List.mem_singleton_self _
  | cons n p =>
      rw [syncChain]
      split
      · exact List.mem_singleton_self _
      · exact List.mem_cons_self

/-- Every directory that gets an entry on the way is one of those to sync. -/
theorem tail_mem_syncChain {t : FileTree OsName} : ∀ {p q : Path OsName},
    q ∈ t.missing p → t.Clear p → q.tail ∈ syncChain t p
  | n :: p, q, hq, hc => by
      rw [FileTree.missing] at hq
      split at hq
      · cases hq
      · rename_i hd
        have hnone : t.find (n :: p) = none := by
          cases hf : t.find (n :: p) with
          | none => rfl
          | some x =>
              cases x with
              | file i d => exact absurd hf (hc _ List.suffix_rfl i d)
              | dir i => exact absurd ⟨i, hf⟩ hd
        rw [syncChain, if_neg (by simp [hnone])]
        rcases List.mem_append.mp hq with hq | hq
        · exact List.mem_cons_of_mem _ (tail_mem_syncChain hq hc.tail)
        · rw [List.mem_singleton.mp hq]
          exact List.mem_cons_of_mem _ (mem_syncChain_self t p)

theorem suffix_of_mem_syncChain {t : FileTree OsName} : ∀ {p q : Path OsName},
    q ∈ syncChain t p → q <:+ p
  | [], q, hq => by
      rw [List.mem_singleton.mp hq]
  | n :: p, q, hq => by
      rw [syncChain] at hq
      split at hq
      · rw [List.mem_singleton.mp hq]
      · rcases List.mem_cons.mp hq with rfl | hq
        · exact List.suffix_rfl
        · exact (suffix_of_mem_syncChain hq).trans (List.suffix_cons n p)

theorem dirsToSync_run : ∀ (p : Path OsName) {w : World OsName}, Shaped env.fits w.tree →
    ∃ w', (dirsToSync p).run (engineExec env) w = (syncChain w.tree p, w') ∧ w.Ticked w'
  | [], w, hs => by
      obtain ⟨w', hrun, ht⟩ := existsOr_run hs []
      refine ⟨w', ?_, ht⟩
      rw [dirsToSync, Prog.run_bind, hrun]
      rfl
  | n :: p, w, hs => by
      obtain ⟨w₁, hrun, ht⟩ := existsOr_run hs (n :: p)
      rw [dirsToSync, Prog.run_bind, hrun, syncChain]
      by_cases hp : w.tree.find (n :: p) = none
      · have htree : w₁.tree = w.tree := by rw [World.tree, ht.fs]
        obtain ⟨w₂, hrun₂, ht₂⟩ := dirsToSync_run p (w := w₁) (htree ▸ hs)
        refine ⟨w₂, ?_, ht.trans ht₂⟩
        simp only [hp, ne_eq, not_true_eq_false, decide_false, Bool.false_eq_true, if_false,
          Prog.run_bind, hrun₂, htree]
        rfl
      · refine ⟨w₁, ?_, ht⟩
        simp only [hp, ne_eq, not_false_eq_true, decide_true, if_true]
        rfl

theorem fsyncDir_run {p : Path OsName} (hs : Shaped env.fits w.tree) (hp : w.tree.IsDir p) :
    ∃ w', (fsyncDir p).run.run (engineExec env) w = (.ok (), w') ∧ w'.tree = w.tree ∧
      w.Keeps w' ∅ ∅ ∧ (w.fs.Wf → w'.fs.Settled p) := by
  have hf := hs.fit_of_isDir hp
  obtain ⟨i, hi⟩ := hp
  have hopen : (TokioFs.openDir p).run.run (engineExec env) w = (.ok i, w) := by
    change ((w.fs.openDir env.fits p).mapError ErrorKind.os, w) = _
    rw [Fs.openDir_ok hf hi]
    rfl
  refine ⟨{ w with fs := w.fs.syncDir i }, ?_, rfl, ?_, fun hw => Fs.settled_syncDir hw hi⟩
  · rw [fsyncDir, Prog.run_bind_ok hopen]
    rfl
  · exact ⟨fun hw => (Fs.Change.dirSynced i).wf hw, fun _ => Fs.kept_syncDir w.fs i, rfl⟩

theorem syncDirs_run : ∀ (ps : List (Path OsName)) {w : World OsName},
    Shaped env.fits w.tree → (∀ p ∈ ps, w.tree.IsDir p) →
    ∃ w', (syncDirs ps).run.run (engineExec env) w = (.ok (), w') ∧ w'.tree = w.tree ∧
      w.Keeps w' ∅ ∅ ∧ (w.fs.Wf → ∀ p ∈ ps, w'.fs.Settled p)
  | [], w, _, _ => ⟨w, rfl, rfl, .refl w, by simp⟩
  | p :: ps, w, hs, h => by
      obtain ⟨w₁, hrun₁, htree₁, hk₁, hset₁⟩ := fsyncDir_run hs (h p List.mem_cons_self)
      obtain ⟨w₂, hrun₂, htree₂, hk₂, hset₂⟩ := syncDirs_run ps (w := w₁) (htree₁ ▸ hs)
        fun q hq => by
          rw [htree₁]
          exact h q (List.mem_cons_of_mem p hq)
      refine ⟨w₂, ?_, htree₂.trans htree₁, (hk₁.trans hk₂).mono (by simp) (by simp), ?_⟩
      · rw [syncDirs, Prog.run_bind_ok hrun₁]
        exact hrun₂
      · intro hw q hq
        rcases List.mem_cons.mp hq with rfl | hq
        · exact (hk₂.kept (hk₁.wf hw)).settled q (by simp) (hset₁ hw)
        · exact hset₂ (hk₁.wf hw) q hq

/-- Making a directory and what is missing above it. -/
theorem mkdirs_run {p : Path OsName} (hf : Fit env.fits p) (hc : w.tree.Clear p) :
    ∃ w', (TokioFs.createDirAll p).run.run (engineExec env) w = (.ok (), w') ∧
      (∀ q, w'.tree.fileAt q = w.tree.fileAt q) ∧
      (∀ q, w'.tree.IsDir q ↔ w.tree.IsDir q ∨ q <:+ p) ∧
      w.Keeps w' {q | ∃ r ∈ w.tree.missing p, q = r.tail} ∅ := by
  obtain ⟨w', hrun, hmade, hclock⟩ := StdFs.createDirAll_run (L := LockName) hf hc
  refine ⟨w', hrun, hmade.fileAt, fun q => ?_, hmade.wf, hmade.kept, hclock⟩
  rw [World.tree, hmade.isDir, FileTree.mem_missing]
  tauto

/-! ## Publishing -/

/-- The rename that publishes a staged file. -/
theorem rename_run {src : Path OsName} (dst : Path OsName) {d : Bytes} (hf : Fit env.fits src)
    (hf' : Fit env.fits dst) (hsrc : w.tree.fileAt src = some d)
    (hdir : w.tree.IsDir dst.tail) (hdst : ¬ w.tree.IsDir dst) (hne : dst ≠ []) :
    ∃ w', (TokioFs.rename src dst).run.run (engineExec env) w = (.ok (), w') ∧
      (∀ q, w'.tree.fileAt q =
        if q = dst then some d else if q = src then none else w.tree.fileAt q) ∧
      (∀ q, w'.tree.IsDir q ↔ w.tree.IsDir q) ∧ w.Keeps w' {src.tail, dst.tail} {dst} ∧
      (w.fs.Synced src → w'.fs.Synced dst) := by
  obtain ⟨i, hi⟩ := FileTree.fileAt_eq_some.mp hsrc
  have hok : (w.fs.rename env.fits src dst).1 = .ok () := by
    cases src with
    | nil => cases hi
    | cons n p =>
        cases dst with
        | nil => exact absurd rfl hne
        | cons m q =>
            rw [List.tail_cons] at hdir
            obtain ⟨j, k, fs', -, -, -, he⟩ :=
              Fs.rename_ok hf hf' hi hdir hdst
            rw [he]
  refine ⟨{ w with fs := (w.fs.rename env.fits src dst).2 }, World.withFs_of_ok hok, ?_,
    Fs.isDir_rename env.fits w.fs src dst, ?_, fun hs => Fs.synced_rename hs hok⟩
  · intro q
    rw [World.tree, Fs.fileAt_rename, if_pos hok, hsrc]
  · exact ⟨fun hwf => (Fs.change_rename env.fits w.fs src dst).wf hwf,
      fun hwf => Fs.kept_rename hwf env.fits src dst, rfl⟩

/-- **A commit moves the staged bytes to their place and leaves nothing but the staging
directory unsettled.** -/
theorem commit_run (hs : Shaped env.fits w.tree) (pl : Place) (hk : pl.kind = .file)
    (hf : Fit env.fits pl.path) {n : OsName} {d : Bytes}
    (hp : w.tree.fileAt (n :: tmpDir) = some d) :
    ∃ w', ((⟨n :: tmpDir⟩ : StagedFile).commit pl.path).run.run (engineExec env) w = (.ok (), w') ∧
      (∀ q, w'.tree.fileAt q = if q = pl.path then some d else if q = n :: tmpDir then none
        else w.tree.fileAt q) ∧
      (∀ q, w'.tree.IsDir q ↔ w.tree.IsDir q ∨ q <:+ parentDir pl.path) ∧
      w.Keeps w' {tmpDir} ∅ ∧ (w.fs.Wf → w'.fs.Settled (parentDir pl.path)) := by
  have hsrc := hs.fit_of_fileAt hp
  have hclear : w.tree.Clear (parentDir pl.path) := hs.clear_tail pl
  obtain ⟨w₁, hrun₁, htree₁, hk₁, hsync₁⟩ := syncAll_run hsrc hp
  obtain ⟨w₂, hrun₂, ht₂⟩ := dirsToSync_run (parentDir pl.path) (w := w₁) (htree₁ ▸ hs)
  have htree₂ : w₂.tree = w.tree := by rw [World.tree, ht₂.fs, ← htree₁]
  obtain ⟨w₃, hrun₃, hfile₃, hdir₃, hk₃⟩ := mkdirs_run (w := w₂) (p := parentDir pl.path)
    (hf.suffix (List.tail_suffix _)) (htree₂ ▸ hclear)
  rw [htree₂] at hfile₃ hdir₃ hk₃
  have hfree : ¬ w₃.tree.IsDir pl.path := by
    rw [hdir₃]
    rintro (h | h)
    · exact hs.not_isDir pl hk h
    · have hlen := h.length_le
      have hpos := List.length_pos_iff.mpr pl.path_ne_nil
      rw [parentDir, List.length_tail] at hlen
      omega
  obtain ⟨w₄, hrun₄, hfile₄, hdir₄, hk₄, hsync₄⟩ := rename_run (w := w₃) pl.path hsrc hf
    ((hfile₃ _).trans hp) ((hdir₃ _).mpr (.inr List.suffix_rfl)) hfree pl.path_ne_nil
  have hs₄ : Shaped env.fits w₄.tree := hs.of_commit pl hk hf
    (fun q hp hq => by
      rw [hfile₄, if_neg hp, hfile₃] at hq
      split at hq
      · exact absurd rfl hq
      · exact hq)
    fun q hq => (hdir₃ q).mp ((hdir₄ q).mp hq)
  obtain ⟨w₅, hrun₅, htree₅, hk₅, hset₅⟩ := syncDirs_run
    (syncChain w₁.tree (parentDir pl.path)) (w := w₄) hs₄ fun q hq => by
      rw [hdir₄, hdir₃]
      exact .inr (suffix_of_mem_syncChain hq)
  have hk := ((hk₁.trans ht₂.keeps).trans hk₃).trans hk₄
  refine ⟨w₅, ?_, ?_, ?_, ?_, fun hw => hset₅ (hk.wf hw) _ (mem_syncChain_self _ _)⟩
  · have hpub : ((⟨n :: tmpDir⟩ : StagedFile).publish pl.path).run.run (engineExec env) w =
        (.ok (syncChain w₁.tree (parentDir pl.path)), w₄) := by
      rw [StagedFile.publish, Prog.run_bind_ok hrun₁]
      dsimp only
      rw [Prog.run_bind_lift hrun₂, Prog.run_bind_ok hrun₃, Prog.run_bind_ok hrun₄]
      rfl
    rw [StagedFile.commit, Prog.run_mk, Prog.run_bind, hpub]
    exact hrun₅
  · intro q
    rw [htree₅, hfile₄, hfile₃]
  · intro q
    rw [htree₅, hdir₄, hdir₃]
  · refine (hk.trans hk₅).discharge (fun hw q hq => ?_) fun hw q hq => ?_
    · -- every directory that got an entry is in the chain, except the staging directory
      have hset := hset₅ (hk.wf hw)
      rw [htree₁] at hset
      simp only [Set.union_empty, Set.empty_union, Set.mem_union, Set.mem_ofPred_eq,
        Set.mem_insert_iff, Set.mem_singleton_iff, List.tail_cons] at hq ⊢
      rcases hq with ⟨r, hr, rfl⟩ | rfl | rfl
      · exact .inr (hset _ (tail_mem_syncChain hr hclear))
      · exact .inl rfl
      · exact .inr (hset _ (mem_syncChain_self _ _))
    · -- the bytes were synced before they were moved
      right
      simp only [Set.union_empty, Set.empty_union, Set.mem_singleton_iff] at hq
      subst hq
      have hwf₁ := hk₁.wf hw
      have hs₂ := (ht₂.keeps.kept hwf₁).synced _ (by simp) hsync₁
      have hs₃ := (hk₃.kept (ht₂.keeps.wf hwf₁)).synced _ (by simp) hs₂
      exact (hk₅.kept (hk.wf hw)).synced _ (by simp) (hsync₄ hs₃)

/-- **`write_json_atomic` replaces one file.** -/
theorem writeJsonAtomic_run (hown : OwnNames env) (ht : w.tree.IsDir tmpDir)
    (hs : Shaped env.fits w.tree) (hempty : ∀ n, w.tree.fileAt (n :: tmpDir) = none) (pl : Place)
    (hk : pl.kind = .file) (hf : Fit env.fits pl.path) (htmp : ∀ n, pl ≠ .staged n)
    (bytes : Bytes) :
    ∃ w', (writeJsonAtomic tmpDir pl.path bytes).run.run (engineExec env) w = (.ok (), w') ∧
      Stored w w' pl.path bytes {tmpDir} ∅ := by
  obtain ⟨n, w₁, hrun₁, hn, hw₁⟩ := create_run hown ht hs hempty
  have hs₁ : Shaped env.fits w₁.tree := Wrote.shaped (.staged n) hw₁ rfl hn hs
  obtain ⟨w₂, hrun₂, hw₂⟩ := writeAll_run (w := w₁) hn (by rw [hw₁.file, if_pos rfl]) bytes
  have hs₂ : Shaped env.fits w₂.tree := Wrote.shaped (.staged n) hw₂ rfl hn hs₁
  obtain ⟨w₃, hrun₃, hfile₃, hdir₃, hk₃, hset₃⟩ := commit_run (w := w₂) hs₂ pl hk hf
    (by rw [hw₂.file, if_pos rfl])
  refine ⟨w₃, ?_, ?_, ?_, ?_, fun hw => hset₃ (hw₂.keeps.wf (hw₁.keeps.wf hw))⟩
  · rw [writeJsonAtomic, Prog.run_bind_ok hrun₁, Prog.run_bind_lift hrun₂]
    exact hrun₃
  · intro q
    rw [hfile₃, hw₂.file, hw₁.file]
    by_cases hq : q = pl.path
    · simp [hq]
    · by_cases hq' : q = n :: tmpDir
      · subst hq'
        simp [hq, hempty]
      · simp [hq, hq']
  · intro q
    rw [hdir₃, hw₂.dir, hw₁.dir]
  · refine ((hw₁.keeps.trans hw₂.keeps).trans hk₃).discharge
      (fun _ q hq => .inl ?_) fun _ q hq => ?_
    · simpa using hq
    · -- the staged file is gone
      right
      obtain rfl : q = n :: tmpDir := by simpa using hq
      refine Fs.synced_of_none ((hfile₃ _).trans ?_)
      rw [if_neg (by simpa using htmp n), if_pos rfl]

end Aks3.Engine
