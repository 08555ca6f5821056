import Aks3.Engine.Methods

/-!
# Buckets and the data directory, run alone

What `create_bucket`, `delete_bucket` and `open` answer and do when nothing else
runs and the filesystem accepts the engine's own names.
-/

set_option autoImplicit false

namespace Aks3.Engine

open Lib

variable {env : Env OsName} {C : Crates} {w : World OsName} {b : String}

/-! ## Creating a bucket -/

theorem createDir_run (p : Path OsName) : (TokioFs.createDir p).run.run (engineExec env) w =
    w.withFs (w.fs.mkdir env.fits p) := rfl

theorem createBucket_exists (hown : OwnNames env) (hv : isValidBucketName b = true)
    (hd : w.tree.IsDir (bucketDir b)) :
    runAlone env (serve C (.createBucket b)) w = (.error .bucketAlreadyExists, w) := by
  obtain ⟨i, hi⟩ := hd
  have hex : w.fs.mkdir env.fits (bucketDir b) = (.error .alreadyExists, w.fs) :=
    Fs.mkdir_exists (hown.bucket_fit hv) (by
      change w.tree.find (bucketDir b) ≠ none
      rw [hi]
      exact Option.some_ne_none _)
  have hbody : (createBucketLocked C (bucketDir b)).run.run (engineExec env) w =
      (.error .bucketAlreadyExists, w) := by
    rw [createBucketLocked, Prog.run_bind_lift (createDir_run _), hex]
    rfl
  rw [runAlone, serve, createBucket, bind_assoc, Prog.run_bind_ok (checkedBucketDir_run hv),
    Prog.run_bind_error (locked_run (.bucket b) .exclusive hbody)]

/-- The directory of a new bucket is made. -/
theorem createDir_bucket (hown : OwnNames env) (hr : Ready env.fits w.tree)
    (hv : isValidBucketName b = true) (hd : ¬ w.tree.IsDir (bucketDir b)) :
    ∃ w₁, (TokioFs.createDir (bucketDir b)).run.run (engineExec env) w = (.ok (), w₁) ∧
      (∀ q, w₁.tree.fileAt q = w.tree.fileAt q) ∧
      (∀ q, w₁.tree.IsDir q ↔ w.tree.IsDir q ∨ q = bucketDir b) ∧ Shaped env.fits w₁.tree ∧
      w.Keeps w₁ {bucketsDir} ∅ := by
  have hnone := hr.shaped.find_none_of_dir (.bucket b) rfl hd
  have hok : (w.fs.mkdir env.fits (bucketDir b)).1 = .ok () := by
    obtain ⟨i, hp, hx, -, he⟩ := Fs.mkdir_ok (hown.bucket_fit hv) hr.buckets hnone
    rw [bucketDir, he]
  obtain ⟨w₁, hw₁⟩ : ∃ w₁ : World OsName,
    w₁ = { w with fs := (w.fs.mkdir env.fits (bucketDir b)).2 } := ⟨_, rfl⟩
  have hfile₁ : ∀ q, w₁.tree.fileAt q = w.tree.fileAt q := fun q => by
    rw [hw₁]
    exact Fs.fileAt_mkdir env.fits w.fs (bucketDir b) q
  have hdir₁ : ∀ q, w₁.tree.IsDir q ↔ w.tree.IsDir q ∨ q = bucketDir b := fun q => by
    rw [hw₁, World.tree, Fs.isDir_mkdir, hok]
    simp
  refine ⟨w₁, ?_, hfile₁, hdir₁, ?_, ?_⟩
  · rw [createDir_run, World.withFs_of_ok hok, hw₁]
  · exact hr.shaped.of_view (fun q hq => .inl (hfile₁ q ▸ hq)) fun q hq =>
      ((hdir₁ q).mp hq).imp_right fun h => .inr ⟨.bucket b, rfl, h, hown.bucket_fit hv⟩
  · rw [hw₁]
    exact ⟨fun hwf => (Fs.change_mkdir env.fits w.fs _).wf hwf,
      fun hwf => Fs.kept_mkdir hwf env.fits (bucketDir b), rfl⟩

/-- **A new bucket is a directory that holds its own file.** -/
theorem createBucket_run (hown : OwnNames env) (hr : Ready env.fits w.tree)
    (hv : isValidBucketName b = true) (hd : ¬ w.tree.IsDir (bucketDir b)) :
    ∃ w', runAlone env (serve C (.createBucket b)) w = (.ok .unit, w') ∧
      (∀ q, w'.tree.fileAt q = if q = (Place.bucketMeta b).path then
        some (C.bucketMetaJson.toVec ⟨w.clock⟩) else w.tree.fileAt q) ∧
      (∀ q, w'.tree.IsDir q ↔ w.tree.IsDir q ∨ q = bucketDir b) ∧ w.Keeps w' {tmpDir} ∅ := by
  obtain ⟨w₁, hmk, hfile₁, hdir₁, hs₁, hk₁⟩ := createDir_bucket hown hr hv hd
  obtain ⟨w₂, hrun₂, hst⟩ := writeJsonAtomic_run hown (w := w₁) ((hdir₁ _).mpr (.inl hr.tmp)) hs₁
    (fun n => (hfile₁ _).trans (hr.empty n)) (.bucketMeta b) rfl (hown.bucketMeta_fit hv) (by simp)
    (C.bucketMetaJson.toVec ⟨w.clock⟩)
  have hdir₂ : ∀ q, w₂.tree.IsDir q ↔ w.tree.IsDir q ∨ q = bucketDir b := by
    intro q
    rw [hst.dir, hdir₁, or_iff_left_iff_imp]
    intro hq
    rcases List.suffix_cons_iff.mp hq with hq | hq
    · exact .inr hq
    · exact .inl (FileTree.isDir_of_suffix hr.buckets hq)
  have hs₂ : Shaped env.fits w₂.tree := hst.shaped (.bucketMeta b) rfl (hown.bucketMeta_fit hv) hs₁
  obtain ⟨w₃, hrun₃, htree₃, hk₃, hset₃⟩ := fsyncDir_run (w := w₂) (p := bucketsDir) hs₂
    ((hdir₂ _).mpr (.inl hr.buckets))
  refine ⟨w₃, ?_, fun q => ?_, fun q => ?_, ?_⟩
  · have hnow : (prim .now : EngineProg Nat).run (engineExec env) w₁ = (w.clock, w₁) := by
      rw [← hk₁.clock]
      rfl
    have hbody : (createBucketLocked C (bucketDir b)).run.run (engineExec env) w =
        (.ok (), w₃) := by
      rw [createBucketLocked, Prog.run_bind_lift hmk]
      dsimp only
      refine (Prog.run_bind_lift hnow).trans ?_
      rw [Place.path] at hrun₂
      rw [Prog.run_bind_lift hrun₂]
      exact liftIo_run hrun₃
    rw [runAlone, serve, createBucket, bind_assoc, Prog.run_bind_ok (checkedBucketDir_run hv),
      Prog.run_bind_ok (locked_run (.bucket b) .exclusive hbody)]
    rfl
  · rw [htree₃, hst.file, hfile₁]
  · rw [htree₃, hdir₂]
  · have hk := hk₁.trans hst.keeps
    refine (hk.trans hk₃).discharge (fun hw q hq => ?_) fun _ q hq => absurd hq (by simp)
    simp only [Set.union_empty, Set.mem_union, Set.mem_singleton_iff] at hq
    rcases hq with rfl | rfl
    · exact .inr (hset₃ (hk.wf hw))
    · exact .inl rfl

/-! ## Deleting a bucket -/

/-- Whether a bucket has anything in its object tree. -/
def Occupied (t : FileTree OsName) (b : String) : Prop :=
  t.hasChild (Place.objects b).path = true

instance (t : FileTree OsName) (b : String) : Decidable (Occupied t b) :=
  inferInstanceAs (Decidable (_ = _))

theorem hasAnyEntry_run (hown : OwnNames env) (hs : Shaped env.fits w.tree)
    (hv : isValidBucketName b = true) :
    ∃ w', (hasAnyEntry (objectsDir (bucketDir b))).run.run (engineExec env) w =
      (.ok (decide (Occupied w.tree b)), w') ∧ w.Ticked w' := by
  refine ⟨{ w with tick := w.tick + 1 }, ?_, ⟨rfl, rfl⟩⟩
  have hcall : (TokioFs.readDir (objectsDir (bucketDir b))).run.run (engineExec env) w =
      (((w.fs.readDir env.fits (Place.objects b).path).mapError ErrorKind.os).map
        (env.order w.tick), { w with tick := w.tick + 1 }) := rfl
  rw [hasAnyEntry, Prog.run_bind_lift hcall]
  by_cases hd : w.tree.IsDir (Place.objects b).path
  · rw [Fs.readDir_ok (hown.objects_fit hv) hd]
    simp only [Except.mapError, Except.map]
    have hperm := env.order_perm w.tick (w.tree.children (Place.objects b).path)
    have hempty : (env.order w.tick (w.fs.tree.children (Place.objects b).path)).isEmpty =
        !decide (Occupied w.tree b) := by
      rw [Bool.eq_iff_iff, List.isEmpty_iff, Bool.not_eq_true', decide_eq_false_iff_not, Occupied,
        Bool.not_eq_true, FileTree.hasChild_eq_false]
      constructor
      · intro hnil n
        by_contra hne
        obtain ⟨x, hx⟩ := Option.ne_none_iff_exists'.mp hne
        have hmem := hperm.mem_iff.mpr (FileTree.mem_children.mpr ⟨x, hx, rfl⟩)
        exact absurd (hnil ▸ hmem) List.not_mem_nil
      · intro hnone
        refine List.eq_nil_iff_forall_not_mem.mpr fun c hc => ?_
        obtain ⟨x, hx, -⟩ := FileTree.mem_children.mp (hperm.mem_iff.mp hc)
        rw [hnone] at hx
        cases hx
    rw [hempty, Bool.not_not]
    rfl
  · have hnone := hs.find_none_of_dir (.objects b) rfl hd
    have hocc : ¬ Occupied w.tree b := by
      rw [Occupied, FileTree.hasChild_of_none hnone]
      exact Bool.false_ne_true
    rw [Fs.readDir_missing (hown.objects_fit hv) (hs.clear (.objects b) rfl) hnone]
    simp only [hocc, decide_false]
    rfl

theorem bucketExists_call (hown : OwnNames env) (hs : Shaped env.fits w.tree)
    (hv : isValidBucketName b = true) :
    ∃ w', (liftIo (TokioFs.tryExists (bucketDir b))).run.run (engineExec env) w =
      (.ok (decide (w.tree.IsDir (bucketDir b))), w') ∧ w.Ticked w' := by
  refine ⟨{ w with tick := w.tick + 1 }, ?_, ⟨rfl, rfl⟩⟩
  have hcall : (TokioFs.tryExists (bucketDir b)).run.run (engineExec env) w = _ :=
    tryExists_run (hown.bucket_fit hv) (hs.clear (.bucket b) rfl)
  have hiff : w.tree.find (bucketDir b) ≠ none ↔ w.tree.IsDir (bucketDir b) := by
    constructor
    · exact fun hne => by_contra fun hd => hne (hs.find_none_of_dir (.bucket b) rfl hd)
    · rintro ⟨i, hi⟩
      rw [hi]
      exact Option.some_ne_none _
  rw [decide_eq_decide.mpr hiff] at hcall
  exact liftIo_run hcall

theorem deleteBucket_missing (hown : OwnNames env) (hs : Shaped env.fits w.tree)
    (hv : isValidBucketName b = true) (hd : ¬ w.tree.IsDir (bucketDir b)) :
    ∃ w', runAlone env (serve C (.deleteBucket b)) w = (.error .noSuchBucket, w') ∧
      w.Ticked w' := by
  obtain ⟨w₁, hrun₁, ht₁⟩ := bucketExists_call hown hs hv
  rw [decide_eq_false hd] at hrun₁
  have hbody : (deleteBucketLocked (bucketDir b)).run.run (engineExec env) w =
      (.error .noSuchBucket, w₁) := by
    rw [deleteBucketLocked, Prog.run_bind_ok hrun₁]
    rfl
  refine ⟨w₁, ?_, ht₁⟩
  rw [runAlone, serve, deleteBucket, bind_assoc, Prog.run_bind_ok (checkedBucketDir_run hv),
    Prog.run_bind_error (locked_run (.bucket b) .exclusive hbody)]

theorem deleteBucket_occupied (hown : OwnNames env) (hs : Shaped env.fits w.tree)
    (hv : isValidBucketName b = true) (hd : w.tree.IsDir (bucketDir b)) (ho : Occupied w.tree b) :
    ∃ w', runAlone env (serve C (.deleteBucket b)) w = (.error .bucketNotEmpty, w') ∧
      w.Ticked w' := by
  obtain ⟨w₁, hrun₁, ht₁⟩ := bucketExists_call hown hs hv
  have htree₁ : w₁.tree = w.tree := by rw [World.tree, ht₁.fs]
  obtain ⟨w₂, hrun₂, ht₂⟩ := hasAnyEntry_run hown (w := w₁) (htree₁ ▸ hs) hv
  rw [decide_eq_true hd] at hrun₁
  rw [htree₁, decide_eq_true ho] at hrun₂
  have hbody : (deleteBucketLocked (bucketDir b)).run.run (engineExec env) w =
      (.error .bucketNotEmpty, w₂) := by
    rw [deleteBucketLocked, Prog.run_bind_ok hrun₁]
    change ((liftIo (hasAnyEntry (objectsDir (bucketDir b)))) >>= _ : EngineM Unit).run.run _ _ = _
    rw [Prog.run_bind_ok (liftIo_run hrun₂)]
    rfl
  refine ⟨w₂, ?_, ht₁.trans ht₂⟩
  rw [runAlone, serve, deleteBucket, bind_assoc, Prog.run_bind_ok (checkedBucketDir_run hv),
    Prog.run_bind_error (locked_run (.bucket b) .exclusive hbody)]

/-- **An empty bucket is taken away with everything below its directory.** -/
theorem deleteBucket_run (hown : OwnNames env) (hs : Shaped env.fits w.tree)
    (hv : isValidBucketName b = true) (hd : w.tree.IsDir (bucketDir b)) (ho : ¬ Occupied w.tree b) :
    ∃ w', runAlone env (serve C (.deleteBucket b)) w = (.ok .unit, w') ∧
      (∀ q, w'.tree.find q = if bucketDir b <:+ q then none else w.tree.find q) ∧
      w.Keeps w' ∅ ∅ := by
  obtain ⟨w₁, hrun₁, ht₁⟩ := bucketExists_call hown hs hv
  have htree₁ : w₁.tree = w.tree := by rw [World.tree, ht₁.fs]
  obtain ⟨w₂, hrun₂, ht₂⟩ := hasAnyEntry_run hown (w := w₁) (htree₁ ▸ hs) hv
  rw [decide_eq_true hd] at hrun₁
  rw [htree₁, decide_eq_false ho] at hrun₂
  have htree₂ : w₂.tree = w.tree := by rw [World.tree, ht₂.fs, ← htree₁]
  obtain ⟨w₃, hrun₃, hcl⟩ := StdFs.removeDirAll_run (L := LockName) (n := utf8 b) (p := bucketsDir)
    (w := w₂) (htree₂ ▸ hd) (htree₂ ▸ hs.fit)
  have hfind₃ : ∀ q, w₃.tree.find q = if bucketDir b <:+ q then none else w.tree.find q := by
    intro q
    rw [hcl.find, htree₂]
    rfl
  have hbuckets : w₃.tree.IsDir bucketsDir := by
    obtain ⟨i, hi⟩ := FileTree.isDir_tail hd
    refine ⟨i, ?_⟩
    rw [hfind₃, if_neg, hi]
    intro h
    have := h.length_le
    simp [bucketDir, bucketsDir] at this
  have hs₃ : Shaped env.fits w₃.tree := hs.of_find fun q hq => by
    rw [hfind₃] at hq ⊢
    split at hq
    · exact absurd rfl hq
    · rw [if_neg ‹_›]
  obtain ⟨w₄, hrun₄, htree₄, hk₄, hset₄⟩ := fsyncDir_run hs₃ hbuckets
  refine ⟨w₄, ?_, fun q => by rw [htree₄, hfind₃], ?_⟩
  · have hbody : (deleteBucketLocked (bucketDir b)).run.run (engineExec env) w = (.ok (), w₄) := by
      have hrm : (TokioFs.removeDirAll (bucketDir b)).run.run (engineExec env) w₂ =
          (.ok (), w₃) := hrun₃
      rw [deleteBucketLocked, Prog.run_bind_ok hrun₁]
      change ((liftIo (hasAnyEntry (objectsDir (bucketDir b)))) >>= _ :
        EngineM Unit).run.run _ _ = _
      rw [Prog.run_bind_ok (liftIo_run hrun₂)]
      change (ExceptT.lift (TokioFs.removeDirAll (bucketDir b)).run >>= _ :
        EngineM Unit).run.run _ _ = _
      rw [Prog.run_bind_lift hrm]
      exact liftIo_run hrun₄
    rw [runAlone, serve, deleteBucket, bind_assoc, Prog.run_bind_ok (checkedBucketDir_run hv),
      Prog.run_bind_ok (locked_run (.bucket b) .exclusive hbody)]
    rfl
  · obtain ⟨ps, hdrop, hps⟩ := hcl.dropped
    have hk₃ : w₂.Keeps w₃ {q | ∃ p ∈ ps, q = p.tail} ∅ := ⟨hdrop.wf, hdrop.kept, hcl.clock⟩
    have hk := (ht₁.keeps.trans ht₂.keeps).trans hk₃
    refine (hk.trans hk₄).discharge (fun hw q hq => .inr ?_) fun _ q hq => absurd hq (by simp)
    simp only [Set.union_empty, Set.empty_union, Set.mem_ofPred_eq] at hq
    obtain ⟨p, hp, rfl⟩ := hq
    -- what lost an entry is gone itself, or is the directory of the buckets
    obtain ⟨pre, hpre⟩ := hps p hp
    cases pre with
    | nil =>
        rw [List.nil_append] at hpre
        rw [← hpre]
        exact hset₄ (hk.wf hw)
    | cons n pre =>
        refine Fs.settled_of_not_isDir ?_
        rintro ⟨i, hi⟩
        change w₄.tree.find _ = _ at hi
        rw [htree₄, hfind₃, ← hpre, if_pos] at hi
        · cases hi
        · exact ⟨pre, rfl⟩

/-! ## Opening the data directory -/

/-- The stamp of the data directory, if there is one, is one this build reads. -/
def Stamped (C : Crates) (t : FileTree OsName) : Prop :=
  ∀ bytes, t.fileAt formatPath = some bytes →
    ∃ f, C.diskFormatJson.fromSlice bytes = .ok f ∧ f.format ≤ DISK_FORMAT

theorem sweepEntries_run : ∀ (entries : List (OsName × Kind)) {w : World OsName},
    Shaped env.fits w.tree → (∀ e ∈ entries, e.2 = .file ∧ Fit env.fits (e.1 :: tmpDir)) →
    ∃ w', (sweepEntries tmpDir entries).run (engineExec env) w = ((), w') ∧
      (∀ q, w'.tree.fileAt q = if q ∈ entries.map (fun e => e.1 :: tmpDir) then none
        else w.tree.fileAt q) ∧
      (∀ q, w'.tree.IsDir q ↔ w.tree.IsDir q) ∧ w.Keeps w' {tmpDir} ∅
  | [], w, _, _ => ⟨w, rfl, by simp, fun _ => Iff.rfl,
      (World.Keeps.refl w).mono (Set.empty_subset _) le_rfl⟩
  | (n, .dir) :: entries, w, _, hk => by
      have := (hk _ List.mem_cons_self).1
      cases this
  | (n, .file) :: entries, w, hs, hk => by
      have hfile₁ : ∀ q, (w.fs.unlink env.fits (n :: tmpDir)).2.tree.fileAt q =
          if q = n :: tmpDir then none else w.tree.fileAt q := by
        intro q
        rw [Fs.fileAt_unlink]
        rcases unlink_place hs (.staged n) rfl (hk _ List.mem_cons_self).2 with hok | ⟨he, hnone⟩
        · rw [Place.path] at hok
          simp [hok]
        · rw [Place.path] at he hnone
          rw [he]
          by_cases hq : q = n :: tmpDir <;> simp [hq, hnone]
      have hdir₁ := Fs.isDir_unlink env.fits w.fs (n :: tmpDir)
      have hs₁ : Shaped env.fits (w.fs.unlink env.fits (n :: tmpDir)).2.tree :=
        hs.of_subset (fun q hq h => hq (by
          rw [hfile₁]
          split
          · rfl
          · exact h)) fun q hq => (hdir₁ q).mp hq
      obtain ⟨w', hrun, hfile, hdir, hkeeps⟩ := sweepEntries_run entries
        (w := { w with fs := (w.fs.unlink env.fits (n :: tmpDir)).2 }) hs₁
        fun e he => hk e (List.mem_cons_of_mem _ he)
      refine ⟨w', hrun, fun q => ?_, fun q => (hdir q).trans (hdir₁ q), ?_⟩
      · have hiff : q ∈ ((n, Kind.file) :: entries).map (fun e => e.1 :: tmpDir) ↔
            q = n :: tmpDir ∨ q ∈ entries.map (fun e => e.1 :: tmpDir) := List.mem_cons
        rw [hfile, World.tree, hfile₁]
        by_cases hm : q ∈ entries.map (fun e => e.1 :: tmpDir)
        · rw [if_pos hm, if_pos (hiff.mpr (.inr hm))]
        · rw [if_neg hm]
          by_cases hq : q = n :: tmpDir
          · rw [if_pos hq, if_pos (hiff.mpr (.inl hq))]
          · rw [if_neg hq, if_neg fun h => (hiff.mp h).elim hq hm]
      · have hk₁ : w.Keeps { w with fs := (w.fs.unlink env.fits (n :: tmpDir)).2 } {tmpDir} ∅ :=
          ⟨fun hwf => (Fs.change_unlink env.fits w.fs _).wf hwf,
            fun hwf => Fs.kept_unlink hwf env.fits (n :: tmpDir), rfl⟩
        exact (hk₁.trans hkeeps).mono (by simp) (by simp)

theorem sweepTmp_run (hs : Shaped env.fits w.tree) (ht : w.tree.IsDir tmpDir) :
    ∃ w', sweepTmp.run.run (engineExec env) w = (.ok (), w') ∧
      (∀ n, w'.tree.fileAt (n :: tmpDir) = none) ∧
      (∀ q, (∀ n, q ≠ n :: tmpDir) → w'.tree.fileAt q = w.tree.fileAt q) ∧
      (∀ q, w'.tree.IsDir q ↔ w.tree.IsDir q) ∧ w.Keeps w' {tmpDir} ∅ := by
  have hperm := env.order_perm w.tick (w.tree.children tmpDir)
  have hcall : (TokioFs.readDir tmpDir).run.run (engineExec env) w =
      (.ok (env.order w.tick (w.tree.children tmpDir)), { w with tick := w.tick + 1 }) := by
    refine (StdFs.readDir_run (L := LockName) tmpDir w).trans ?_
    rw [Fs.readDir_ok (hs.fit_of_isDir ht) ht]
    rfl
  generalize env.order w.tick (w.tree.children tmpDir) = entries at hperm hcall
  have hmem : ∀ n kd, (n, kd) ∈ entries ↔ ∃ x, w.tree.find (n :: tmpDir) = some x ∧ x.kind = kd :=
    fun n kd => hperm.mem_iff.trans FileTree.mem_children
  obtain ⟨w', hrun, hfile, hdir, hk⟩ := sweepEntries_run entries
    (w := { w with tick := w.tick + 1 }) hs fun e he => by
      obtain ⟨x, hx, hkd⟩ := (hmem e.1 e.2).mp he
      have hx' : w.tree.find (Place.staged e.1).path = some x := hx
      exact ⟨hkd ▸ hs.kind_eq hx', hs.fit _ (by rw [hx]; exact Option.some_ne_none x)⟩
  refine ⟨w', ?_, fun n => ?_, fun q hq => ?_, hdir, ⟨hk.wf, hk.kept, hk.clock⟩⟩
  · rw [sweepTmp, Prog.run_bind_ok hcall, ExceptT.run_lift, Prog.run_map, hrun]
  · rw [hfile]
    split
    · rfl
    · rename_i hn
      cases hf : w.tree.fileAt (n :: tmpDir) with
      | none => rfl
      | some d =>
          obtain ⟨i, hi⟩ := FileTree.fileAt_eq_some.mp hf
          exact absurd (List.mem_map.mpr ⟨(n, .file), (hmem n .file).mpr ⟨_, hi, rfl⟩, rfl⟩) hn
  · rw [hfile, if_neg]
    intro h
    obtain ⟨e, -, he⟩ := List.mem_map.mp h
    exact hq e.1 he.symm

theorem initFormat_run (hown : OwnNames env) (hr : Ready env.fits w.tree)
    (hst : Stamped C w.tree) :
    ∃ w', (initFormat C).run.run (engineExec env) w = (.ok (), w') ∧
      (∀ q, w'.tree.fileAt q = if q = formatPath then
        some ((w.tree.fileAt formatPath).getD (C.diskFormatJson.toVec ⟨DISK_FORMAT⟩))
        else w.tree.fileAt q) ∧
      (∀ q, w'.tree.IsDir q ↔ w.tree.IsDir q) ∧ w.Keeps w' {tmpDir} ∅ ∧
      (w.tree.fileAt formatPath = none → w.fs.Wf → w'.fs.Settled [AKS3_DIR]) := by
  have hread := readFile_place hr.shaped .format rfl hown.format_fit
  rw [Place.path] at hread
  cases hfile : w.tree.fileAt formatPath with
  | some bytes =>
      obtain ⟨f, hf, hle⟩ := hst bytes hfile
      rw [hfile] at hread
      refine ⟨w, ?_, fun q => ?_, fun q => Iff.rfl, ?_, by simp⟩
      · rw [initFormat, Prog.run_bind_lift (read_run _), hread]
        simp only [Except.mapError, hf, if_neg (Nat.not_lt.mpr hle)]
        rfl
      · split
        · rename_i hq
          rw [hq, hfile]
          rfl
        · rfl
      · exact (World.Keeps.refl w).mono (Set.empty_subset _) le_rfl
  | none =>
      rw [hfile] at hread
      obtain ⟨w', hrun, hsto⟩ := writeJsonAtomic_run hown hr.tmp hr.shaped hr.empty .format rfl
        hown.format_fit
        (by simp) (C.diskFormatJson.toVec ⟨DISK_FORMAT⟩)
      refine ⟨w', ?_, fun q => ?_, fun q => ?_, hsto.keeps, fun _ => hsto.settled⟩
      · rw [initFormat, Prog.run_bind_lift (read_run _), hread]
        exact hrun
      · rw [hsto.file]
        rfl
      · rw [hsto.dir, or_iff_left_iff_imp]
        exact fun hq => FileTree.isDir_of_suffix (FileTree.isDir_tail hr.tmp) hq

/-- **Opening makes what is missing of the layout, empties the staging directory and
stamps a new data directory.** -/
theorem openEngine_run (hown : OwnNames env) (hs : Shaped env.fits w.tree)
    (hst : Stamped C w.tree) :
    ∃ w', runAlone env (serve C .openEngine) w = (.ok .unit, w') ∧ Ready env.fits w'.tree ∧
      w'.tree.fileAt formatPath =
        some ((w.tree.fileAt formatPath).getD (C.diskFormatJson.toVec ⟨DISK_FORMAT⟩)) ∧
      (∀ q, q ≠ formatPath → (∀ n, q ≠ n :: tmpDir) → w'.tree.fileAt q = w.tree.fileAt q) ∧
      (∀ q, w'.tree.IsDir q ↔ w.tree.IsDir q ∨ q <:+ tmpDir ∨ q <:+ bucketsDir) ∧
      w.Keeps w' {[], [AKS3_DIR], tmpDir} ∅ ∧
      (w.tree.fileAt formatPath = none → w.fs.Wf → w'.fs.Settled [AKS3_DIR]) := by
  obtain ⟨w₁, hrun₁, hfile₁, hdir₁, hk₁⟩ := mkdirs_run hown.tmp_fit (hs.clear .tmp rfl)
  have hs₁ : Shaped env.fits w₁.tree := hs.of_view (fun q hq => .inl (hfile₁ q ▸ hq))
    fun q hq => ((hdir₁ q).mp hq).imp_right (Place.suffix_fit .tmp rfl hown.tmp_fit)
  obtain ⟨w₂, hrun₂, hfile₂, hdir₂, hk₂⟩ := mkdirs_run hown.buckets_fit (hs₁.clear .buckets rfl)
  have hs₂ : Shaped env.fits w₂.tree := hs₁.of_view (fun q hq => .inl (hfile₂ q ▸ hq))
    fun q hq => ((hdir₂ q).mp hq).imp_right (Place.suffix_fit .buckets rfl hown.buckets_fit)
  have htmp₂ : w₂.tree.IsDir tmpDir :=
    (hdir₂ _).mpr (.inl ((hdir₁ _).mpr (.inr List.suffix_rfl)))
  obtain ⟨w₃, hrun₃, hempty₃, hfile₃, hdir₃, hk₃⟩ := sweepTmp_run hs₂ htmp₂
  have hs₃ : Shaped env.fits w₃.tree := hs₂.of_subset (fun q hq => ?_)
    fun q hq => (hdir₃ q).mp hq
  swap
  · by_cases hq' : ∃ n, q = n :: tmpDir
    · obtain ⟨n, rfl⟩ := hq'
      exact absurd (hempty₃ n) hq
    · rwa [hfile₃ q fun n hn => hq' ⟨n, hn⟩] at hq
  have hr₃ : Ready env.fits w₃.tree := ⟨hs₃, (hdir₃ _).mpr htmp₂,
    (hdir₃ _).mpr ((hdir₂ _).mpr (.inr List.suffix_rfl)), hempty₃⟩
  have hformat : w₃.tree.fileAt formatPath = w.tree.fileAt formatPath := by
    rw [hfile₃ formatPath (by simp [formatPath, tmpDir]), hfile₂, hfile₁]
  obtain ⟨w₄, hrun₄, hfile₄, hdir₄, hk₄, hset₄⟩ := initFormat_run (C := C) hown hr₃
    (fun bytes hb => hst bytes (hformat ▸ hb))
  have hk := (hk₁.trans hk₂).trans hk₃
  simp only [Place.path] at hrun₁ hdir₁ hrun₂ hdir₂
  refine ⟨w₄, ?_, ⟨?_, (hdir₄ _).mpr hr₃.tmp, (hdir₄ _).mpr hr₃.buckets, fun n => ?_⟩, ?_,
    fun q hq hq' => ?_, fun q => ?_, (hk.trans hk₄).mono ?_ (by simp), fun hnone hw => ?_⟩
  · have hio : (do
        TokioFs.createDirAll tmpDir
        TokioFs.createDirAll bucketsDir
        sweepTmp
        initFormat C : IoM Unit).run.run (engineExec env) w = (.ok (), w₄) := by
      rw [Prog.run_bind_ok hrun₁, Prog.run_bind_ok hrun₂, Prog.run_bind_ok hrun₃]
      exact hrun₄
    have hopen : (openEngine C).run.run (engineExec env) w = (.ok (), w₄) := liftIo_run hio
    rw [runAlone, serve, Prog.run_bind_ok hopen]
    rfl
  · refine hs₃.of_commit .format rfl hown.format_fit (fun q hp hq => ?_)
      fun q hq => .inl ((hdir₄ q).mp hq)
    rw [Place.path] at hp
    rwa [hfile₄, if_neg hp] at hq
  · rw [hfile₄, if_neg (by simp [formatPath, tmpDir]), hempty₃]
  · rw [hfile₄, if_pos rfl, hformat]
  · rw [hfile₄, if_neg hq, hfile₃ q hq', hfile₂, hfile₁]
  · rw [hdir₄, hdir₃, hdir₂, hdir₁, or_assoc]
  · rintro q (((⟨r, hr, rfl⟩ | ⟨r, hr, rfl⟩) | rfl) | rfl)
    · rcases List.suffix_cons_iff.mp (FileTree.mem_missing.mp hr).1 with rfl | h
      · exact .inr (.inl rfl)
      · rcases List.suffix_cons_iff.mp h with rfl | h
        · exact .inl rfl
        · rw [List.suffix_nil.mp h]
          exact .inl rfl
    · rcases List.suffix_cons_iff.mp (FileTree.mem_missing.mp hr).1 with rfl | h
      · exact .inl rfl
      · rw [List.suffix_nil.mp h]
        exact .inl rfl
    · exact .inr (.inr rfl)
    · exact .inr (.inr rfl)
  · exact hset₄ (hformat ▸ hnone) (hk.wf hw)

end Aks3.Engine
