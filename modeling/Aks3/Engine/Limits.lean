import Aks3.Engine.Refine
import Aks3.Lib.NameLimit

/-!
# Keys with a component the filesystem refuses

A key is refused where a call meets a component that is too long, and a path is
followed from its first component on. An upload makes the directories before
that component and is always refused there. The other requests make nothing: they
are refused only if those directories are there already, and otherwise find that
there is no such key (`getObject_refused`, `deleteObject_refused`). What an upload
has left stays: no request about its key removes it, and it keeps its bucket from
being deleted.
-/

set_option autoImplicit false

namespace Aks3.Engine

open Lib

variable {env : Env OsName} {C : Crates} {X : Set (Path OsName)} {S : Store} {w w' : World OsName}
  {b k : String}

/-- The directory of a key's components before the first that is refused. -/
def refusedDir (fits : OsName → Bool) (b k : String) : Path OsName :=
  fitting fits (keyToRelPath k) ++ (Place.objects b).path

theorem refusedDir_eq (hf : Fit env.fits (Place.objects b).path) :
    fitting env.fits (Place.object b k).path = refusedDir env.fits b k :=
  fitting_append hf _

theorem refusedDir_suffix (fits : OsName → Bool) (b k : String) :
    refusedDir fits b k <:+ (Place.object b k).path := by
  obtain ⟨l, hl⟩ := fitting_suffix fits (keyToRelPath k)
  exact ⟨l, by rw [refusedDir, ← List.append_assoc, hl]; rfl⟩

/-- The directories on the way to it are places that fit. -/
theorem refusedDir_places (hf : Fit env.fits (Place.objects b).path) {q : Path OsName}
    (hq : q <:+ refusedDir env.fits b k) :
    q = [] ∨ ∃ up : Place, up.kind = .dir ∧ q = up.path ∧ Fit env.fits up.path := by
  have hfit : Fit env.fits q := by
    rw [← refusedDir_eq hf] at hq
    exact (fit_fitting env.fits _).suffix hq
  exact (Place.suffix_path (.object b k) rfl (hq.trans (refusedDir_suffix _ b k))).imp_right
    fun ⟨up, hup, he⟩ => ⟨up, hup, he, he ▸ hfit⟩

section Requests

variable (hown : OwnNames env) (hv : isValidBucketName b = true)
  (hk : ¬ Fit env.fits (keyToRelPath k))

include hk in
theorem not_fit_object : ¬ Fit env.fits (Place.object b k).path := fun h =>
  hk fun n hn => h n (List.mem_append_left _ hn)

include hown hv in
theorem refusal_object (t : FileTree OsName) : t.refusal env.fits (Place.object b k).path =
    if t.IsDir (refusedDir env.fits b k) then .invalidFilename else .notFound := by
  rw [FileTree.refusal, refusedDir_eq (hown.objects_fit hv)]

include hown hv hk

/-! ## Reading -/

theorem liveVersion_refused (hs : Shaped env.fits w.tree) :
    (liveVersion C (objectDir (bucketDir b) k)).run.run (engineExec env) w =
      (.error (if w.tree.IsDir (refusedDir env.fits b k) then .keyTooLong else .noSuchKey), w) := by
  have hread : w.fs.readFile env.fits (metaPath (objectDir (bucketDir b) k)) =
      .error (w.tree.refusal env.fits (Place.object b k).path) :=
    Fs.readFile_below (not_fit_object hk) (hs.clear (.object b k) rfl)
  rw [refusal_object hown hv] at hread
  have hload : (loadManifest C (metaPath (objectDir (bucketDir b) k))).run.run (engineExec env) w =
      (if w.tree.IsDir (refusedDir env.fits b k) then .error ErrorKind.invalidFilename.os
        else .ok none, w) := by
    rw [loadManifest, Prog.run_bind_lift (read_run _), hread]
    by_cases href : w.tree.IsDir (refusedDir env.fits b k)
    · rw [if_pos href, if_pos href]
      rfl
    · rw [if_neg href, if_neg href]
      rfl
  rw [liveVersion]
  split at hload
  · rw [Prog.run_bind_error (liftIo_run hload), if_pos ‹_›]
    rfl
  · rw [Prog.run_bind_ok (liftIo_run hload), if_neg ‹_›]
    rfl

/-- **A `GET` is refused only where the directories before the refused component are.** -/
theorem getObject_refused (hs : Shaped env.fits w.tree) (hd : w.tree.IsDir (bucketDir b))
    (range : Option ByteRange) :
    ∃ w', runAlone env (serve C (.getObject b k range)) w =
      (.error (if w.tree.IsDir (refusedDir env.fits b k) then .keyTooLong else .noSuchKey), w') ∧
        w.Ticked w' := by
  obtain ⟨w', hrun, ht⟩ := existingBucketDir_run hs hv (hown.bucket_fit hv)
  have htree : w'.tree = w.tree := by rw [World.tree, ht.fs]
  have hlive := liveVersion_refused (C := C) hown hv hk (htree ▸ hs)
  rw [if_pos hd] at hrun
  rw [htree] at hlive
  refine ⟨w', ?_, ht⟩
  rw [runAlone, serve, getObject, bind_assoc, Prog.run_bind_ok hrun]
  simp only [bind_assoc]
  exact Prog.run_bind_error hlive

theorem headObject_refused (hs : Shaped env.fits w.tree) (hd : w.tree.IsDir (bucketDir b)) :
    ∃ w', runAlone env (serve C (.headObject b k)) w =
      (.error (if w.tree.IsDir (refusedDir env.fits b k) then .keyTooLong else .noSuchKey), w') ∧
        w.Ticked w' := by
  obtain ⟨w', hrun, ht⟩ := existingBucketDir_run hs hv (hown.bucket_fit hv)
  have htree : w'.tree = w.tree := by rw [World.tree, ht.fs]
  have hlive := liveVersion_refused (C := C) hown hv hk (htree ▸ hs)
  rw [if_pos hd] at hrun
  rw [htree] at hlive
  refine ⟨w', ?_, ht⟩
  rw [runAlone, serve, headObject, bind_assoc, Prog.run_bind_ok hrun]
  simp only [bind_assoc]
  exact Prog.run_bind_error hlive

/-! ## Deleting -/

/-- Removing a file of the key. -/
theorem removeIfPresent_refused (hs : Shaped env.fits w.tree) (n : OsName) :
    (removeIfPresent (n :: objectDir (bucketDir b) k)).run.run (engineExec env) w =
      (if w.tree.IsDir (refusedDir env.fits b k) then .error ErrorKind.invalidFilename.os
        else .ok (), w) := by
  have hno : ¬ Fit env.fits (n :: (Place.object b k).path) := fun h => not_fit_object hk h.tail
  have hun : w.fs.unlink env.fits (n :: objectDir (bucketDir b) k) =
      (.error (w.tree.refusal env.fits (n :: (Place.object b k).path)), w.fs) :=
    Fs.unlink_refused hno (hs.clear (.object b k) rfl)
  rw [FileTree.refusal, fitting_cons hno, refusedDir_eq (hown.objects_fit hv)] at hun
  have hcall : (TokioFs.removeFile (n :: objectDir (bucketDir b) k)).run.run (engineExec env) w =
      w.withFs (w.fs.unlink env.fits (n :: objectDir (bucketDir b) k)) := rfl
  rw [hun, World.withFs_error] at hcall
  rw [removeIfPresent, Prog.run_bind_lift hcall]
  by_cases href : w.tree.IsDir (refusedDir env.fits b k)
  · rw [if_pos href, if_pos href]
    rfl
  · rw [if_neg href, if_neg href]
    rfl

omit hown hv in
/-- There is nothing to prune where the key's own directory cannot be. -/
theorem prune_refused (hs : Shaped env.fits w.tree) :
    (pruneEmptyDirs (objectsDir (bucketDir b)) (objectDir (bucketDir b) k)).run
      (engineExec env) w = ((), w) := by
  have hno := not_fit_object (b := b) hk
  cases hp : objectDir (bucketDir b) k with
  | nil => rfl
  | cons n p =>
      have hnd : ¬ w.tree.IsDir (n :: p) := fun hd =>
        hno (hp ▸ hs.fit_of_isDir hd : Fit env.fits (objectDir (bucketDir b) k))
      rw [pruneEmptyDirs]
      split
      · have hcall : (await (.removeDir (n :: p))).run (engineExec env) w =
            w.withFs (w.fs.rmdir env.fits (n :: p)) := rfl
        rw [Prog.run_bind, hcall]
        rcases Fs.rmdir_cases env.fits w.fs (n :: p) with ⟨m, q, i, j, h, -, -, hd, -⟩ | ⟨e, he⟩
        · exact absurd ⟨j, hd⟩ hnd
        · rw [he, World.withFs_error]
          rfl
      · rfl

/-- **A `DELETE` is refused only there too, and otherwise succeeds; nothing changes.** -/
theorem deleteObject_refused (hs : Shaped env.fits w.tree) (hd : w.tree.IsDir (bucketDir b)) :
    ∃ w', runAlone env (serve C (.deleteObject b k)) w =
      (if w.tree.IsDir (refusedDir env.fits b k) then .error .keyTooLong else .ok .unit, w') ∧
        w'.tree = w.tree := by
  obtain ⟨w₁, hrun₁, ht₁⟩ := existingBucketDir_run hs hv (hown.bucket_fit hv)
  rw [if_pos hd] at hrun₁
  have htree₁ : w₁.tree = w.tree := by rw [World.tree, ht₁.fs]
  have hs₁ : Shaped env.fits w₁.tree := htree₁ ▸ hs
  have hmeta := removeIfPresent_refused hown hv hk hs₁ (utf8 META_FILE)
  have hdata := removeIfPresent_refused hown hv hk hs₁ (utf8 (dataFileName NULL_VERSION_ID))
  rw [htree₁] at hmeta hdata
  by_cases href : w.tree.IsDir (refusedDir env.fits b k)
  · rw [if_pos href] at hmeta
    have hbody : (deleteLocked (bucketDir b) k).run.run (engineExec env) w₁ =
        (.error .keyTooLong, w₁) := by
      rw [deleteLocked]
      exact Prog.run_bind_error (liftIo_run hmeta)
    refine ⟨w₁, ?_, htree₁⟩
    rw [if_pos href]
    exact deleteObject_of_locked hrun₁ hbody
  · rw [if_neg href] at hmeta hdata
    have hstop : (Place.objects b).path <:+ (Place.object b k).path := List.suffix_append _ _
    obtain ⟨r, w₂, hrun₂, ht₂, hr⟩ := deepestExisting_run hstop hs₁
    have htree₂ : w₂.tree = w₁.tree := by rw [World.tree, ht₂.fs]
    obtain ⟨w₃, hrun₃, htree₃, -⟩ := syncDeepest_run (w := w₂) (htree₂ ▸ hs₁) (r := r)
      fun q hq => by
        subst hq
        obtain ⟨hq, -, hne, -⟩ := hr
        rw [htree₂]
        by_contra hnd
        rcases Place.suffix_path (.object b k) rfl hq with rfl | ⟨up, hup, rfl⟩
        · exact hnd ⟨0, rfl⟩
        · exact hne (hs₁.find_none_of_dir up hup hnd)
    have hbody : (deleteLocked (bucketDir b) k).run.run (engineExec env) w₁ = (.ok (), w₃) := by
      simp only [Place.path] at hrun₂
      change (removeIfPresent (metaPath (objectDir (bucketDir b) k))).run.run _ _ = _ at hmeta
      change (removeIfPresent
        (dataPath (objectDir (bucketDir b) k) NULL_VERSION_ID)).run.run _ _ = _ at hdata
      rw [deleteLocked]
      dsimp only
      rw [Prog.run_bind_ok (liftIo_run hmeta), Prog.run_bind_ok (liftIo_run hdata),
        Prog.run_bind_lift (prune_refused hk hs₁), Prog.run_bind_lift hrun₂]
      exact hrun₃
    refine ⟨w₃, ?_, htree₃.trans (htree₂.trans htree₁)⟩
    rw [if_neg href]
    exact deleteObject_of_locked hrun₁ hbody

/-! ## Uploading -/

omit hown hv in
/-- `create_dir_all` of the key's directory makes what is before the refused component. -/
theorem mkdirs_refused (hs : Shaped env.fits w.tree) (hf : Fit env.fits (Place.objects b).path) :
    ∃ w', (TokioFs.createDirAll (Place.object b k).path).run.run (engineExec env) w =
        (.error ErrorKind.invalidFilename.os, w') ∧
      (∀ q, w'.tree.fileAt q = w.tree.fileAt q) ∧
      ∀ q, w'.tree.IsDir q ↔ w.tree.IsDir q ∨ q <:+ refusedDir env.fits b k := by
  obtain ⟨w', hrun, hmade, -⟩ := StdFs.createDirAll_refused (L := LockName) (w := w)
    (not_fit_object hk) (hs.clear (.object b k) rfl)
  refine ⟨w', hrun, hmade.fileAt, fun q => ?_⟩
  rw [World.tree, hmade.isDir, FileTree.mem_missing, refusedDir_eq hf]
  tauto

/-- A commit to a file of the key gives the staged file up. -/
theorem commit_refused (hs : Shaped env.fits w.tree) {n m : OsName} {d : Bytes}
    (hp : w.tree.fileAt (n :: tmpDir) = some d) :
    ∃ w', ((⟨n :: tmpDir⟩ : StagedFile).commit (m :: (Place.object b k).path)).run.run
        (engineExec env) w = (.error ErrorKind.invalidFilename.os, w') ∧
      (∀ q, w'.tree.fileAt q = if q = n :: tmpDir then none else w.tree.fileAt q) ∧
      ∀ q, w'.tree.IsDir q ↔ w.tree.IsDir q ∨ q <:+ refusedDir env.fits b k := by
  have hsrc := hs.fit_of_fileAt hp
  obtain ⟨w₁, hrun₁, htree₁, -, -⟩ := syncAll_run hsrc hp
  obtain ⟨w₂, hrun₂, ht₂⟩ := dirsToSync_run (Place.object b k).path (w := w₁) (htree₁ ▸ hs)
  have htree₂ : w₂.tree = w.tree := by rw [World.tree, ht₂.fs, ← htree₁]
  obtain ⟨w₃, hrun₃, hfile₃, hdir₃⟩ := mkdirs_refused hk (w := w₂) (htree₂ ▸ hs)
    (hown.objects_fit hv)
  rw [htree₂] at hfile₃ hdir₃
  obtain ⟨w₄, hrun₄, hw₄⟩ := drop_run (⟨n :: tmpDir⟩ : StagedFile) (w := w₃) hsrc
    ((hfile₃ _).trans hp)
  refine ⟨w₄, ?_, fun q => by rw [hw₄.file, hfile₃], fun q => by rw [hw₄.dir, hdir₃]⟩
  have hpub : ((⟨n :: tmpDir⟩ : StagedFile).publish (m :: (Place.object b k).path)).run.run
      (engineExec env) w = (.error ErrorKind.invalidFilename.os, w₃) := by
    rw [StagedFile.publish, Prog.run_bind_ok hrun₁]
    dsimp only [parentDir, List.tail_cons]
    rw [Prog.run_bind_lift hrun₂, Prog.run_bind_error hrun₃]
  rw [StagedFile.commit, Prog.run_mk, Prog.run_bind, hpub]
  simp only [Prog.run_bind, hrun₄]
  rfl

/-- **A `PUT` whose body arrives is always refused, and leaves the directories before the
refused component.** -/
theorem putObject_refused (hr : Ready env.fits w.tree) (hd : w.tree.IsDir (bucketDir b))
    {body : ByteStream} {bytes : Bytes} (hb : collect body = .ok bytes) (opts : PutOpts) :
    ∃ w', runAlone env (serve C (.putObject b k body opts)) w = (.error .keyTooLong, w') ∧
      (∀ q, w'.tree.fileAt q = w.tree.fileAt q) ∧
      ∀ q, w'.tree.IsDir q ↔ w.tree.IsDir q ∨ q <:+ refusedDir env.fits b k := by
  obtain ⟨n, w₁, w₂, w₃, d, hrun₁, hrun₂, hrun₃, hn, hw₃, -⟩ :=
    stage_run hown hr hv hd body opts
  rw [hb] at hrun₃
  have hs₃ : Shaped env.fits w₃.tree := Wrote.shaped (.staged n) hw₃ rfl hn hr.shaped
  obtain ⟨w₄, hrun₄, ht₄⟩ := existingBucketDir_run (b := b) hs₃ hv (hown.bucket_fit hv)
  rw [if_pos ((hw₃.dir _).mpr hd)] at hrun₄
  have htree₄ : w₄.tree = w₃.tree := by rw [World.tree, ht₄.fs]
  obtain ⟨w₅, hrun₅, hfile₅, hdir₅⟩ := commit_refused hown hv hk (w := w₄) (n := n)
    (m := utf8 (dataFileName NULL_VERSION_ID)) (htree₄ ▸ hs₃)
    (by rw [htree₄, hw₃.file, if_pos rfl])
  refine ⟨w₅, ?_, fun q => ?_, fun q => by rw [hdir₅, htree₄, hw₃.dir]⟩
  · have hnow : (prim .now : EngineProg Nat).run (engineExec env) w₃ = (w₃.clock, w₃) := rfl
    have hpub : ∀ e, (publishObject C ⟨n :: tmpDir⟩ (objectDir (bucketDir b) k) e).run.run
        (engineExec env) w₄ = (.error ErrorKind.invalidFilename.os, w₅) := fun e =>
      Prog.run_bind_error hrun₅
    have hlocked : ∀ e, (withLock (.bucket b) .shared (withLock (.key b k) .exclusive
        (putLocked C b ⟨n :: tmpDir⟩ (objectDir (bucketDir b) k) e))).run (engineExec env) w₃ =
        (.inr (.error .keyTooLong), w₅) := by
      intro e
      rw [withLock_run, withLock_run, putLocked, Prog.run_bind, hrun₄]
      dsimp only
      rw [Prog.run_map, liftIo_run (hpub e)]
      rfl
    rw [runAlone, serve, putObject, bind_assoc, Prog.run_bind_ok hrun₁, bind_assoc,
      Prog.run_bind_ok hrun₂, bind_assoc, Prog.run_bind_lift hrun₃]
    dsimp only [Except.map]
    rw [bind_assoc]
    refine (Prog.run_bind_lift hnow).trans ?_
    rw [bind_assoc, Prog.run_bind_lift (hlocked _)]
    rfl
  · rw [hfile₅, htree₄, hw₃.file]
    by_cases hq : q = n :: tmpDir
    · rw [if_pos hq, hq, hr.empty]
    · rw [if_neg hq, if_neg hq]

end Requests

/-! ## The trees of a store, with what uploads have left -/

section Trees

variable {fits : OsName → Bool} {t t' : FileTree OsName}

theorem Rep.mono {Y : Set (Path OsName)} (h : Rep C fits X S t) (hXY : X ⊆ Y) :
    Rep C fits Y S t :=
  { h with
    tight := fun b k hd => (h.tight b k hd).imp_left fun ⟨q, hq, hs⟩ => ⟨q, hXY hq, hs⟩ }

theorem Ready.leave (h : Ready env.fits t) (hf : Fit env.fits (Place.objects b).path)
    (hfile : ∀ q, t'.fileAt q = t.fileAt q)
    (hdir : ∀ q, t'.IsDir q ↔ t.IsDir q ∨ q <:+ refusedDir env.fits b k) : Ready env.fits t' :=
  h.of_view (fun q hq => .inl (hfile q ▸ hq))
    (fun q hq => ((hdir q).mp hq).imp_right (refusedDir_places hf))
    ((hdir _).mpr (.inl h.tmp)) ((hdir _).mpr (.inl h.buckets))

/-- The tree after an upload was refused. -/
theorem Rep.leave (h : Rep C env.fits X S t) (hf : Fit env.fits (Place.objects b).path)
    (hb : b ∈ S) (hfile : ∀ q, t'.fileAt q = t.fileAt q)
    (hdir : ∀ q, t'.IsDir q ↔ t.IsDir q ∨ q <:+ refusedDir env.fits b k) :
    Rep C env.fits (insert (refusedDir env.fits b k) X) S t' where
  toReady := h.toReady.leave hf hfile hdir
  valid := h.valid
  bucket := by
    intro b'
    rw [hdir, h.bucket, or_iff_left_iff_imp]
    intro hs
    obtain rfl : b' = b := by simpa using Place.suffix_object (hs.trans (refusedDir_suffix _ b k))
    exact hb
  created := fun b' B hB => (hfile _).trans (h.created b' B hB)
  manifest := fun b' k' => (hfile _).trans (h.manifest b' k')
  data := fun b' k' => (hfile _).trans (h.data b' k')
  tight := by
    intro b' k' hd
    rcases (hdir _).mp hd with hd | hs
    · exact (h.tight b' k' hd).imp_left fun ⟨q, hq, hs⟩ => ⟨q, .inr hq, hs⟩
    · exact .inl ⟨_, .inl rfl, hs⟩
  format := (hfile _).trans h.format

/-- The object tree's own directory is not one that is left over. -/
theorem Rep.discard (h : Rep C fits (insert (Place.objects b).path X) S t) : Rep C fits X S t :=
  { h with
    tight := by
      intro b' k' hd
      refine (h.tight b' k' hd).imp_left fun ⟨q, hq, hs⟩ => ⟨q, hq.resolve_left ?_, hs⟩
      rintro rfl
      have := hs.length_le
      have := List.length_pos_iff.mpr (keyToRelPath_ne_nil k')
      simp only [Place.path, objectDir, objectsDir, bucketDir, bucketsDir, List.length_append,
        List.length_cons, List.length_nil] at *
      omega }

end Trees

/-- A request changes the objects as the store does, or not at all. -/
def Follows (C : Crates) (now : Nat) (r : Req) (S S' : Store) : Prop :=
  S' = (S.apply C now r).2 ∨ ∀ b k, S'.object b k = S.object b k

/-- A request that the store answers leaves a tree of the store. -/
theorem Answered.rep {r : Req} (h : Answered env C X S w r) :
    ∃ S', Follows C w.clock r S S' ∧ Rep C env.fits X S' (runAlone env (serve C r) w).2.tree := by
  obtain ⟨w', hrun, hrep, -⟩ := h
  exact ⟨_, .inl rfl, by rwa [hrun]⟩

/-- The upload of a key that is refused: the body arrives, and the bucket is there. -/
structure Refused (fits : OsName → Bool) (t : FileTree OsName) (b k : String)
    (body : ByteStream) : Prop where
  valid : isValidBucketName b = true
  dir : t.IsDir (bucketDir b)
  key : ¬ Fit fits (keyToRelPath k)
  body : ∃ bytes, collect body = .ok bytes

/-- A request about a key that is refused changes no file, and no directory unless it is
an upload. -/
theorem serve_refused (hown : OwnNames env) (h : Rep C env.fits X S w.tree) {r : Req}
    (hr : r.key = some k) (hk : ¬ Fit env.fits (keyToRelPath k)) :
    (∃ S', Follows C w.clock r S S' ∧
      Rep C env.fits X S' (runAlone env (serve C r) w).2.tree) ∨
      ∃ b body opts, r = .putObject b k body opts ∧ Refused env.fits w.tree b k body := by
  have hticked : ∀ {resp w'}, runAlone env (serve C r) w = (resp, w') → w'.tree = w.tree →
      ∃ S', Follows C w.clock r S S' ∧
        Rep C env.fits X S' (runAlone env (serve C r) w).2.tree := by
    intro resp w' hrun htree
    exact ⟨S, .inr fun _ _ => rfl, by rw [hrun, htree]; exact h⟩
  cases r with
  | putObject b k' body opts =>
      obtain rfl := Option.some.inj hr
      by_cases hb : isValidBucketName b = true ∧ b ∈ S
      swap
      · exact .inl (Answered.rep (answered_refused hown h rfl rfl hb))
      have hd := (h.bucket b).mpr hb.2
      cases hc : collect body with
      | error e =>
          obtain ⟨w', hrun, hfile, hdir, -⟩ :=
            putObject_broken (C := C) (k := k') hown h.toReady hb.1 hd hc opts
          exact .inl ⟨S, .inr fun _ _ => rfl, by rw [hrun]; exact h.of_same hfile hdir⟩
      | ok bytes => exact .inr ⟨b, body, opts, rfl, hb.1, hd, hk, bytes, hc⟩
  | getObject b k' range =>
      obtain rfl := Option.some.inj hr
      refine .inl ?_
      by_cases hb : isValidBucketName b = true ∧ b ∈ S
      swap
      · exact Answered.rep (answered_refused hown h rfl rfl hb)
      obtain ⟨w', hrun, ht⟩ :=
        getObject_refused (C := C) hown hb.1 hk h.shaped ((h.bucket b).mpr hb.2) range
      exact hticked hrun (by rw [World.tree, ht.fs])
  | headObject b k' =>
      obtain rfl := Option.some.inj hr
      refine .inl ?_
      by_cases hb : isValidBucketName b = true ∧ b ∈ S
      swap
      · exact Answered.rep (answered_refused hown h rfl rfl hb)
      obtain ⟨w', hrun, ht⟩ :=
        headObject_refused (C := C) hown hb.1 hk h.shaped ((h.bucket b).mpr hb.2)
      exact hticked hrun (by rw [World.tree, ht.fs])
  | deleteObject b k' =>
      obtain rfl := Option.some.inj hr
      refine .inl ?_
      by_cases hb : isValidBucketName b = true ∧ b ∈ S
      swap
      · exact Answered.rep (answered_refused hown h rfl rfl hb)
      obtain ⟨w', hrun, htree⟩ :=
        deleteObject_refused (C := C) hown hb.1 hk h.shaped ((h.bucket b).mpr hb.2)
      exact hticked hrun htree
  | _ => cases hr

end Aks3.Engine
