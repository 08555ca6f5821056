import Aks3.Engine.Writes

/-!
# The methods that write, run alone

What every method that writes answers, what it does to the files and directories
of the layout, and what it leaves unsettled on disk, when nothing else runs and
the filesystem accepts every name. Afterwards nothing is staged any more.
-/

set_option autoImplicit false

namespace Aks3.Engine

open Lib

/-! ## What a body is stored as -/

/-- The version a body is stored as. -/
def bodyEntry (C : Crates) (opts : PutOpts) (bytes : Bytes) (now : Nat) : VersionEntry where
  versionId := NULL_VERSION_ID
  etag := hexLower (C.md5 bytes)
  size := bytes.length
  contentType := (opts.contentType.filter (· ≠ "")).getD DEFAULT_CONTENT_TYPE
  userMetadata := opts.userMetadata
  mtimeEpochMs := now
  deleteMarker := false
  checksum := opts.checksumAlgorithm.map fun a => a.of C.toHashes bytes

namespace Digest

theorem update_append (d : Digest) (x y : Bytes) : d.update (x ++ y) = (d.update x).update y := by
  simp only [update, List.append_assoc, List.length_append, Nat.add_assoc, Option.map_map,
    Function.comp_def, Checksummer.update_append]

theorem update_nil (d : Digest) : d.update [] = d := by
  cases hc : d.checksummer <;> cases d <;> simp_all [update, Checksummer.update_nil]

end Digest

/-- However a body is cut into chunks, its version is that of the whole body. -/
theorem newEntry_update (C : Crates) (opts : PutOpts) (bytes : Bytes) (now : Nat) :
    newEntry C opts ((Digest.new opts).update bytes) now = bodyEntry C opts bytes now := by
  cases ha : opts.checksumAlgorithm <;>
    simp [newEntry, bodyEntry, Digest.new, Digest.update, ha, ChecksumAlgorithm.of]

/-! ## A data directory between two requests -/

/-- The layout is there and nothing is staged. -/
structure Ready (fits : OsName → Bool) (t : FileTree OsName) : Prop where
  shaped : Shaped fits t
  tmp : t.IsDir tmpDir
  buckets : t.IsDir bucketsDir
  empty : ∀ n, t.fileAt (n :: tmpDir) = none

variable {env : Env OsName} {C : Crates} {w : World OsName} {b k : String}

/-! ## Putting an object -/

/-- Streaming a body into a staged file. -/
theorem stageBody_run {p : Path OsName} (hf : Fit env.fits p) :
    ∀ (body : ByteStream) (dg : Digest) {w : World OsName}
    {d : Bytes}, w.tree.fileAt p = some d →
    ∃ w' d', (stageBody ⟨p⟩ dg body).run.run (engineExec env) w =
        ((collect body).map dg.update, w') ∧
      Wrote w w' p (some d') ∅ {p} ∧ ∀ bytes, collect body = .ok bytes → d' = d ++ bytes
  | [], dg, w, d, hp => by
      refine ⟨w, d, ?_, ⟨fun q => ?_, fun q => Iff.rfl, ?_⟩, fun bytes hb => ?_⟩
      · rw [collect, Except.map, Digest.update_nil]
        rfl
      · split
        · rename_i hq
          rw [hq, hp]
        · rfl
      · exact (World.Keeps.refl w).mono (Set.empty_subset _) (Set.empty_subset _)
      · cases hb
        rw [List.append_nil]
  | .error e :: body, dg, w, d, hp => by
      refine ⟨w, d, rfl, ⟨fun q => ?_, fun q => Iff.rfl, ?_⟩, fun bytes hb => ?_⟩
      · split
        · rename_i hq
          rw [hq, hp]
        · rfl
      · exact (World.Keeps.refl w).mono (Set.empty_subset _) (Set.empty_subset _)
      · cases hb
  | .ok chunk :: body, dg, w, d, hp => by
      obtain ⟨w₁, hrun₁, hw₁⟩ := writeAll_run hf hp chunk
      obtain ⟨w₂, d₂, hrun₂, hw₂, hd₂⟩ := stageBody_run hf body (dg.update chunk) (w := w₁)
        (by rw [hw₁.file, if_pos rfl])
      refine ⟨w₂, d₂, ?_, ⟨fun q => ?_, fun q => ?_, ?_⟩, fun bytes hb => ?_⟩
      · have hrecv : (prim .recv : EngineProg Unit).run (engineExec env) w = ((), w) := rfl
        rw [stageBody]
        refine (Prog.run_bind_lift hrecv).trans ?_
        dsimp only
        rw [Prog.run_bind_ok hrun₁, hrun₂, collect]
        cases collect body with
        | error e => rfl
        | ok bytes => simp only [Except.map, Digest.update_append]
      · rw [hw₂.file, hw₁.file]
        split <;> rfl
      · rw [hw₂.dir, hw₁.dir]
      · exact (hw₁.keeps.trans hw₂.keeps).mono (by simp) (by simp)
      · rw [collect] at hb
        cases hc : collect body with
        | error e => simp [hc, Except.map] at hb
        | ok rest =>
            simp only [hc, Except.map, Except.ok.injEq] at hb
            rw [hd₂ rest hc, List.append_assoc, ← hb]

theorem manifestAt_congr {t t' : FileTree OsName}
    (h : t'.fileAt (Place.manifest b k).path = t.fileAt (Place.manifest b k).path) :
    manifestAt C t' b k = manifestAt C t b k := by
  rw [manifestAt, h, manifestAt]

/-- The two renames of a `PUT`. -/
theorem publishObject_run (hown : OwnNames env) (hst : Storable env.fits b k)
    (hs : Shaped env.fits w.tree) (ht : w.tree.IsDir tmpDir) {n : OsName} {bytes : Bytes}
    (hp : w.tree.fileAt (n :: tmpDir) = some bytes)
    (hempty : ∀ m, m ≠ n → w.tree.fileAt (m :: tmpDir) = none) {m : Option VersionManifest}
    (hm : manifestAt C w.tree b k = .ok m) (e : VersionEntry) :
    ∃ w', (publishObject C ⟨n :: tmpDir⟩ (objectDir (bucketDir b) k) e).run.run
        (engineExec env) w = (.ok (), w') ∧
      (∀ q, w'.tree.fileAt q =
        if q = (Place.manifest b k).path then
          some (C.manifestJson.toVec ((m.getD newManifest).upsert e))
        else if q = (Place.data b k).path then some bytes
        else if q = n :: tmpDir then none else w.tree.fileAt q) ∧
      (∀ q, w'.tree.IsDir q ↔ w.tree.IsDir q ∨ q <:+ (Place.object b k).path) ∧
      w.Keeps w' {tmpDir} ∅ := by
  obtain ⟨w₁, hrun₁, hfile₁, hdir₁, hk₁, -⟩ := commit_run hs (.data b k) rfl hst.data hp
  have hs₁ : Shaped env.fits w₁.tree := hs.of_commit (.data b k) rfl hst.data
    (fun q hp hq => by
      rw [hfile₁, if_neg hp] at hq
      split at hq
      · exact absurd rfl hq
      · exact hq)
    fun q hq => (hdir₁ q).mp hq
  have hman₁ : w₁.tree.fileAt (Place.manifest b k).path = w.tree.fileAt
      (Place.manifest b k).path := by
    rw [hfile₁, if_neg (by simp), if_neg (by simp)]
  have hload := loadManifest_run (C := C) hs₁ hst.manifest
  rw [manifestAt_congr hman₁, hm] at hload
  obtain ⟨w₂, hrun₂, hsto⟩ := writeJsonAtomic_run hown (w := w₁) ((hdir₁ _).mpr (.inl ht)) hs₁
    (fun l => by
      rw [hfile₁, if_neg (by simp)]
      split
      · rfl
      · rename_i h
        exact hempty l fun he => h (by rw [he]))
    (.manifest b k) rfl hst.manifest (by simp)
    (C.manifestJson.toVec ((m.getD newManifest).upsert e))
  refine ⟨w₂, ?_, fun q => ?_, fun q => ?_, ?_⟩
  · have hcommit : ((⟨n :: tmpDir⟩ : StagedFile).commit
        (dataPath (objectDir (bucketDir b) k) NULL_VERSION_ID)).run.run (engineExec env) w =
        (.ok (), w₁) := hrun₁
    rw [publishObject, Prog.run_bind_ok hcommit, Prog.run_bind_ok hload]
    exact hrun₂
  · rw [hsto.file, hfile₁]
  · rw [hsto.dir, hdir₁, or_assoc]
    exact or_congr_right (or_self_iff)
  · exact (hk₁.trans hsto.keeps).mono (by simp) (by simp)

/-- A method that needs its bucket, without one. -/
theorem refused_run {α : Type} (hown : OwnNames env) (hs : Shaped env.fits w.tree)
    (h : ¬ (isValidBucketName b = true ∧ w.tree.IsDir (bucketDir b)))
    (f : Path OsName → EngineM α) :
    ∃ w', (existingBucketDir b >>= f).run.run (engineExec env) w =
      (.error (if isValidBucketName b = true then .noSuchBucket else .invalidBucketName), w') ∧
        w.Ticked w' := by
  by_cases hv : isValidBucketName b = true
  · obtain ⟨w', hrun, ht⟩ := existingBucketDir_run hs hv (hown.bucket_fit hv)
    rw [if_neg fun hd => h ⟨hv, hd⟩] at hrun
    rw [if_pos hv]
    exact ⟨w', Prog.run_bind_error hrun, ht⟩
  · have hcheck : (checkedBucketDir b).run.run (engineExec env) w = _ :=
      checkedBucketDir_invalid (Bool.eq_false_iff.mpr hv)
    refine ⟨w, ?_, .refl w⟩
    rw [if_neg hv, existingBucketDir, bind_assoc, Prog.run_bind_error hcheck]

theorem noBucket_run {α : Type} (hown : OwnNames env) (hs : Shaped env.fits w.tree) {r : Req}
    {g : Path OsName → EngineM α} {out : α → Answer}
    (hr : serve C r = (do pure (out (← existingBucketDir b >>= g)) : EngineM Answer).run)
    (h : ¬ (isValidBucketName b = true ∧ w.tree.IsDir (bucketDir b))) :
    ∃ w', runAlone env (serve C r) w =
      (.error (if isValidBucketName b = true then .noSuchBucket else .invalidBucketName), w') ∧
        w.Ticked w' := by
  obtain ⟨w', hrun, ht⟩ := refused_run hown hs h g
  refine ⟨w', ?_, ht⟩
  rw [runAlone, hr]
  exact Prog.run_bind_error hrun

/-- A `PUT` up to the end of its body. -/
theorem stage_run (hown : OwnNames env) (hr : Ready env.fits w.tree)
    (hv : isValidBucketName b = true) (hd : w.tree.IsDir (bucketDir b))
    (body : ByteStream) (opts : PutOpts) :
    ∃ n w₁ w₂ w₃ d, (existingBucketDir b).run.run (engineExec env) w = (.ok (bucketDir b), w₁) ∧
      (liftIo (StagedFile.create tmpDir)).run.run (engineExec env) w₁ = (.ok ⟨n :: tmpDir⟩, w₂) ∧
      (stageBody ⟨n :: tmpDir⟩ (.new opts) body).run.run (engineExec env) w₂ =
        ((collect body).map (Digest.new opts).update, w₃) ∧
      Fit env.fits (n :: tmpDir) ∧ Wrote w w₃ (n :: tmpDir) (some d) {tmpDir} {n :: tmpDir} ∧
      ∀ bytes, collect body = .ok bytes → d = bytes := by
  obtain ⟨w₁, hrun₁, ht₁⟩ := existingBucketDir_run hr.shaped hv (hown.bucket_fit hv)
  rw [if_pos hd] at hrun₁
  have htree₁ : w₁.tree = w.tree := by rw [World.tree, ht₁.fs]
  obtain ⟨n, w₂, hrun₂, hn, hw₂⟩ := create_run hown (w := w₁) (htree₁ ▸ hr.tmp)
    (htree₁ ▸ hr.shaped) (htree₁ ▸ hr.empty)
  obtain ⟨w₃, d, hrun₃, hw₃, hd₃⟩ := stageBody_run hn body (.new opts) (w := w₂)
    (by rw [hw₂.file, if_pos rfl])
  refine ⟨n, w₁, w₂, w₃, d, hrun₁, liftIo_run hrun₂, hrun₃, hn, ⟨fun q => ?_, fun q => ?_, ?_⟩,
    hd₃⟩
  · rw [hw₃.file, hw₂.file, htree₁]
    split <;> rfl
  · rw [hw₃.dir, hw₂.dir, htree₁]
  · exact ((ht₁.keeps.trans hw₂.keeps).trans hw₃.keeps).mono (by simp) (by simp)

/-- A `PUT` whose body breaks off leaves everything as it was. -/
theorem putObject_broken (hown : OwnNames env) (hr : Ready env.fits w.tree)
    (hv : isValidBucketName b = true) (hd : w.tree.IsDir (bucketDir b))
    {body : ByteStream} {x : IoError}
    (hx : collect body = .error x) (opts : PutOpts) :
    ∃ w', runAlone env (serve C (.putObject b k body opts)) w = (.error (.ofIo x), w') ∧
      (∀ q, w'.tree.fileAt q = w.tree.fileAt q) ∧ (∀ q, w'.tree.IsDir q ↔ w.tree.IsDir q) ∧
      w.Keeps w' {tmpDir} ∅ := by
  obtain ⟨n, w₁, w₂, w₃, d, hrun₁, hrun₂, hrun₃, hn, hw₃, -⟩ := stage_run hown hr hv hd body opts
  obtain ⟨w₄, hrun₄, hw₄⟩ := drop_run ⟨n :: tmpDir⟩ (w := w₃) hn
    (by rw [hw₃.file, if_pos rfl])
  rw [hx] at hrun₃
  refine ⟨w₄, ?_, fun q => ?_, fun q => ?_, ?_⟩
  · rw [runAlone, serve, putObject, bind_assoc, Prog.run_bind_ok hrun₁, bind_assoc,
      Prog.run_bind_ok hrun₂, bind_assoc, Prog.run_bind_lift hrun₃]
    dsimp only [Except.map]
    rw [bind_assoc, Prog.run_bind_lift hrun₄]
    rfl
  · rw [hw₄.file, hw₃.file]
    split
    · rename_i hq
      rw [hq, hr.empty]
    · rfl
  · rw [hw₄.dir, hw₃.dir]
  · refine (hw₃.keeps.trans hw₄.keeps).discharge (fun _ q hq => .inl ?_) fun _ q hq => .inr ?_
    · simpa using hq
    · obtain rfl : q = n :: tmpDir := by simpa using hq
      exact Fs.synced_of_none ((hw₄.file _).trans (if_pos rfl))

/-- **A `PUT` stores its body and the version made of it.** -/
theorem putObject_run (hown : OwnNames env) (hst : Storable env.fits b k)
    (hr : Ready env.fits w.tree) (hv : isValidBucketName b = true) (hd : w.tree.IsDir (bucketDir b))
    {m : Option VersionManifest}
    (hm : manifestAt C w.tree b k = .ok m) {body : ByteStream} {bytes : Bytes}
    (hb : collect body = .ok bytes) (opts : PutOpts) :
    ∃ w', runAlone env (serve C (.putObject b k body opts)) w =
        (.ok (.info (objectInfo k (bodyEntry C opts bytes w.clock))), w') ∧
      (∀ q, w'.tree.fileAt q =
        if q = (Place.manifest b k).path then some (C.manifestJson.toVec
          ((m.getD newManifest).upsert (bodyEntry C opts bytes w.clock)))
        else if q = (Place.data b k).path then some bytes else w.tree.fileAt q) ∧
      (∀ q, w'.tree.IsDir q ↔ w.tree.IsDir q ∨ q <:+ (Place.object b k).path) ∧
      w.Keeps w' {tmpDir} ∅ := by
  obtain ⟨n, w₁, w₂, w₃, d, hrun₁, hrun₂, hrun₃, hn, hw₃, hd₃⟩ :=
    stage_run hown hr hv hd body opts
  obtain rfl := hd₃ bytes hb
  rw [hb] at hrun₃
  have hs₃ : Shaped env.fits w₃.tree := Wrote.shaped (.staged n) hw₃ rfl hn hr.shaped
  obtain ⟨w₄, hrun₄, ht₄⟩ := existingBucketDir_run (b := b) hs₃ hv hst.bucket
  rw [if_pos ((hw₃.dir _).mpr hd)] at hrun₄
  have htree₄ : w₄.tree = w₃.tree := by rw [World.tree, ht₄.fs]
  have hfile₄ : ∀ q, w₄.tree.fileAt q = if q = n :: tmpDir then some d else w.tree.fileAt q :=
    fun q => by rw [htree₄, hw₃.file]
  have hman₄ : manifestAt C w₄.tree b k = .ok m := by
    rw [manifestAt_congr (t := w.tree) (by rw [hfile₄, if_neg (by simp)]), hm]
  obtain ⟨w₅, hrun₅, hfile₅, hdir₅, hk₅⟩ := publishObject_run hown hst (w := w₄) (htree₄ ▸ hs₃)
    (by rw [htree₄, hw₃.dir]; exact hr.tmp) (by rw [hfile₄, if_pos rfl])
    (fun l hl => by rw [hfile₄, if_neg (by simpa using hl), hr.empty]) hman₄
    (bodyEntry C opts d w.clock)
  refine ⟨w₅, ?_, fun q => ?_, fun q => ?_, ?_⟩
  · have hnow : (prim .now : EngineProg Nat).run (engineExec env) w₃ = (w.clock, w₃) := by
      rw [← hw₃.keeps.clock]
      rfl
    have hlocked : (withLock (.bucket b) .shared (withLock (.key b k) .exclusive
        (putLocked C b ⟨n :: tmpDir⟩ (objectDir (bucketDir b) k) (bodyEntry C opts d w.clock)))).run
        (engineExec env) w₃ = (.inr (.ok ()), w₅) := by
      rw [withLock_run, withLock_run, putLocked, Prog.run_bind, hrun₄]
      dsimp only
      rw [Prog.run_map, liftIo_run hrun₅]
      rfl
    rw [runAlone, serve, putObject, bind_assoc, Prog.run_bind_ok hrun₁, bind_assoc,
      Prog.run_bind_ok hrun₂, bind_assoc, Prog.run_bind_lift hrun₃]
    dsimp only [Except.map]
    rw [bind_assoc]
    refine (Prog.run_bind_lift hnow).trans ?_
    rw [newEntry_update, bind_assoc, Prog.run_bind_lift hlocked]
    rfl
  · rw [hfile₅, hfile₄]
    by_cases hq : q = n :: tmpDir
    · subst hq
      simp [hr.empty]
    · simp only [if_neg hq]
  · rw [hdir₅, htree₄, hw₃.dir]
  · refine ((hw₃.keeps.trans ht₄.keeps).trans hk₅).discharge (fun _ q hq => .inl ?_)
      fun _ q hq => .inr ?_
    · simpa using hq
    · obtain rfl : q = n :: tmpDir := by simpa using hq
      refine Fs.synced_of_none ((hfile₅ _).trans ?_)
      rw [if_neg (by simp), if_neg (by simp), if_pos rfl]

/-! ## Deleting an object -/

theorem unlink_place (hs : Shaped env.fits w.tree) (pl : Place) (hk : pl.kind = .file)
    (hf : Fit env.fits pl.path) :
    (w.fs.unlink env.fits pl.path).1 = .ok () ∨
      w.fs.unlink env.fits pl.path = (.error .notFound, w.fs) ∧ w.tree.fileAt pl.path = none := by
  cases hfile : w.tree.fileAt pl.path with
  | none =>
      have hnone := hs.find_none_of_file pl hk hfile
      have hc := hs.clear_tail pl
      cases hp : pl.path with
      | nil => exact absurd hp pl.path_ne_nil
      | cons n p =>
          rw [hp] at hnone hc hf
          exact .inr ⟨Fs.unlink_missing hf hc hnone, rfl⟩
  | some d =>
      obtain ⟨i, hi⟩ := FileTree.fileAt_eq_some.mp hfile
      cases hp : pl.path with
      | nil => exact absurd hp pl.path_ne_nil
      | cons n p =>
          rw [hp] at hi hf
          obtain ⟨j, h, -, he⟩ := Fs.unlink_ok hf hi
          exact .inl (by rw [he])

theorem removeIfPresent_run (hs : Shaped env.fits w.tree) (pl : Place) (hk : pl.kind = .file)
    (hf : Fit env.fits pl.path) :
    ∃ w', (removeIfPresent pl.path).run.run (engineExec env) w = (.ok (), w') ∧
      Wrote w w' pl.path none {pl.path.tail} ∅ := by
  have hcall : (TokioFs.removeFile pl.path).run.run (engineExec env) w =
      w.withFs (w.fs.unlink env.fits pl.path) := rfl
  refine ⟨{ w with fs := (w.fs.unlink env.fits pl.path).2 }, ?_, fun q => ?_,
    Fs.isDir_unlink env.fits w.fs pl.path, ?_⟩
  · rw [removeIfPresent, Prog.run_bind_lift hcall]
    rcases unlink_place hs pl hk hf with hok | ⟨he, -⟩
    · rw [hok]
      rfl
    · rw [he]
      rfl
  · rw [World.tree, Fs.fileAt_unlink]
    rcases unlink_place hs pl hk hf with hok | ⟨he, hnone⟩
    · simp [hok]
    · rw [he]
      by_cases hq : q = pl.path <;> simp [hq, hnone]
  · exact ⟨fun hwf => (Fs.change_unlink env.fits w.fs _).wf hwf,
      fun hwf => Fs.kept_unlink hwf env.fits _, rfl⟩

/-- Pruning stops at the first directory that cannot be removed, or at `stop`: the
directories below that one are gone. -/
theorem prune_run {stop : Path OsName} : ∀ {p : Path OsName} {w : World OsName},
    stop <:+ p → Shaped env.fits w.tree →
    ∃ rest w', (pruneEmptyDirs stop p).run (engineExec env) w = ((), w') ∧
      rest <:+ p ∧ stop <:+ rest ∧ (∀ q, w'.tree.fileAt q = w.tree.fileAt q) ∧
      (∀ q, w'.tree.IsDir q ↔ w.tree.IsDir q ∧ ¬ (q <:+ p ∧ rest <:+ q ∧ q ≠ rest)) ∧
      (rest ≠ stop → w'.tree.IsDir rest → w'.tree.hasChild rest = true) ∧
      w.Keeps w' {rest} ∅
  | [], w, hstop, _ => by
      obtain rfl := List.suffix_nil.mp hstop
      refine ⟨[], w, rfl, List.suffix_rfl, List.suffix_rfl, fun _ => rfl, fun q => ?_, by simp, ?_⟩
      · refine (and_iff_left ?_).symm
        rintro ⟨h, -, hne⟩
        exact hne (List.suffix_nil.mp h)
      · exact (World.Keeps.refl w).mono (Set.empty_subset _) le_rfl
  | n :: p, w, hstop, hs => by
      have hstay : ∀ (r : Path OsName), r = n :: p → ∀ q : Path OsName,
          w.tree.IsDir q ↔ w.tree.IsDir q ∧ ¬ (q <:+ n :: p ∧ r <:+ q ∧ q ≠ r) := by
        rintro r rfl q
        refine (and_iff_left ?_).symm
        rintro ⟨h, h', hne⟩
        exact hne (h.eq_of_length_le h'.length_le)
      have hkeep : w.Keeps w {n :: p} ∅ := (World.Keeps.refl w).mono (Set.empty_subset _) le_rfl
      by_cases heq : n :: p = stop
      · refine ⟨n :: p, w, ?_, List.suffix_rfl, heq ▸ List.suffix_rfl, fun _ => rfl,
          hstay _ rfl, fun h => absurd heq h, hkeep⟩
        rw [pruneEmptyDirs, if_neg fun h => h.1 heq]
        rfl
      have hstop' : stop <:+ p := by
        rcases List.suffix_cons_iff.mp hstop with h | h
        · exact absurd h.symm heq
        · exact h
      rw [pruneEmptyDirs, if_pos ⟨heq, hstop⟩, Prog.run_bind]
      have hcall : (await (.removeDir (n :: p))).run (engineExec env) w =
          w.withFs (w.fs.rmdir env.fits (n :: p)) := rfl
      rw [hcall]
      cases hres : (w.fs.rmdir env.fits (n :: p)).1 with
      | error e =>
          -- the directory stays: it is not there, or not empty
          have hsame : w.fs.rmdir env.fits (n :: p) = (.error e, w.fs) := by
            rcases Fs.rmdir_cases env.fits w.fs (n :: p) with
              ⟨n', q, i, j, h, -, -, -, he⟩ | ⟨e', he⟩
            · rw [he] at hres
              cases hres
            · rw [he] at hres
              cases hres
              exact he
          refine ⟨n :: p, w, ?_, List.suffix_rfl, hstop, fun _ => rfl, hstay _ rfl,
            fun _ hd => ?_, hkeep⟩
          · rw [hsame]
            rfl
          · obtain ⟨i, -, hrm⟩ := Fs.rmdir_eq (hs.fit_of_isDir hd) hd
            rw [hsame] at hrm
            split at hrm
            · cases hrm
            · rename_i h
              exact Bool.eq_true_of_not_eq_false h
      | ok u =>
          have hdir₁ := Fs.isDir_rmdir env.fits w.fs (n :: p)
          have hfile₁ := Fs.fileAt_rmdir env.fits w.fs (n :: p)
          rw [hres] at hdir₁
          simp only [true_and] at hdir₁
          have hs₁ : Shaped env.fits (w.fs.rmdir env.fits (n :: p)).2.tree :=
            hs.of_subset (fun q hq => hfile₁ q ▸ hq) fun q hq => ((hdir₁ q).mp hq).1
          obtain ⟨rest, w', hrun, hrp, hsr, hfile, hdir, hchild, hk⟩ := prune_run (p := p)
            (w := { w with fs := (w.fs.rmdir env.fits (n :: p)).2 }) hstop' hs₁
          have hne : rest ≠ n :: p := by
            rintro rfl
            have := hrp.length_le
            rw [List.length_cons] at this
            omega
          refine ⟨rest, w', ?_, hrp.trans (List.suffix_cons n p), hsr,
            fun q => (hfile q).trans (hfile₁ q), fun q => ?_, hchild, ?_⟩
          · rw [World.withFs_of_ok hres]
            exact hrun
          · rw [hdir, World.tree, hdir₁, List.suffix_cons_iff]
            by_cases hq : q = n :: p
            · subst hq
              simp [hne.symm, hrp.trans (List.suffix_cons n p)]
            · simp [hq]
          · have hk₁ : w.Keeps { w with fs := (w.fs.rmdir env.fits (n :: p)).2 } {p} ∅ :=
              ⟨fun hwf => (Fs.change_rmdir env.fits w.fs _).wf hwf,
                fun hwf => Fs.kept_rmdir hwf env.fits (n :: p), rfl⟩
            refine (hk₁.trans hk).discharge (fun _ q hq => ?_) fun _ q hq => absurd hq (by simp)
            -- the parent of what was removed is `rest`, or is gone itself
            rcases hq with rfl | rfl
            · by_cases hpr : q = rest
              · exact .inl hpr
              · refine .inr (Fs.settled_of_not_isDir fun hd => ?_)
                exact ((hdir q).mp hd).2 ⟨List.suffix_rfl, hrp, hpr⟩
            · exact .inl rfl

/-- The deepest directory of a chain that is there, if any is. -/
theorem deepestExisting_run {stop : Path OsName} : ∀ {p : Path OsName} {w : World OsName},
    stop <:+ p → Shaped env.fits w.tree →
    ∃ r w', (deepestExisting stop p).run (engineExec env) w = (r, w') ∧ w.Ticked w' ∧
      match r with
      | some q => q <:+ p ∧ stop <:+ q ∧ w.tree.find q ≠ none ∧
          ∀ x, x <:+ p → q <:+ x → x ≠ q → w.tree.find x = none
      | none => ∀ x, x <:+ p → stop <:+ x → w.tree.find x = none
  | [], w, hstop, hs => by
      obtain ⟨w', hrun, ht⟩ := existsOr_run hs []
      refine ⟨some [], w', ?_, ht, List.suffix_rfl, hstop, by simp, fun x hx _ hne => ?_⟩
      · rw [deepestExisting, Prog.run_bind, hrun]
        rfl
      · exact absurd (List.suffix_nil.mp hx) hne
  | n :: p, w, hstop, hs => by
      obtain ⟨w₁, hrun, ht⟩ := existsOr_run hs (n :: p)
      rw [deepestExisting, Prog.run_bind, hrun]
      by_cases hp : w.tree.find (n :: p) = none
      swap
      · refine ⟨some (n :: p), w₁, ?_, ht, List.suffix_rfl, hstop, hp, fun x hx hx' hne => ?_⟩
        · simp only [hp, ne_eq, not_false_eq_true, decide_true, if_true]
          rfl
        · exact absurd (hx.eq_of_length_le hx'.length_le) hne
      simp only [hp, ne_eq, not_true_eq_false, decide_false, Bool.false_eq_true, if_false]
      by_cases heq : n :: p = stop
      · refine ⟨none, w₁, ?_, ht, fun x hx hx' => ?_⟩
        · rw [if_pos heq]
          rfl
        · rw [heq] at hx hp
          rw [hx.eq_of_length_le hx'.length_le, hp]
      have hstop' : stop <:+ p := by
        rcases List.suffix_cons_iff.mp hstop with h | h
        · exact absurd h.symm heq
        · exact h
      have htree : w₁.tree = w.tree := by rw [World.tree, ht.fs]
      obtain ⟨r, w', hrun', ht', hr⟩ := deepestExisting_run (w := w₁) hstop' (htree ▸ hs)
      refine ⟨r, w', ?_, ht.trans ht', ?_⟩
      · rw [if_neg heq, if_pos hstop']
        exact hrun'
      · cases r with
        | none =>
            intro x hx hx'
            rcases List.suffix_cons_iff.mp hx with rfl | hx
            · exact hp
            · rw [← htree]
              exact hr x hx hx'
        | some q =>
            obtain ⟨hqp, hsq, hq, hmax⟩ := hr
            rw [htree] at hq hmax
            refine ⟨hqp.trans (List.suffix_cons n p), hsq, hq, fun x hx hx' hne => ?_⟩
            rcases List.suffix_cons_iff.mp hx with rfl | hx
            · exact hp
            · exact hmax x hx hx' hne

/-- The `fsync` that ends a `DELETE`. -/
theorem syncDeepest_run (hs : Shaped env.fits w.tree) {r : Option (Path OsName)}
    (hr : ∀ q, r = some q → w.tree.IsDir q) :
    ∃ w', (match r with
        | none => pure ()
        | some deepest => do
          match ← ExceptT.lift (fsyncDir deepest).run with
          | .ok () => pure ()
          | .error e => if e.kind = .notFound then pure () else throw (.ofIo e) :
            EngineM Unit).run.run (engineExec env) w = (.ok (), w') ∧ w'.tree = w.tree ∧
      w.Keeps w' ∅ ∅ ∧ (w.fs.Wf → ∀ q, r = some q → w'.fs.Settled q) := by
  cases r with
  | none => exact ⟨w, rfl, rfl, .refl w, by simp⟩
  | some q =>
      obtain ⟨w', hrun, htree, hk, hset⟩ := fsyncDir_run hs (hr q rfl)
      refine ⟨w', ?_, htree, hk, fun hw x hx => Option.some.inj hx ▸ hset hw⟩
      simp only
      rw [Prog.run_bind_lift hrun]
      rfl

theorem deleteObject_of_locked {w₁ w₂ : World OsName} {r : Except EngineError Unit}
    (hrun : (existingBucketDir b).run.run (engineExec env) w = (.ok (bucketDir b), w₁))
    (hbody : (deleteLocked (bucketDir b) k).run.run (engineExec env) w₁ = (r, w₂)) :
    runAlone env (serve C (.deleteObject b k)) w = (r.map fun _ => .unit, w₂) := by
  have hlocked : (ExceptT.mk (withLock (.bucket b) .shared (withLock (.key b k) .exclusive
      (deleteLocked (bucketDir b) k).run)) : EngineM Unit).run.run (engineExec env) w₁ =
      (r, w₂) := by
    rw [Prog.run_mk, withLock_run, withLock_run, hbody]
  rw [runAlone, serve, deleteObject, bind_assoc, Prog.run_bind_ok hrun]
  cases r with
  | error e => rw [Prog.run_bind_error hlocked]; rfl
  | ok u => rw [Prog.run_bind_ok hlocked]; rfl

/-- What is left of a key's directories when the key is deleted: `rest` is the deepest. -/
structure Deleted (w w' : World OsName) (b k : String) (rest : Path OsName) : Prop where
  file : ∀ q, w'.tree.fileAt q =
    if q = (Place.manifest b k).path ∨ q = (Place.data b k).path then none else w.tree.fileAt q
  below : rest <:+ (Place.object b k).path
  above : (Place.objects b).path <:+ rest
  dir : ∀ q, w'.tree.IsDir q ↔
    w.tree.IsDir q ∧ ¬ (q <:+ (Place.object b k).path ∧ rest <:+ q ∧ q ≠ rest)
  child : rest ≠ (Place.objects b).path → w'.tree.IsDir rest → w'.tree.hasChild rest = true
  keeps : w.Keeps w' ∅ ∅

/-- **A `DELETE` removes the files of a key and the directories nothing else needs.** -/
theorem deleteObject_run (hst : Storable env.fits b k) (hs : Shaped env.fits w.tree)
    (hv : isValidBucketName b = true) (hd : w.tree.IsDir (bucketDir b)) :
    ∃ w' rest, runAlone env (serve C (.deleteObject b k)) w = (.ok .unit, w') ∧
      Deleted w w' b k rest := by
  obtain ⟨w₁, hrun₁, ht₁⟩ := existingBucketDir_run hs hv hst.bucket
  rw [if_pos hd] at hrun₁
  have htree₁ : w₁.tree = w.tree := by rw [World.tree, ht₁.fs]
  obtain ⟨w₂, hrun₂, hw₂⟩ := removeIfPresent_run (w := w₁) (htree₁ ▸ hs) (.manifest b k) rfl
    hst.manifest
  have hs₂ := Wrote.shaped (.manifest b k) hw₂ rfl hst.manifest (htree₁ ▸ hs)
  obtain ⟨w₃, hrun₃, hw₃⟩ := removeIfPresent_run hs₂ (.data b k) rfl hst.data
  have hs₃ := Wrote.shaped (.data b k) hw₃ rfl hst.data hs₂
  have hstop : (Place.objects b).path <:+ (Place.object b k).path := List.suffix_append _ _
  obtain ⟨rest, w₄, hrun₄, hbelow, habove, hfile₄, hdir₄, hchild₄, hk₄⟩ :=
    prune_run hstop hs₃
  have hs₄ : Shaped env.fits w₄.tree := hs₃.of_subset (fun q hq => hfile₄ q ▸ hq)
    fun q hq => ((hdir₄ q).mp hq).1
  obtain ⟨r, w₅, hrun₅, ht₅, hr⟩ := deepestExisting_run hstop hs₄
  have htree₅ : w₅.tree = w₄.tree := by rw [World.tree, ht₅.fs]
  have hisDir : ∀ q, q <:+ (Place.object b k).path → w₄.tree.find q ≠ none → w₄.tree.IsDir q := by
    intro q hq hne
    by_contra hnd
    exact hne (FileTree.find_eq_none.mpr ⟨by
      cases hf : w₄.tree.fileAt q with
      | none => rfl
      | some d =>
          obtain ⟨i, hi⟩ := FileTree.fileAt_eq_some.mp hf
          exact absurd hi (hs₄.clear (.object b k) rfl q hq i d), hnd⟩)
  -- the directory that is synced is the one that lost an entry
  have hdeep : w₄.tree.IsDir rest → r = some rest := by
    rintro ⟨i, hi⟩
    have hrest : w₄.tree.find rest ≠ none := by simp [hi]
    cases r with
    | none => exact absurd (hr rest hbelow habove) hrest
    | some q =>
        obtain ⟨hq, -, hne, hmax⟩ := hr
        by_cases heq : q = rest
        · rw [heq]
        rcases List.suffix_or_suffix_of_suffix hq hbelow with h | h
        · exact absurd (hmax rest hbelow h (Ne.symm heq)) hrest
        · exact absurd ⟨hq, h, heq⟩ ((hdir₄ q).mp (hisDir q hq hne)).2
  obtain ⟨w₆, hrun₆, htree₆, hk₆, hset₆⟩ := syncDeepest_run (w := w₅) (htree₅ ▸ hs₄)
    (r := r) fun q hq => by
      subst hq
      obtain ⟨hq, -, hne, -⟩ := hr
      exact htree₅ ▸ hisDir q hq hne
  rw [htree₅] at htree₆
  refine ⟨w₆, rest, ?_, ⟨fun q => ?_, hbelow, habove, fun q => ?_, ?_, ?_⟩⟩
  · have hbody : (deleteLocked (bucketDir b) k).run.run (engineExec env) w₁ = (.ok (), w₆) := by
      simp only [Place.path] at hrun₂ hrun₃ hrun₄ hrun₅
      rw [deleteLocked]
      dsimp only
      rw [Prog.run_bind_ok (liftIo_run hrun₂), Prog.run_bind_ok (liftIo_run hrun₃),
        Prog.run_bind_lift hrun₄, Prog.run_bind_lift hrun₅]
      exact hrun₆
    exact deleteObject_of_locked hrun₁ hbody
  · rw [htree₆, hfile₄, hw₃.file, hw₂.file, htree₁]
    by_cases hq : q = (Place.manifest b k).path
    · simp [hq]
    · by_cases hq' : q = (Place.data b k).path <;> simp [hq, hq']
  · rw [htree₆, hdir₄, hw₃.dir, hw₂.dir, htree₁]
  · rw [htree₆]
    exact hchild₄
  · have hk := (((ht₁.keeps.trans hw₂.keeps).trans hw₃.keeps).trans hk₄).trans ht₅.keeps
    refine (hk.trans hk₆).discharge (fun hw q hq => .inr ?_) fun _ q hq => absurd hq (by simp)
    intro i hi
    have hdir : w₄.tree.IsDir q := htree₆ ▸ ⟨i, hi⟩
    obtain rfl : q = rest := by
      simp only [Set.union_empty, Set.empty_union, Set.mem_union, Set.mem_singleton_iff] at hq
      rcases hq with (rfl | rfl) | rfl
      · by_contra hne
        exact ((hdir₄ _).mp hdir).2 ⟨List.suffix_rfl, hbelow, hne⟩
      · by_contra hne
        exact ((hdir₄ _).mp hdir).2 ⟨List.suffix_rfl, hbelow, hne⟩
      · rfl
    exact hset₆ (hk.wf hw) q (hdeep hdir) i hi

end Aks3.Engine
