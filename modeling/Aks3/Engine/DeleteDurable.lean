import Aks3.Engine.Methods
import Aks3.Engine.Sample
import Aks3.Lib.PowerLoss

/-!
# An acknowledged delete stays deleted

`delete_object` removes files and directories and ends with one `fsync`, of the deepest
directory on the way to the key that is still there. That directory lacks the next name of
the way, so one durable entry is enough to keep the key from coming back, whatever the
entries below it may be on disk (`delete_durable`). Objects that were durable before are as
durable afterwards. Two things it does not do (`delete_not_durable`): make an object durable
that was readable before its name was on disk, and sync anything when `objects/` itself is
missing.
-/

set_option autoImplicit false

namespace Aks3.Engine

open Lib

variable {env : Env OsName} {C : Crates} {w w' : World OsName} {b k : String}

/-! ## Reading on any tree -/

theorem existingBucketDir_ok {d : Path OsName}
    (h : (existingBucketDir b).run.run (engineExec env) w = (.ok d, w')) :
    isValidBucketName b = true ∧ d = bucketDir b ∧ Fit env.fits (bucketDir b) ∧
      w.tree.IsDir (bucketDir b) ∧ w'.fs = w.fs := by
  cases hv : isValidBucketName b with
  | false =>
      rw [existingBucketDir, Prog.run_bind_error (checkedBucketDir_invalid hv)] at h
      cases h
  | true =>
      rw [existingBucketDir, Prog.run_bind_ok (checkedBucketDir_run hv),
        Prog.run_bind_lift (metadata_run _), Fs.stat] at h
      cases hr : w.tree.resolve env.fits (bucketDir b) with
      | error e =>
          rw [hr] at h
          dsimp only [Except.mapError, Except.map] at h
          split at h <;> cases h
      | ok x =>
          rw [hr] at h
          dsimp only [Except.mapError, Except.map] at h
          split at h
          · rename_i hk
            cases h
            obtain ⟨i, rfl⟩ := Node.kind_eq_dir.mp hk
            exact ⟨rfl, rfl, FileTree.fit_of_resolve hr, ⟨i, FileTree.find_of_resolve hr⟩, rfl⟩
          · cases h

theorem existingBucketDir_of_isDir (hv : isValidBucketName b = true)
    (hf : Fit env.fits (bucketDir b)) (hd : w.tree.IsDir (bucketDir b)) :
    (existingBucketDir b).run.run (engineExec env) w =
      (.ok (bucketDir b), { w with tick := w.tick + 1 }) := by
  obtain ⟨i, hi⟩ := hd
  rw [existingBucketDir, Prog.run_bind_ok (checkedBucketDir_run hv),
    Prog.run_bind_lift (metadata_run _), Fs.stat_of_find hf hi]
  rfl

/-- What `load_manifest` makes of what it reads. -/
def manifestOf (C : Crates) (path : Path OsName) :
    Except ErrorKind Bytes → Except IoError (Option VersionManifest)
  | .error e => if e = .notFound then .ok none else .error e.os
  | .ok bytes => (parseManifest C path bytes).map some

theorem loadManifest_read (env : Env OsName) (C : Crates) (w : World OsName) (p : Path OsName) :
    (loadManifest C p).run.run (engineExec env) w =
    (manifestOf C p (w.fs.readFile env.fits p), w) := by
  rw [loadManifest, Prog.run_bind_lift (read_run _)]
  cases w.fs.readFile env.fits p with
  | error e => cases e <;> rfl
  | ok bytes =>
      dsimp only [Except.mapError, manifestOf]
      cases parseManifest C p bytes <;> rfl

/-- The version `live_version` finds in what it reads. -/
def versionOf (C : Crates) (path : Path OsName) (r : Except ErrorKind Bytes) :
    Except EngineError VersionEntry :=
  match manifestOf C path r with
  | .error e => .error (.ofIo e)
  | .ok m =>
    match liveOf m with
    | some e => .ok e
    | none => .error .noSuchKey

theorem liveVersion_read (env : Env OsName) (C : Crates) (w : World OsName) (dir : Path OsName) :
    (liveVersion C dir).run.run (engineExec env) w =
      (versionOf C (metaPath dir) (w.fs.readFile env.fits (metaPath dir)), w) := by
  have load := liftIo_run (loadManifest_read env C w (metaPath dir))
  rw [liveVersion, versionOf]
  cases hm : manifestOf C (metaPath dir) (w.fs.readFile env.fits (metaPath dir)) with
  | error e =>
      rw [hm] at load
      exact Prog.run_bind_error load
  | ok m =>
      rw [hm] at load
      rw [Prog.run_bind_ok load]
      cases m with
      | none => rfl
      | some m =>
          simp only [liveOf]
          cases m.latest with
          | none => rfl
          | some e => cases hdel : e.deleteMarker <;> simp [hdel]

theorem readFile_eq_ok {fs : Fs OsName} {fits : OsName → Bool} {p : Path OsName} {d : Bytes}
    (h : fs.readFile fits p = .ok d) : Fit fits p ∧ fs.tree.fileAt p = some d := by
  rw [Fs.readFile] at h
  split at h
  · cases h
  · cases h
  · rename_i i d hr
    cases h
    exact ⟨FileTree.fit_of_resolve hr, FileTree.fileAt_eq_some.mpr ⟨i, FileTree.find_of_resolve hr⟩⟩

/-- What `get_object` answers to what it reads. -/
def objectOf (env : Env OsName) (k : String) (range : Option ByteRange)
    (version : Except EngineError VersionEntry) (data : String → Except ErrorKind Bytes) :
    Except EngineError (ObjectInfo × Nat × Nat × (ReadAnswers → ByteStream)) :=
  match version with
  | .error e => .error e
  | .ok e =>
    match resolveRange range e.size with
    | .error x => .error x
    | .ok (offset, len) =>
      match data e.versionId with
      | .error x => if x = .notFound then .error .noSuchKey else .error (.ofIo x.os)
      | .ok bytes =>
        if env.reaches bytes.length offset then
          .ok (objectInfo k e, offset, len, fun reads => fileStream reads bytes len 0 offset len)
        else .error (.io (ErrorKind.os .invalidInput))

theorem getObject_read (env : Env OsName) (C : Crates) (k : String) (range : Option ByteRange)
    (hv : isValidBucketName b = true) (hf : Fit env.fits (bucketDir b))
    (hd : w.tree.IsDir (bucketDir b)) :
    ((getObject C b k range).run.run (engineExec env) w).1 = objectOf env k range
      (versionOf C (metaPath (objectDir (bucketDir b) k))
        (w.fs.readFile env.fits (metaPath (objectDir (bucketDir b) k))))
      fun v => w.fs.readFile env.fits (dataPath (objectDir (bucketDir b) k) v) := by
  have bucket := existingBucketDir_of_isDir hv hf hd
  have live := liveVersion_read env C { w with tick := w.tick + 1 } (objectDir (bucketDir b) k)
  rw [getObject, Prog.run_bind_ok bucket]
  dsimp only at live ⊢
  cases hr : versionOf C (metaPath (objectDir (bucketDir b) k))
      (w.fs.readFile env.fits (metaPath (objectDir (bucketDir b) k))) with
  | error e =>
      rw [hr] at live
      rw [Prog.run_bind_error live]
      rfl
  | ok e =>
      rw [hr] at live
      rw [Prog.run_bind_ok live, objectOf]
      cases hrange : resolveRange range e.size with
      | error x => rfl
      | ok cut =>
          obtain ⟨offset, len⟩ := cut
          refine congrArg Prod.fst (Prog.run_bind_lift (read_run _)) |>.trans ?_
          cases w.fs.readFile env.fits (dataPath (objectDir (bucketDir b) k) e.versionId) with
          | error x => cases x <;> rfl
          | ok bytes =>
              refine congrArg Prod.fst (seekStart_bind env bytes.length offset _ _) |>.trans ?_
              dsimp only
              split <;> rfl

/-- A key whose manifest cannot be found is not there for any reader. -/
theorem noSuchKey_of_lost (C : Crates) (hv : isValidBucketName b = true)
    (hf : Fit env.fits (bucketDir b)) (hd : w.tree.IsDir (bucketDir b))
    (hl : w.tree.Lost env.fits (metaPath (objectDir (bucketDir b) k))) :
    ((headObject C b k).run.run (engineExec env) w).1 = .error .noSuchKey ∧
      ∀ range, ((getObject C b k range).run.run (engineExec env) w).1 = .error .noSuchKey := by
  refine ⟨?_, fun range => ?_⟩
  · have live := liveVersion_read env C { w with tick := w.tick + 1 } (objectDir (bucketDir b) k)
    rw [hl.readFile] at live
    rw [headObject, Prog.run_bind_ok (existingBucketDir_of_isDir hv hf hd),
      Prog.run_bind_error live]
  · rw [getObject_read env C k range hv hf hd, hl.readFile]
    rfl

/-- A read finds the same where the bucket and the files of the key's directory are the same. -/
theorem getObject_same {range : Option ByteRange} 
    {r : ObjectInfo × Nat × Nat × (ReadAnswers → ByteStream)}
    (h : ((getObject C b k range).run.run (engineExec env) w).1 = .ok r)
    (hd : w.tree.IsDir (bucketDir b) → w'.tree.IsDir (bucketDir b))
    (hf : ∀ n d, w.tree.fileAt (n :: objectDir (bucketDir b) k) = some d →
      w'.tree.fileAt (n :: objectDir (bucketDir b) k) = some d) :
    ((getObject C b k range).run.run (engineExec env) w').1 = .ok r := by
  obtain ⟨_, w₁, bucket, -⟩ := Prog.ok_of_bind (Prod.ext h rfl : _ = (Except.ok r, _))
  obtain ⟨hv, -, hfit, hdir, -⟩ := existingBucketDir_ok bucket
  rw [getObject_read env C k range hv hfit hdir] at h
  rw [getObject_read env C k range hv hfit (hd hdir)]
  have read : ∀ {n d}, w.fs.readFile env.fits (n :: objectDir (bucketDir b) k) = .ok d →
      w'.fs.readFile env.fits (n :: objectDir (bucketDir b) k) = .ok d := fun hr =>
    Fs.readFile_ok (readFile_eq_ok hr).1 (hf _ _ (readFile_eq_ok hr).2)
  rw [metaPath] at h ⊢
  cases hm : w.fs.readFile env.fits (utf8 META_FILE :: objectDir (bucketDir b) k) with
  | error x =>
      rw [hm] at h
      cases x <;> cases h
  | ok bytes =>
      rw [hm] at h
      rw [read hm]
      generalize versionOf C _ (.ok bytes) = version at h ⊢
      cases version with
      | error e => cases h
      | ok e =>
          rw [objectOf] at h ⊢
          cases hrange : resolveRange range e.size with
          | error x =>
              rw [hrange] at h
              cases h
          | ok cut =>
              rw [hrange] at h
              dsimp only [dataPath] at h ⊢
              cases hdata : w.fs.readFile env.fits
                  (utf8 (dataFileName e.versionId) :: objectDir (bucketDir b) k) with
              | error x =>
                  rw [hdata] at h
                  cases x <;> cases h
              | ok data =>
                  rw [hdata] at h
                  rw [read hdata]
                  exact h

/-! ## What a delete takes away -/

/-- After an `unlink` that succeeds, or finds nothing, there is nothing to find. -/
theorem unlink_lost (fs : Fs OsName) (fits : OsName → Bool) (n : OsName) (q : Path OsName)
    (h : (fs.unlink fits (n :: q)).1 = .ok () ∨ (fs.unlink fits (n :: q)).1 = .error .notFound) :
    (fs.unlink fits (n :: q)).2.tree.Lost fits (n :: q) := by
  simp only [Fs.unlink] at h ⊢
  split at h
  · rename_i e he
    rcases h with h | h
    · cases h
    · cases h
      rw [FileTree.locate] at he
      split at he
      · rename_i e hr
        cases he
        obtain ⟨m, r, hs, rest⟩ := FileTree.lost_of_resolve hr
        exact ⟨m, r, hs.trans (List.suffix_cons n q), rest⟩
      · cases he
      · split at he <;> cases he
  · rename_i i hl
    obtain ⟨hq, hn⟩ := FileTree.find_of_locate hl
    exact ⟨n, q, List.suffix_rfl, FileTree.fit_of_locate hl, ⟨i, hq⟩, hn⟩
  · rcases h with h | h <;> cases h
  · rename_i i a d hl
    obtain ⟨hq, -⟩ := FileTree.find_of_locate hl
    refine ⟨n, q, List.suffix_rfl, FileTree.fit_of_locate hl, ⟨i, ?_⟩, ?_⟩
    · rw [Fs.find_unlinkAt, if_neg (List.cons_ne_self n q).symm, hq]
    · rw [Fs.find_unlinkAt, if_pos rfl]

theorem removeIfPresent_ok {n : OsName} {q : Path OsName}
    (h : (removeIfPresent (n :: q)).run.run (engineExec env) w = (.ok (), w')) :
    (∃ ps, Dropped env.fits w.fs ps w'.fs ∧ ∀ p ∈ ps, p = n :: q) ∧
      w'.tree.Lost env.fits (n :: q) := by
  have call : (TokioFs.removeFile (n :: q)).run.run (engineExec env) w =
      w.withFs (w.fs.unlink env.fits (n :: q)) := rfl
  rw [removeIfPresent, Prog.run_bind_lift call] at h
  have lost := unlink_lost w.fs env.fits n q
  rcases Fs.unlink_cases env.fits w.fs (n :: q) with ⟨m, r, i, a, d, hc, -, -, -, he⟩ | ⟨e, he⟩
  · rw [he] at h lost
    cases h
    exact ⟨⟨[n :: q], .unlink he (.nil _), fun p hp => List.mem_singleton.mp hp⟩, lost (.inl rfl)⟩
  · rw [he] at h lost
    dsimp only [World.withFs, Except.mapError] at h
    split at h
    · rename_i hk
      cases h
      cases hk
      exact ⟨⟨[], .nil _, by simp⟩, lost (.inr rfl)⟩
    · cases h

/-- Pruning takes away directories strictly below `stop`. -/
theorem prune_dropped (env : Env OsName) (stop : Path OsName) :
    ∀ (p : Path OsName) (w : World OsName),
    ∃ ps, Dropped env.fits w.fs ps ((pruneEmptyDirs stop p).run (engineExec env) w).2.fs ∧
      ∀ q ∈ ps, q ≠ stop ∧ stop <:+ q ∧ w.tree.IsDir q
  | [], w => ⟨[], .nil _, by simp⟩
  | n :: p, w => by
      rw [pruneEmptyDirs]
      split
      · rename_i below
        have call : (await (.removeDir (n :: p))).run (engineExec env) w =
            w.withFs (w.fs.rmdir env.fits (n :: p)) := rfl
        rw [Prog.run_bind, call]
        rcases Fs.rmdir_cases env.fits w.fs (n :: p) with
          ⟨m, r, i, j, hc, -, -, there, he⟩ | ⟨e, he⟩
        · rw [he]
          obtain ⟨ps, dropped, spec⟩ :=
            prune_dropped env stop p { w with fs := w.fs.unlinkAt i m r hc }
          refine ⟨(n :: p) :: ps, .rmdir he dropped,
            List.forall_mem_cons.mpr ⟨⟨below.1, below.2, j, there⟩, fun q hq => ?_⟩⟩
          obtain ⟨hne, hs, hd⟩ := spec q hq
          exact ⟨hne, hs, ((Fs.isDir_unlinkAt i m r hc q).mp hd).2⟩
        · rw [he]
          exact ⟨[], .nil _, by simp⟩
      · exact ⟨[], .nil _, by simp⟩

theorem existsOr_stat (p : Path OsName) (w : World OsName) :
    (existsOr p).run (engineExec env) w =
      ((w.fs.stat env.fits p).toBool, { w with tick := w.tick + 1 }) := by
  have call : (await (.tryExists p)).run (engineExec env) w =
      (Call.tryExistsCode p).run (World.exec env) w := rfl
  rw [existsOr, Prog.run_bind, call, Call.tryExistsCode, Prog.run_bind, StdFs.stat_run]
  cases w.fs.stat env.fits p with
  | ok _ => rfl
  | error e => cases e <;> rfl

/-- The search for a directory to sync ends where the way to the key does. -/
theorem deepestExisting_eq {stop q : Path OsName} (hf : Fit env.fits q) :
    ∀ {p : Path OsName} {w : World OsName}, stop <:+ p → q <:+ p → w.tree.find q ≠ none →
      (∀ x, x <:+ p → q <:+ x → x ≠ q → w.tree.find x = none) →
      ∃ w', (deepestExisting stop p).run (engineExec env) w =
        (if stop <:+ q then some q else none, w') ∧ w'.fs = w.fs
  | [], w, hstop, hq, _, _ => by
      obtain rfl := List.suffix_nil.mp hq
      refine ⟨{ w with tick := w.tick + 1 }, ?_, rfl⟩
      rw [deepestExisting, Prog.run_bind, existsOr_stat, if_pos hstop]
      rfl
  | n :: p, w, hstop, hq, there, last => by
      rw [deepestExisting, Prog.run_bind, existsOr_stat]
      by_cases heq : q = n :: p
      · subst heq
        obtain ⟨x, hx⟩ := Option.ne_none_iff_exists'.mp there
        refine ⟨{ w with tick := w.tick + 1 }, ?_, rfl⟩
        rw [Fs.stat_of_find hf hx, if_pos hstop]
        rfl
      · have absent := last _ List.suffix_rfl hq (Ne.symm heq)
        obtain ⟨e, he⟩ := Fs.stat_error env.fits absent
        have hqp := (List.suffix_cons_iff.mp hq).resolve_left heq
        rw [he]
        simp only [Except.toBool, Bool.false_eq_true, if_false]
        by_cases hs : n :: p = stop
        · refine ⟨{ w with tick := w.tick + 1 }, ?_, rfl⟩
          rw [if_pos hs, if_neg fun h => by
            have := (hs ▸ h).length_le.trans hqp.length_le
            rw [List.length_cons] at this
            omega]
          rfl
        · have hstop' := (List.suffix_cons_iff.mp hstop).resolve_left (Ne.symm hs)
          obtain ⟨w', hrun, same⟩ := deepestExisting_eq hf (p := p)
            (w := { w with tick := w.tick + 1 }) hstop' hqp there
            fun x hx => last x (hx.trans (List.suffix_cons n p))
          exact ⟨w', by rw [if_neg hs, if_pos hstop', hrun], same⟩

theorem liftIo_ok {α : Type} {x : IoM α} {a : α}
    (h : (liftIo x).run.run (engineExec env) w = (.ok a, w')) :
    x.run.run (engineExec env) w = (.ok a, w') := by
  rw [liftIo, Prog.run_adapt] at h
  generalize x.run.run (engineExec env) w = y at h ⊢
  obtain ⟨r, w₁⟩ := y
  cases r <;> cases h
  rfl

theorem fsyncDir_at {q : Path OsName} {i : Nat} (hf : Fit env.fits q)
    (hi : w.tree.find q = some (.dir i)) : (fsyncDir q).run.run (engineExec env) w =
      (.ok (), { w with fs := w.fs.syncDir i }) := by
  have opened : (TokioFs.openDir q).run.run (engineExec env) w = (.ok i, w) := by
    change ((w.fs.openDir env.fits q).mapError ErrorKind.os, w) = _
    rw [Fs.openDir_ok hf hi]
    rfl
  rw [fsyncDir, Prog.run_bind_ok opened]
  rfl

/-- A path that lies on the way, or the way does on it. -/
theorem next_suffix {m : OsName} {q x p : Path OsName} (hm : m :: q <:+ p) (hx : x <:+ p)
    (hq : q <:+ x) (hne : x ≠ q) : m :: q <:+ x := by
  refine List.suffix_of_suffix_length_le hm hx ?_
  have : q.length ≠ x.length := fun h => hne (hq.eq_of_length h).symm
  have := hq.length_le
  rw [List.length_cons]
  omega

theorem find_none_below {t : FileTree OsName} {m : OsName} {q : Path OsName}
    (absent : t.find (m :: q) = none) : ∀ {x : Path OsName}, m :: q <:+ x → t.find x = none
  | [], h => by cases List.suffix_nil.mp h
  | n :: x, h => by
      rcases List.suffix_cons_iff.mp h with heq | h
      · rw [← heq, absent]
      · refine FileTree.find_none_of_child fun ⟨i, hi⟩ => ?_
        rw [find_none_below absent h] at hi
        cases hi

/-- A delete that succeeds took away nothing but the key's own files and empty directories below
`objects/`. It ended at a directory that lacks the next name of the way to the manifest, and
synced it unless that is above `objects/`. -/
theorem deleteLocked_ok {dir : Path OsName}
    (h : (deleteLocked dir k).run.run (engineExec env) w = (.ok (), w')) :
    ∃ ps fs₁, Dropped env.fits w.fs ps fs₁ ∧
      (∀ p ∈ ps, p = metaPath (objectDir dir k) ∨ p = dataPath (objectDir dir k) NULL_VERSION_ID ∨
        p ≠ objectsDir dir ∧ objectsDir dir <:+ p ∧ w.tree.IsDir p) ∧
      ∃ m q i, m :: q <:+ metaPath (objectDir dir k) ∧ Fit env.fits (m :: q) ∧
        fs₁.tree.find q = some (.dir i) ∧ fs₁.tree.find (m :: q) = none ∧
        w'.fs = if objectsDir dir <:+ q then fs₁.syncDir i else fs₁ := by
  obtain ⟨_, w₁, hmeta, h⟩ := Prog.ok_of_bind h
  obtain ⟨_, w₂, hdata, h⟩ := Prog.ok_of_bind h
  obtain ⟨⟨ps₁, dropped₁, spec₁⟩, lost⟩ := removeIfPresent_ok (liftIo_ok hmeta)
  obtain ⟨⟨ps₂, dropped₂, spec₂⟩, -⟩ := removeIfPresent_ok (liftIo_ok hdata)
  obtain ⟨ps₃, dropped₃, spec₃⟩ := prune_dropped env (objectsDir dir) (objectDir dir k) w₂
  generalize hprune : (pruneEmptyDirs (objectsDir dir) (objectDir dir k)).run
    (engineExec env) w₂ = y
    at dropped₃
  obtain ⟨u, w₃⟩ := y
  replace h := (Prog.run_bind_lift hprune).symm.trans h
  obtain ⟨m, q, hs, hf, ⟨i, hi⟩, absent⟩ := dropped₃.lost (dropped₂.lost lost)
  have below : q <:+ objectDir dir k := by
    rcases List.suffix_cons_iff.mp hs with heq | hs
    · rw [(List.cons.inj heq).2]
    · exact (List.suffix_cons m q).trans hs
  have last : ∀ x, x <:+ objectDir dir k → q <:+ x → x ≠ q → w₃.tree.find x = none :=
    fun x hx hq hne => find_none_below absent
      (next_suffix hs (hx.trans (List.suffix_cons _ _)) hq hne)
  have hstop : objectsDir dir <:+ objectDir dir k := List.suffix_append _ _
  obtain ⟨w₄, hdeep, same⟩ := deepestExisting_eq hf.tail (w := w₃) hstop below
    (by rw [hi]; exact Option.some_ne_none _) last
  replace h := (Prog.run_bind_lift hdeep).symm.trans h
  refine ⟨ps₁ ++ (ps₂ ++ ps₃), w₃.fs, dropped₁.append (dropped₂.append dropped₃), ?_,
    m, q, i, hs, hf, hi, absent, ?_⟩
  · intro p hp
    rcases List.mem_append.mp hp with hp | hp
    · exact .inl (spec₁ p hp)
    · rcases List.mem_append.mp hp with hp | hp
      · exact .inr (.inl (spec₂ p hp))
      · obtain ⟨hne, hstop, j, hj⟩ := spec₃ p hp
        rw [World.tree, dropped₂.find, dropped₁.find] at hj
        split at hj
        · cases hj
        · split at hj
          · cases hj
          · exact .inr (.inr ⟨hne, hstop, j, hj⟩)
  · by_cases hstop : objectsDir dir <:+ q
    · rw [if_pos hstop] at h ⊢
      have synced := fsyncDir_at (w := w₄) hf.tail (by rw [World.tree, same]; exact hi)
      rw [Prog.run_bind_lift synced] at h
      cases h
      rw [← same]
    · rw [if_neg hstop] at h ⊢
      cases h
      exact same

theorem deleteObject_ok (h : (deleteObject b k).run.run (engineExec env) w = (.ok (), w')) :
    isValidBucketName b = true ∧ Fit env.fits (bucketDir b) ∧ w.tree.IsDir (bucketDir b) ∧
      ∃ w₁ : World OsName, w₁.fs = w.fs ∧
        (deleteLocked (bucketDir b) k).run.run (engineExec env) w₁ = (.ok (), w') := by
  obtain ⟨_, w₁, bucket, h⟩ := Prog.ok_of_bind h
  obtain ⟨hv, rfl, hf, hd, same⟩ := existingBucketDir_ok bucket
  rw [Prog.run_mk, withLock_run, withLock_run] at h
  exact ⟨hv, hf, hd, w₁, same, h⟩

/-! ## What survives -/

/-- The files of a directory are on disk, their names and their bytes. -/
def FilesDurable (fs : Fs OsName) (dir : Path OsName) : Prop :=
  ∀ n d, fs.tree.fileAt (n :: dir) = some d →
    fs.EntryDurable (n :: dir) ∧ fs.Synced (n :: dir)

/-- What is taken away lies strictly below `objects/`. -/
theorem below_objects {dir p : Path OsName} {t : FileTree OsName}
    (h : p = metaPath (objectDir dir k) ∨ p = dataPath (objectDir dir k) NULL_VERSION_ID ∨
      p ≠ objectsDir dir ∧ objectsDir dir <:+ p ∧ t.IsDir p) :
    (objectsDir dir).length < p.length := by
  have object : (objectsDir dir).length ≤ (objectDir dir k).length :=
    (List.suffix_append _ _ : objectsDir dir <:+ objectDir dir k).length_le
  rcases h with rfl | rfl | ⟨hne, hs, -⟩
  · exact Nat.lt_succ_of_le object
  · exact Nat.lt_succ_of_le object
  · exact lt_of_le_of_ne hs.length_le fun h => hne (hs.eq_of_length h).symm

/-- **An acknowledged delete stays deleted, and takes no durable object with it.** -/
theorem delete_durable (env : Env OsName) (C : Crates) (w : World OsName) (b k : String)
    (hw : w.fs.Wf) (hl : w.fs.Linked) (hobj : w.fs.EntryDurable (objectsDir (bucketDir b)))
    (hok : ((deleteObject b k).run.run (engineExec env) w).1 = .ok ()) (w₂ : World OsName)
    (hloss : ((deleteObject b k).run.run (engineExec env) w).2.fs.PowerLoss w₂.tree) :
    (((headObject C b k).run.run (engineExec env) w₂).1 = .error .noSuchKey ∧
      ∀ range, ((getObject C b k range).run.run (engineExec env) w₂).1 = .error .noSuchKey) ∧
    ∀ b' k', (b', k') ≠ (b, k) → FilesDurable w.fs (objectDir (bucketDir b') k') →
      ∀ range r, ((getObject C b' k' range).run.run (engineExec env) w).1 = .ok r →
        ((getObject C b' k' range).run.run (engineExec env) w₂).1 = .ok r := by
  generalize hrun : (deleteObject b k).run.run (engineExec env) w = y at hok hloss
  obtain ⟨r, w'⟩ := y
  cases hok
  obtain ⟨hv, hfit, hdir, w₁, same, hlocked⟩ := deleteObject_ok hrun
  obtain ⟨ps, fs₁, dropped, spec, m, q, i, hs, hf, hi, absent, final⟩ := deleteLocked_ok hlocked
  rw [World.tree, same] at spec
  rw [same] at dropped
  have flushed : fs₁.Flushed w'.fs := by
    rw [final]
    split
    · exact Fs.flushed_syncDir fs₁ i
    · exact .refl fs₁
  have wf₁ := dropped.wf hw
  have linked₁ := dropped.linked hw hl
  have linked : w'.fs.Linked := fun p hp => flushed.entry p (linked₁ p (flushed.tree ▸ hp))
  -- directories that are there after the delete are there after the power loss
  have survives : ∀ {p}, fs₁.tree.IsDir p → w₂.tree.IsDir p := fun hp => by
    rw [← flushed.tree] at hp
    exact hloss.isDir (linked.durable hp) hp
  have short : ∀ {p : Path OsName}, p.length ≤ (objectsDir (bucketDir b)).length → p ∉ ps :=
    fun hp hmem => absurd (below_objects (spec _ hmem)) (by omega)
  have stays : ∀ {p : Path OsName}, p ∉ ps → w.tree.IsDir p → fs₁.tree.IsDir p := by
    rintro p hp ⟨j, hj⟩
    exact ⟨j, by rw [dropped.find, if_neg hp, hj]⟩
  have bucket : ∀ b', w.tree.IsDir (bucketDir b') → fs₁.tree.IsDir (bucketDir b') := fun b' =>
    stays (short (Nat.le_succ _))
  refine ⟨?_, fun b' k' hne durable range r hget => ?_⟩
  · -- the way to the key ends at `q`, durably
    have entry : w'.fs.EntryDurable (m :: q) := by
      by_cases hstop : objectsDir (bucketDir b) <:+ q
      · rw [if_pos hstop] at final
        rw [final]
        exact Fs.entryDurable_of_settled ((Fs.flushed_syncDir fs₁ i).wf wf₁) ⟨i, hi⟩
          (Fs.settled_syncDir wf₁ hi) m
      · have onWay : objectsDir (bucketDir b) <:+ metaPath (objectDir (bucketDir b) k) :=
          (List.suffix_append _ _ : objectsDir (bucketDir b) <:+ objectDir (bucketDir b) k).trans
            (List.suffix_cons _ _)
        have above : m :: q <:+ objectsDir (bucketDir b) := by
          refine List.suffix_of_suffix_length_le hs onWay ?_
          by_contra hlong
          rw [List.length_cons] at hlong
          exact hstop (List.suffix_of_suffix_length_le onWay ((List.suffix_cons m q).trans hs)
            (by omega))
        rcases List.suffix_cons_iff.mp above with heq | above
        · rw [heq]
          exact flushed.entry _ (dropped.entryDurable hw hobj (short le_rfl)
            (short (Nat.le_succ _)))
        · obtain ⟨j, hj⟩ := FileTree.isDir_of_suffix (bucket b hdir) above
          rw [absent] at hj
          cases hj
    have reached : w'.fs.Durable q := linked.durable ⟨i, by rw [flushed.tree, hi]⟩
    have gone := hloss.find_eq_none (Fs.durable_cons m reached entry)
      (by rw [flushed.tree, absent])
    exact noSuchKey_of_lost C hv hfit (survives (bucket b hdir))
      ⟨m, q, hs, hf, survives ⟨i, hi⟩, gone⟩
  · refine getObject_same hget (fun hd => survives (bucket b' hd)) fun n d file => ?_
    obtain ⟨entry, synced⟩ := durable n d file
    have other : n :: objectDir (bucketDir b') k' ∉ ps := by
      have apart : objectDir (bucketDir b') k' ≠ objectDir (bucketDir b) k := fun h => by
        have same : Place.object b' k' = Place.object b k := Place.path_injective h
        cases same
        exact hne rfl
      intro hmem
      rcases spec _ hmem with heq | heq | ⟨-, -, hd⟩
      · exact apart (List.cons.inj heq).2
      · exact apart (List.cons.inj heq).2
      · rw [World.tree, FileTree.fileAt_of_isDir hd] at file
        cases file
    have found : w'.fs.tree.find (n :: objectDir (bucketDir b') k') =
        w.tree.find (n :: objectDir (bucketDir b') k') := by
      rw [flushed.tree, dropped.find, if_neg other]
    have file' : w'.fs.tree.fileAt (n :: objectDir (bucketDir b') k') = some d := by
      rw [FileTree.fileAt_congr found, file]
    have up : w'.fs.tree.IsDir (objectDir (bucketDir b') k') :=
      FileTree.isDir_of_fileAt (by rw [file']; exact Option.some_ne_none d)
    have upper : objectDir (bucketDir b') k' ∉ ps := by
      intro hmem
      obtain ⟨j, hj⟩ := up
      rw [flushed.tree, dropped.find, if_pos hmem] at hj
      cases hj
    refine hloss.fileAt (Fs.durable_cons n (linked.durable up)
      (flushed.entry _ (dropped.entryDurable hw entry other upper))) ?_ file'
    intro j c hj
    rw [flushed.synced]
    exact (dropped.kept hw).synced _ (Set.notMem_empty _) synced j c (by rw [← hj, flushed.tree])

/-! ## An object that was not durable -/

/-- A new file, its bytes synced. -/
def writeFile (fs : Fs OsName) (p : Path OsName) (bytes : Bytes) : Fs OsName :=
  (((fs.createNew sampleEnv.fits p).2.append sampleEnv.fits bytes p).2.syncFile sampleEnv.fits p).2

/-- The directories and the data file of one object `k` in a bucket `aaa`, all on disk. -/
def dataFs : Fs OsName :=
  (writeFile ([Place.buckets, .bucket "aaa", .objects "aaa", .object "aaa" "k"].foldl
    (fun fs pl => (fs.mkdir sampleEnv.fits pl.path).2) .empty) (Place.data "aaa" "k").path
    [7]).flushAll

/-- Its manifest is there too, its bytes on disk and its name not yet. -/
def unsyncedFs : Fs OsName := writeFile dataFs (Place.manifest "aaa" "k").path
  ((sizedCrates 1).manifestJson.toVec (sizedManifest 1))

/-- What every call keeps. -/
structure InOrder (fs : Fs OsName) : Prop where
  wf : fs.Wf
  current : fs.SyncedCurrent

theorem InOrder.change {fs fs' : Fs OsName} (h : InOrder fs) (hc : Fs.Change fs fs') :
    InOrder fs' := ⟨hc.wf h.wf, hc.syncedCurrent h.wf h.current⟩

theorem InOrder.mkdirs : ∀ (pls : List Place) {fs : Fs OsName}, InOrder fs →
    InOrder (pls.foldl (fun fs pl => (fs.mkdir sampleEnv.fits pl.path).2) fs)
  | [], _, h => h
  | _ :: pls, _, h => mkdirs pls (h.change (Fs.change_mkdir _ _ _))

theorem InOrder.writeFile {fs : Fs OsName} (h : InOrder fs) (p : Path OsName) (bytes : Bytes) :
    InOrder (writeFile fs p bytes) :=
  ((h.change (Fs.change_createNew _ _ _)).change (Fs.change_append _ _ _ _)).change
    (Fs.change_syncFile _ _ _)

theorem inOrder_dataFs : InOrder dataFs := by
  have file := (InOrder.mkdirs [Place.buckets, .bucket "aaa", .objects "aaa", .object "aaa" "k"]
    ⟨Fs.wf_empty, Fs.syncedCurrent_empty⟩).writeFile (Place.data "aaa" "k").path [7]
  exact ⟨Fs.wf_flushAll file.wf, file.current⟩

theorem linked_dataFs : dataFs.Linked :=
  Fs.linked_flushAll ((InOrder.mkdirs [Place.buckets, .bucket "aaa", .objects "aaa",
    .object "aaa" "k"] ⟨Fs.wf_empty, Fs.syncedCurrent_empty⟩).writeFile _ [7]).wf

theorem inOrder_unsyncedFs : InOrder unsyncedFs := inOrder_dataFs.writeFile _ _

theorem linked_unsyncedFs : unsyncedFs.Linked := by
  intro p hp
  have notFile : p ≠ (Place.manifest "aaa" "k").path := by
    rintro rfl
    have file : unsyncedFs.tree.fileAt (Place.manifest "aaa" "k").path ≠ none := by decide +kernel
    exact file (FileTree.fileAt_of_isDir hp)
  have old : dataFs.tree.IsDir p := by
    rw [unsyncedFs, writeFile, Fs.tree_syncFile] at hp
    exact (Fs.isDir_createNew _ _ _ p).mp ((Fs.isDir_append _ _ _ _ p).mp hp)
  exact Fs.entryDurable_syncFile _ (Fs.entryDurable_append _ _
    (Fs.entryDurable_createNew inOrder_dataFs.wf _ (linked_dataFs p old) notFile))

/-- The machine with that object. -/
def unsyncedWorld : World OsName := ⟨unsyncedFs, 0, 0⟩

theorem deleteOther_ok : ((deleteObject "aaa" "j").run.run (engineExec sampleEnv)
    unsyncedWorld).1 = .ok () := by
  rfl

theorem deleteOther_fs : ((deleteObject "aaa" "j").run.run (engineExec sampleEnv)
    unsyncedWorld).2.fs = unsyncedFs.syncDir 3 := by
  rfl

theorem hasChild_manifest :
    unsyncedFs.tree.hasChild (utf8 META_FILE :: (Place.object "aaa" "k").path) = false := by
  decide +kernel

/-- What a power loss leaves when that name is lost. -/
def lostWorld : World OsName :=
  ⟨{ unsyncedFs with
    tree := unsyncedFs.tree.remove (utf8 META_FILE) (Place.object "aaa" "k").path
      hasChild_manifest }, 0, 0⟩

theorem powerLoss_lostWorld : (unsyncedFs.syncDir 3).PowerLoss lostWorld.tree := by
  have order := inOrder_unsyncedFs.change (.dirSynced 3)
  have dir : (unsyncedFs.syncDir 3).tree.find (Place.object "aaa" "k").path = some (.dir 4) := rfl
  have lost : none ∈ (unsyncedFs.syncDir 3).disk 4 (utf8 META_FILE) := by decide +kernel
  exact (Fs.powerLoss_self order.wf order.current).remove dir lost hasChild_manifest

theorem getObject_unsynced : ∃ r, ((getObject (sizedCrates 1) "aaa" "k" none).run.run
    (engineExec sampleEnv) unsyncedWorld).1 = .ok r := by
  have bucket : unsyncedWorld.tree.IsDir (bucketDir "aaa") := ⟨2, rfl⟩
  have manifest : unsyncedWorld.fs.readFile sampleEnv.fits (Place.manifest "aaa" "k").path =
      .ok ((sizedCrates 1).manifestJson.toVec (sizedManifest 1)) := rfl
  have version : versionOf (sizedCrates 1) (Place.manifest "aaa" "k").path
      (.ok ((sizedCrates 1).manifestJson.toVec (sizedManifest 1))) =
      .ok ⟨NULL_VERSION_ID, etagA, 1, DEFAULT_CONTENT_TYPE, .empty, 0, false, none⟩ := by
    rw [versionOf, manifestOf, parseManifest_toVec _ _ (le_refl MANIFEST_FORMAT)]
    rfl
  have read := getObject_read sampleEnv (sizedCrates 1) "k" none (by decide)
    (fun _ _ => rfl) bucket
  rw [Place.path] at manifest version
  rw [manifest, version] at read
  exact ⟨_, read⟩

/-- The object with its manifest, all on disk. -/
def storedFs : Fs OsName := unsyncedFs.flushAll

/-- Its files and directories are taken away up to `objects/` itself, nothing of it on disk. -/
def bareFs : Fs OsName :=
  let unlinked := ((storedFs.unlink sampleEnv.fits (Place.manifest "aaa" "k").path).2.unlink
    sampleEnv.fits (Place.data "aaa" "k").path).2
  ((unlinked.rmdir sampleEnv.fits (Place.object "aaa" "k").path).2.rmdir sampleEnv.fits
    (Place.objects "aaa").path).2

/-- The machine it is taken away on. -/
def bareWorld : World OsName := ⟨bareFs, 0, 0⟩

theorem dropped_bareFs : Dropped sampleEnv.fits storedFs [(Place.manifest "aaa" "k").path,
    (Place.data "aaa" "k").path, (Place.object "aaa" "k").path,
    (Place.objects "aaa").path] bareFs :=
  .unlink rfl (.unlink rfl (.rmdir rfl (.rmdir rfl (.nil _))))

theorem inOrder_storedFs : InOrder storedFs :=
  ⟨Fs.wf_flushAll inOrder_unsyncedFs.wf, inOrder_unsyncedFs.current⟩

theorem linked_bareFs : bareFs.Linked :=
  dropped_bareFs.linked inOrder_storedFs.wf (Fs.linked_flushAll inOrder_unsyncedFs.wf)

/-- **What a delete does not make durable.** A readable object whose name was not on disk can be
lost after the delete of another key. And where `objects/` itself was taken away with nothing
synced, a delete finds no directory to sync, and the key can come back. -/
theorem delete_not_durable :
    (unsyncedWorld.fs.Wf ∧ unsyncedWorld.fs.Linked ∧
      ((deleteObject "aaa" "j").run.run (engineExec sampleEnv) unsyncedWorld).1 = .ok () ∧
      (∃ r, ((getObject (sizedCrates 1) "aaa" "k" none).run.run (engineExec sampleEnv)
        unsyncedWorld).1 = .ok r) ∧
      ((deleteObject "aaa" "j").run.run (engineExec sampleEnv)
        unsyncedWorld).2.fs.PowerLoss lostWorld.tree ∧
      ((getObject (sizedCrates 1) "aaa" "k" none).run.run (engineExec sampleEnv)
        lostWorld).1 = .error .noSuchKey) ∧
    (bareWorld.fs.Wf ∧ bareWorld.fs.Linked ∧
      ((deleteObject "aaa" "k").run.run (engineExec sampleEnv) bareWorld).1 = .ok () ∧
      ((deleteObject "aaa" "k").run.run (engineExec sampleEnv)
        bareWorld).2.fs.PowerLoss unsyncedWorld.tree ∧
      ∃ r, ((getObject (sizedCrates 1) "aaa" "k" none).run.run (engineExec sampleEnv)
        unsyncedWorld).1 = .ok r) := by
  refine ⟨⟨inOrder_unsyncedFs.wf, linked_unsyncedFs, deleteOther_ok, getObject_unsynced, ?_, ?_⟩,
    dropped_bareFs.wf inOrder_storedFs.wf, linked_bareFs, rfl, ?_, getObject_unsynced⟩
  · rw [deleteOther_fs]
    exact powerLoss_lostWorld
  · refine (noSuchKey_of_lost (sizedCrates 1) (by decide) (fun _ _ => rfl) ⟨2, rfl⟩ ?_).2 none
    refine ⟨utf8 META_FILE, (Place.object "aaa" "k").path, List.suffix_rfl, fun _ _ => rfl,
      ⟨4, rfl⟩, ?_⟩
    exact (FileTree.find_remove _ _ _ hasChild_manifest _).trans (if_pos rfl)
  · have untouched : ((deleteObject "aaa" "k").run.run (engineExec sampleEnv)
        bareWorld).2.fs = bareFs := rfl
    rw [untouched]
    exact dropped_bareFs.powerLoss (Fs.powerLoss_self inOrder_storedFs.wf inOrder_storedFs.current)

/-- The machine once that object is deleted. -/
def deletedWorld : World OsName :=
  ((deleteObject "aaa" "k").run.run (engineExec sampleEnv) unsyncedWorld).2

theorem inOrder_deletedWorld : InOrder deletedWorld.fs := by
  have calls : deletedWorld.fs = ((((unsyncedFs.unlink sampleEnv.fits
      (Place.manifest "aaa" "k").path).2.unlink sampleEnv.fits (Place.data "aaa" "k").path).2.rmdir
      sampleEnv.fits (Place.object "aaa" "k").path).2).syncDir 3 := rfl
  rw [calls]
  exact (((inOrder_unsyncedFs.change (Fs.change_unlink _ _ _)).change
    (Fs.change_unlink _ _ _)).change
    (Fs.change_rmdir _ _ _)).change (.dirSynced 3)

/-- The key deleted is the one there is, its data file on disk and its manifest perhaps; nothing
more is lost. -/
theorem delete_durable_unsynced :
    ((headObject (sizedCrates 1) "aaa" "k").run.run (engineExec sampleEnv) deletedWorld).1 =
      .error .noSuchKey :=
  (delete_durable sampleEnv (sizedCrates 1) unsyncedWorld "aaa" "k" inOrder_unsyncedFs.wf
    linked_unsyncedFs (linked_unsyncedFs _ ⟨3, rfl⟩) rfl deletedWorld
    (Fs.powerLoss_self inOrder_deletedWorld.wf inOrder_deletedWorld.current)).1.1

end Aks3.Engine
