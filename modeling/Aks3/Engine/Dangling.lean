import Aks3.Engine.DeleteDurable
import Aks3.Engine.Effects
import Aks3.Engine.Ranges
import Aks3.Engine.Refine
import Aks3.Lib.Pairing
import Aks3.Lib.Visits

/-!
# Manifests and their data after a power loss

`put_object` puts the data file in place and syncs it before the manifest that names it, and
`delete_object` removes the manifest before the data. The two removals are made in one directory
with no `fsync` between them, so a power loss can undo the first alone
(`dangling_after_powerLoss`). That is the only way: in every other state of every run of the two
methods, each manifest that a power loss can leave finds its data (`no_dangling_manifest`).
-/

set_option autoImplicit false

namespace Aks3.Engine

open Lib

/-! ## Names -/

/-- The name of neither a manifest nor a data file. -/
def Other (n : OsName) : Prop := n ≠ utf8 META_FILE ∧ n ≠ utf8 (dataFileName NULL_VERSION_ID)

theorem other_encodeComponent (c : String) : Other (utf8 (encodeComponent c)) :=
  ⟨encodeComponent_ne_of_reserved reserved_metaFile,
    encodeComponent_ne_of_reserved (reserved_dataFileName _)⟩

theorem other_tmpName (u : String) : Other (tmpName u) := by
  have ends : ∀ {n : OsName}, tmpName u = n → utf8 ".tmp" <:+ n := by
    rintro _ rfl
    rw [tmpName, utf8_append]
    exact List.suffix_append _ _
  exact ⟨fun h => absurd (ends h) (by decide), fun h => absurd (ends h) (by decide)⟩

theorem other_bucket {b : String} (hv : isValidBucketName b = true) : Other (utf8 b) := by
  have valid : ∀ {s : String}, isValidBucketName s = false → utf8 b ≠ utf8 s := by
    intro s hs h
    rw [utf8_inj.mp h, hs] at hv
    cases hv
  exact ⟨valid (by decide), valid (by decide)⟩

theorem other_objectDir {b k : String} (hv : isValidBucketName b = true) {n : OsName}
    (h : n ∈ objectDir (bucketDir b) k) : Other n := by
  rcases List.mem_append.mp h with h | h
  · obtain ⟨c, -, rfl⟩ := mem_keyToRelPath h
    exact other_encodeComponent c
  · have fixed : Other OBJECTS_DIR ∧ Other BUCKETS_DIR :=
      ⟨⟨by decide, by decide⟩, by decide, by decide⟩
    rcases List.mem_cons.mp h with rfl | h
    · exact fixed.1
    · rcases List.mem_cons.mp h with rfl | h
      · exact other_bucket hv
      · rw [List.mem_singleton.mp h]
        exact fixed.2

/-! ## The pairing of manifests and data -/

/-- A manifest as the engine writes it: it speaks of no version but the null one. -/
def ManifestOk (C : Crates) (bytes : Bytes) : Prop :=
  ∀ path m, parseManifest C path bytes = .ok m →
    ∀ e ∈ m.versions, e.deleteMarker = false → e.versionId = NULL_VERSION_ID

/-- A manifest is the marker of its data file. -/
def objectPairing (C : Crates) : Pairing OsName where
  marker := utf8 META_FILE
  payload := utf8 (dataFileName NULL_VERSION_ID)
  stage := tmpDir
  ok := ManifestOk C
  marker_ne := Place.metaFile_ne_dataFile.symm

variable {C : Crates}

/-- The manifest of a put speaks of the null version if the one it extends does. -/
theorem manifestOk_upsert {m : VersionManifest} {e : VersionEntry}
    (hm : ∀ e ∈ m.versions, e.deleteMarker = false → e.versionId = NULL_VERSION_ID)
    (he : e.versionId = NULL_VERSION_ID) :
    ManifestOk C (C.manifestJson.toVec (m.upsert e)) := by
  intro path m' hp v hv hdel
  rw [parseManifest, Json.fromSlice_toVec] at hp
  dsimp only at hp
  split at hp
  · cases hp
  · cases hp
    rcases List.mem_cons.mp hv with rfl | hv
    · exact he
    · exact hm v (List.mem_of_mem_filter hv) hdel

/-- What an operation asks of the system is quiet. -/
abbrev QuietOp (C : Crates) (o : Op) : Prop := o.code.All (objectPairing C).Quiet

/-- What an operation asks of the system is tame. -/
abbrev TameOp (C : Crates) (o : Op) : Prop := o.code.All (objectPairing C).Tame

theorem QuietOp.tame {o : Op} (h : QuietOp C o) : TameOp C o :=
  Prog.All.mono h fun _ => Pairing.Quiet.tame

theorem quiet_reads (o : Op) (h : Reads o) : QuietOp C o :=
  all_code_of_reads (fun s hs => by cases s <;> first | exact hs.elim | trivial) o h

theorem tame_reads (o : Op) (h : Reads o) : TameOp C o := (quiet_reads o h).tame

theorem tame_stages (u : String) : Stages (TameOp C) (tmpName u :: tmpDir) where
  openNew := Prog.all_call fun _ _ h => (List.cons.inj h).1 ▸ other_tmpName u
  writeAll := fun _ => Prog.all_call ⟨_, rfl⟩
  syncAll := Prog.all_call ⟨_, rfl⟩
  unlink := Prog.all_call fun _ h => (other_tmpName u).2 (List.cons.inj h).1

theorem quiet_createDirAll {b k : String} (hv : isValidBucketName b = true) :
    QuietOp C (.call (.createDirAll (objectDir (bucketDir b) k))) :=
  StdFs.all_createDirAll (fun _ => trivial) fun _ _ hq _ _ h =>
    (List.cons.inj h).1 ▸ other_objectDir hv (hq.subset List.mem_cons_self)

/-- The data of a put may go into place whatever the state. -/
theorem tame_commits {b k : String} (hv : isValidBucketName b = true) (u : String) :
    Commits (TameOp C) (tmpName u :: tmpDir)
      (dataPath (objectDir (bucketDir b) k) NULL_VERSION_ID) where
  stages := tame_stages u
  createDirAll := (quiet_createDirAll hv).tame
  rename := Prog.all_call ⟨_, rfl, (other_tmpName u).2, fun _ h =>
    Place.metaFile_ne_dataFile (List.cons.inj h).1⟩

/-! ## Along a method -/

/-- A state of a method under way: the world, and the calls it has made. -/
abbrev Cut := World OsName × List (Sys OsName LockName)

/-- The state after one more call. -/
def Cut.after (env : Env OsName) (s : Cut) (o : Sys OsName LockName) : Cut :=
  ((s.1.exec env o).2, s.2 ++ [o])

/-- Every state of the method is in `I`, and the last one meets `Q`. -/
abbrev Steps (env : Env OsName) (I : Cut → Prop) {α : Type} (p : EngineProg α) (s : Cut)
    (Q : α → Cut → Prop) : Prop :=
  Prog.Passes Op.code (Prog.logged (World.exec env)) I p s Q

section Steps

variable {env : Env OsName} {I : Cut → Prop} {X : Set Nat} {s s' : Cut} {α : Type}
  {p : EngineProg α}

theorem run_of_logged {a : α}
    (h : p.run (fun o s => (Op.code o).run (Prog.logged (World.exec env)) s) s = (a, s')) :
    p.run (engineExec env) s.1 = (a, s'.1) := by
  rw [← Prog.run_interp] at h
  have same := Prog.run_logged (World.exec env) (p.interp Op.code) s
  rw [h, Prog.run_interp] at same
  exact Prod.ext same.1.symm same.2.symm

/-- What comes out is what the method run alone returns. -/
theorem Steps.with_run {Q : α → Cut → Prop} (h : Steps env I p s Q) :
    Steps env I p s fun a s' => Q a s' ∧ p.run (engineExec env) s.1 = (a, s'.1) :=
  (Prog.Passes.with_run h).mono fun _ _ h => ⟨h.1, run_of_logged h.2⟩

theorem tame_steps (hp : p.All (TameOp C)) (hI : ∀ s, (objectPairing C).Holds X s.1.fs → I s)
    (h : (objectPairing C).Holds X s.1.fs) :
    Steps env I p s fun _ s' => (objectPairing C).Holds X s'.1.fs :=
  Prog.Passes.of_all hp (fun _ _ ho h => h.exec ho) hI h

/-- Quiet calls also keep what does not depend on more than they leave alone. -/
theorem quiet_steps {K : Fs OsName → Prop} (hp : p.All (QuietOp C))
    (hK : ∀ (w : World OsName) (o : Sys OsName LockName), w.fs.Wf → (objectPairing C).Quiet o →
      K w.fs → K (w.exec env o).2.fs)
    (hI : ∀ s, (objectPairing C).Holds X s.1.fs → I s) (h : (objectPairing C).Holds X s.1.fs)
    (k : K s.1.fs) :
    Steps env I p s fun _ s' => (objectPairing C).Holds X s'.1.fs ∧ K s'.1.fs :=
  Prog.Passes.of_all (J := fun s : Cut => (objectPairing C).Holds X s.1.fs ∧ K s.1.fs) hp
    (fun o s ho h => ⟨h.1.exec ho.tame, hK s.1 o h.1.wf ho h.2⟩) (fun s h => hI s h.1) ⟨h, k⟩

theorem withLock_steps {l : LockName} {m : Mode} {body : EngineProg α} {Q : α → Cut → Prop}
    (hI : ∀ s step, I s → I (s.1, s.2 ++ [.lock l step]))
    (hQ : ∀ a s step, Q a s → Q a (s.1, s.2 ++ [.lock l step])) (h : I s)
    (hb : Steps env I body (s.1, (s.2 ++ [.lock l .refer]) ++ [.lock l (.take m)]) Q) :
    Steps env I (withLock l m body) s Q := by
  have lock : ∀ (s : Cut) step, I s → Steps env I (prim (.lock l step)) s
      fun _ s' => s' = (s.1, s.2 ++ [.lock l step]) := fun s step h =>
    .call (.call h (hI s step h) rfl)
  refine (lock s .refer h).bind ?_
  rintro - _ rfl
  refine (lock _ (.take m) (hI s _ h)).bind ?_
  rintro - _ rfl
  refine hb.last.bind fun a s' hq => ?_
  refine (lock s' (.drop m) hq.2).bind ?_
  rintro - _ rfl
  refine (lock _ .prune (hI s' _ hq.2)).bind ?_
  rintro - _ rfl
  exact .pure (hI _ _ (hI s' _ hq.2)) (hQ _ _ _ (hQ _ _ _ hq.1))

end Steps

/-! ## A put -/

section Put

variable {env : Env OsName} {s : Cut} {f : StagedFile} {b k u : String}

/-- The manifests and the data files of a world are in order. -/
abbrev InPairs (C : Crates) (s : Cut) : Prop := (objectPairing C).Holds ∅ s.1.fs

theorem dirsToSync_head (env : Env OsName) (p : Path OsName) (w : World OsName) :
    ((dirsToSync p).run (engineExec env) w).1.head? = some p := by
  cases p with
  | nil => rfl
  | cons n p =>
      rw [dirsToSync, Prog.run_bind]
      split
      · rfl
      · rw [Prog.run_bind]
        rfl

/-- A publication that succeeds leaves the file in place, and its directory first among those to
sync. -/
theorem publish_ok {dst : Path OsName} {l : List (Path OsName)} {w w' : World OsName}
    (h : (f.publish dst).run.run (engineExec env) w = (.ok l, w')) :
    l.head? = some (parentDir dst) ∧ ∃ a d, w'.tree.find dst = some (.file a d) := by
  obtain ⟨_, w₁, -, h⟩ := Prog.ok_of_bind h
  have head := dirsToSync_head env (parentDir dst) w₁
  generalize hdirs : (dirsToSync (parentDir dst)).run (engineExec env) w₁ = y at head
  obtain ⟨l', w₂⟩ := y
  replace h := (Prog.run_bind_lift hdirs).symm.trans h
  obtain ⟨_, w₃, -, h⟩ := Prog.ok_of_bind h
  obtain ⟨_, w₄, moved, h⟩ := Prog.ok_of_bind h
  cases h
  refine ⟨head, ?_⟩
  change w₃.withFs (w₃.fs.rename env.fits f.path dst) = _ at moved
  rcases Fs.rename_cases env.fits w₃.fs f.path dst with
    ⟨n, p, i, m, q, j, a, d, fs', -, rfl, -, -, -, -, -, after, he⟩ | ⟨e, he⟩
  · rw [he] at moved
    cases moved
    exact ⟨a, d, by rw [World.tree, after.find, if_pos rfl]⟩
  · rw [he] at moved
    cases moved

/-- A publication that keeps the pairs is followed by calls that do. -/
theorem commit_steps {dst : Path OsName} (hf : f.path = tmpName u :: tmpDir)
    {Q : List (Path OsName) → Cut → Prop}
    (hp : Steps env (InPairs C) (f.publish dst).run s fun r s' => InPairs C s' ∧
      ∀ l, r = .ok l → Q l s')
    {R : Cut → Prop} (hs : ∀ l s', InPairs C s' → Q l s' →
      Steps env (InPairs C) (syncDirs l).run s' fun r s'' => InPairs C s'' ∧ (r = .ok () → R s'')) :
    Steps env (InPairs C) (f.commit dst).run s fun r s' => InPairs C s' ∧ (r = .ok () → R s') := by
  refine hp.bind fun r s' h => ?_
  cases r with
  | error e =>
      have dropped : Steps env (InPairs C) f.drop s' fun _ s'' => InPairs C s'' :=
        tame_steps (all_drop (hf ▸ tame_stages u)) (fun _ => id) h.1
      exact dropped.bind fun _ s'' h' => .pure h' ⟨h', fun he => nomatch he⟩
  | ok l => exact hs l s' h.1 (h.2 l rfl)

/-- Once its data is committed, an object's directory can take a manifest. -/
theorem commitData_steps (hv : isValidBucketName b = true) (hf : f.path = tmpName u :: tmpDir)
    (h : InPairs C s) :
    Steps env (InPairs C) (f.commit (dataPath (objectDir (bucketDir b) k) NULL_VERSION_ID)).run s
      fun r s' => InPairs C s' ∧
        (r = .ok () → (objectPairing C).Full (objectDir (bucketDir b) k) s'.1.fs) := by
  have commits : Commits (TameOp C) f.path _ := hf ▸ tame_commits (k := k) hv u
  have publish : Steps env (InPairs C)
      (f.publish (dataPath (objectDir (bucketDir b) k) NULL_VERSION_ID)).run s
      fun _ s' => InPairs C s' :=
    tame_steps (all_publish tame_reads commits) (fun _ => id) h
  refine commit_steps hf (Q := fun l s' => l.head? = some (objectDir (bucketDir b) k) ∧
    ∃ a d, s'.1.tree.find (dataPath (objectDir (bucketDir b) k) NULL_VERSION_ID) = some (.file a d))
    (publish.with_run.mono fun r s' h' => ⟨h'.1, ?_⟩) ?_
  · rintro l rfl
    exact publish_ok h'.2
  · rintro l s' h' ⟨head, a, d, file⟩
    obtain ⟨rest, rfl⟩ : ∃ rest, l = objectDir (bucketDir b) k :: rest := by
      cases l with
      | nil => cases head
      | cons x rest =>
          cases head
          exact ⟨rest, rfl⟩
    have there : s'.1.tree.find (dataPath (objectDir (bucketDir b) k) NULL_VERSION_ID) ≠ none := by
      rw [file]
      exact Option.some_ne_none _
    obtain ⟨i, hi⟩ := FileTree.isDir_of_find there
    -- the directory itself is synced first, and nothing after it changes an entry
    have opened : Steps env (InPairs C) (TokioFs.openDir (objectDir (bucketDir b) k)).run s'
        fun r s'' => InPairs C s'' ∧ s''.1 = s'.1 ∧ ∀ j, r = .ok j → j = i := by
      refine .call (.call h' h' ⟨h', rfl, fun j hj => ?_⟩)
      change (s'.1.fs.openDir env.fits _).mapError ErrorKind.os = _ at hj
      rw [Fs.openDir] at hj
      split at hj
      · cases hj
      · rename_i x hx
        rw [FileTree.find_of_resolve hx] at hi
        cases hi
        exact (Except.ok.inj hj).symm
    have synced : Steps env (InPairs C) (fsyncDir (objectDir (bucketDir b) k)).run s'
        fun r s'' => InPairs C s'' ∧
          (r = .ok () → (objectPairing C).Full (objectDir (bucketDir b) k) s''.1.fs) := by
      refine opened.bindE (fun j s'' h'' => ?_) fun e s'' h'' => ⟨h''.1, fun he => by cases he⟩
      obtain ⟨hp, same, ino⟩ := h''
      obtain rfl := ino j rfl
      refine .call (.call hp (hp.syncDir j) ⟨hp.syncDir j, fun _ => ?_⟩)
      refine Pairing.full_of_syncDir hp.wf (a := a) (d := d) ?_ ?_ <;> rw [same] <;> assumption
    refine synced.bindE (fun _ s'' h'' => ?_) fun e s'' h'' => ⟨h''.1, fun he => by cases he⟩
    refine (quiet_steps ((readOnly_syncDirs rest).mono quiet_reads) (fun w o hw ho => .exec hw ho)
      (fun _ => id) h''.1 (h''.2 rfl)).mono fun r s₃ h₃ => ⟨h₃.1, fun _ => h₃.2⟩

theorem create_ok {tmp : Path OsName} {w w' : World OsName}
    (h : (StagedFile.create tmp).run.run (engineExec env) w = (.ok f, w')) :
    w'.tree.fileAt f.path = some [] := by
  obtain ⟨u, w₁, -, h⟩ := Prog.ok_of_bind h
  obtain ⟨_, w₂, made, h⟩ := Prog.ok_of_bind h
  cases h
  change w₁.withFs (w₁.fs.createNew env.fits (tmpName u :: tmp)) = _ at made
  rcases Fs.createNew_cases env.fits w₁.fs (tmpName u :: tmp) with
    ⟨n, q, i, hp, hx, hpath, -, -, -, he⟩ | ⟨e, he⟩
  · rw [he] at made
    cases made
    refine FileTree.fileAt_eq_some.mpr ⟨w₁.fs.nextIno, ?_⟩
    rw [World.tree, Fs.find_link, if_pos hpath]
  · rw [he] at made
    cases made

theorem objectDir_ne_tmpDir (b k : String) : objectDir (bucketDir b) k ≠ tmpDir := by
  intro h
  have := congrArg List.length h
  simp [objectDir, objectsDir, bucketDir, bucketsDir, tmpDir] at this

/-- A whole manifest, staged, goes into a directory that has its data. -/
theorem publishManifest_steps (hv : isValidBucketName b = true) (hf : f.path = tmpName u :: tmpDir)
    {bytes : Bytes} (ok : ManifestOk C bytes) (h : InPairs C s)
    (full : (objectPairing C).Full (objectDir (bucketDir b) k) s.1.fs)
    (file : s.1.tree.fileAt f.path = some bytes) :
    Steps env (InPairs C) (f.publish (metaPath (objectDir (bucketDir b) k))).run s
      fun _ s' => InPairs C s' := by
  let K : Fs OsName → Prop := fun fs => (objectPairing C).Full (objectDir (bucketDir b) k) fs ∧
    (objectPairing C).Whole f.path fs
  have keep : ∀ (w : World OsName) (o : Sys OsName LockName), w.fs.Wf →
      (objectPairing C).Quiet o → K w.fs → K (w.exec env o).2.fs :=
    fun w o hw ho k => ⟨k.1.exec hw ho, k.2.exec hw ho⟩
  have synced : Steps env (InPairs C) (TokioFs.syncAll f.path).run s fun r s' =>
      InPairs C s' ∧ (r = .ok () → K s'.1.fs) := by
    have kept : InPairs C (Cut.after env s (.syncFile f.path)) := h.exec ⟨_, hf⟩
    refine .call (.call h kept ⟨kept, fun hr => ⟨full.syncFile env.fits f.path, ?_⟩⟩)
    change ((s.1.fs.syncFile env.fits f.path).1.mapError ErrorKind.os) = _ at hr
    change (objectPairing C).Whole f.path (s.1.fs.syncFile env.fits f.path).2
    rcases Fs.syncFile_cases env.fits s.1.fs f.path with ⟨i, d, there, he⟩ | ⟨e, he⟩
    · rw [he]
      rw [World.tree, FileTree.fileAt_eq_some.mpr ⟨i, there⟩] at file
      cases file
      exact ⟨i, bytes, there, if_pos rfl, ok⟩
    · rw [he] at hr
      cases hr
  refine synced.bindE (fun _ s₁ h₁ => ?_) fun _ _ h₁ => h₁.1
  refine (quiet_steps ((readOnly_dirsToSync _).mono quiet_reads) keep (fun _ => id) h₁.1
    (h₁.2 rfl)).bindLift fun dirs s₂ h₂ => ?_
  refine Prog.Passes.bindE (quiet_steps (Prog.all_call (quiet_createDirAll hv)) keep (fun _ => id)
    h₂.1 h₂.2) (fun _ s₃ h₃ => ?_) fun _ _ h₃ => h₃.1
  have moved :
      InPairs C (Cut.after env s₃ (.rename f.path (metaPath (objectDir (bucketDir b) k)))) := by
    obtain ⟨pairs, full, whole⟩ := h₃
    rw [hf] at whole ⊢
    refine pairs.rename env.fits (other_tmpName u).2 fun q hq => ?_
    obtain rfl := (List.cons.inj hq).2
    exact ⟨objectDir_ne_tmpDir b k, whole, full⟩
  have placed : Steps env (InPairs C)
      (TokioFs.rename f.path (metaPath (objectDir (bucketDir b) k))).run s₃
      fun _ s' => InPairs C s' := .call (.call h₃.1 moved moved)
  exact placed.bindE (fun _ _ h₄ => .pureE h₄ h₄) fun _ _ h₄ => h₄

theorem writeManifest_steps (hv : isValidBucketName b = true) {bytes : Bytes}
    (ok : ManifestOk C bytes) (h : InPairs C s)
    (full : (objectPairing C).Full (objectDir (bucketDir b) k) s.1.fs) :
    Steps env (InPairs C)
      (writeJsonAtomic tmpDir (metaPath (objectDir (bucketDir b) k)) bytes).run s
      fun _ s' => InPairs C s' := by
  have quiet : (StagedFile.create tmpDir).run.All (QuietOp C) :=
    all_create (Prog.all_call trivial) fun u =>
      Prog.all_call fun _ _ h => (List.cons.inj h).1 ▸ other_tmpName u
  have created : Steps env (InPairs C) (StagedFile.create tmpDir).run s _ :=
    quiet_steps quiet (fun w o hw ho => .exec hw ho) (fun _ => id) h full
  refine (created.with_run.with_returns (returnsOk_create tmpDir)).bindE
    (fun f s₁ h₁ => ?_) fun _ _ h₁ => h₁.1.1.1
  obtain ⟨⟨⟨pairs, full⟩, run⟩, name⟩ := h₁
  obtain ⟨u, hf⟩ := name f rfl
  have start := create_ok run
  have written : Steps env (InPairs C) (TokioFs.writeAll f.path bytes).run s₁ fun r s' =>
      InPairs C s' ∧ (objectPairing C).Full (objectDir (bucketDir b) k) s'.1.fs ∧
        (r = .ok () → s'.1.tree.fileAt f.path = some bytes) := by
    have kept : InPairs C (Cut.after env s₁ (.append f.path bytes)) := pairs.exec ⟨_, hf⟩
    refine .call (.call pairs kept ⟨kept, full.append env.fits bytes f.path, fun hr => ?_⟩)
    change ((s₁.1.fs.append env.fits bytes f.path).1.mapError ErrorKind.os) = _ at hr
    change (s₁.1.fs.append env.fits bytes f.path).2.tree.fileAt f.path = some bytes
    rcases Fs.append_cases env.fits s₁.1.fs bytes f.path with
      ⟨j, d, fs', there, after, he⟩ | ⟨e, he⟩
    · rw [World.tree, FileTree.fileAt_eq_some.mpr ⟨j, there⟩] at start
      cases start
      rw [he]
      exact FileTree.fileAt_eq_some.mpr ⟨j, by rw [after.find, if_pos rfl, List.nil_append]⟩
    · rw [he] at hr
      cases hr
  refine written.bindLift fun r s₂ h₂ => ?_
  cases r with
  | error e =>
      have dropped : Steps env (InPairs C) f.drop s₂ fun _ s' => InPairs C s' :=
        tame_steps (all_drop (hf ▸ tame_stages u)) (fun _ => id) h₂.1
      exact dropped.bindLift fun _ _ h₃ => .throw h₃ h₃
  | ok _ =>
      have publish : Steps env (InPairs C) (f.publish (metaPath (objectDir (bucketDir b) k))).run s₂
          fun _ s' => InPairs C s' := publishManifest_steps hv hf ok h₂.1 h₂.2.1 (h₂.2.2 rfl)
      refine (commit_steps (R := fun _ => True) (Q := fun _ _ => True) hf
        (publish.mono fun _ _ h₃ => ⟨h₃, fun _ _ => trivial⟩) fun l s₃ h₃ _ =>
          ?_).mono fun _ _ h => h.1
      exact (tame_steps ((readOnly_syncDirs l).mono tame_reads) (fun _ => id) h₃).mono
        fun _ _ h₄ => ⟨h₄, fun _ => trivial⟩

/-- The manifest a put extends is one of the engine's. -/
theorem loadManifest_ok {w w' : World OsName} {X : Set Nat} {m : Option VersionManifest}
    {dir : Path OsName} (h : (objectPairing C).Holds X w.fs)
    (hrun : (loadManifest C (metaPath dir)).run.run (engineExec env) w = (.ok m, w')) :
    ∀ e ∈ (m.getD newManifest).versions, e.deleteMarker = false →
    e.versionId = NULL_VERSION_ID := by
  rw [loadManifest_read] at hrun
  cases hr : w.fs.readFile env.fits (metaPath dir) with
  | error e =>
      rw [hr, manifestOf] at hrun
      split at hrun <;> cases hrun
      exact fun e he => absurd he List.not_mem_nil
  | ok bytes =>
      rw [hr, manifestOf] at hrun
      cases hp : parseManifest C (metaPath dir) bytes with
      | error e =>
          rw [hp] at hrun
          cases hrun
      | ok m =>
          rw [hp] at hrun
          cases hrun
          exact h.ok_of_fileAt (readFile_eq_ok hr).2 _ m hp

theorem publishObject_steps (hv : isValidBucketName b = true) (hf : f.path = tmpName u :: tmpDir)
    {e : VersionEntry} (he : e.versionId = NULL_VERSION_ID) (h : InPairs C s) :
    Steps env (InPairs C) (publishObject C f (objectDir (bucketDir b) k) e).run s
      fun _ s' => InPairs C s' := by
  refine (commitData_steps hv hf h).bindE (fun _ s₁ h₁ => ?_) fun _ _ h₁ => h₁.1
  have loaded : Steps env (InPairs C)
      (loadManifest C (metaPath (objectDir (bucketDir b) k))).run s₁ _ :=
    quiet_steps ((readOnly_loadManifest C _).mono quiet_reads) (fun w o hw ho => .exec hw ho)
      (fun _ => id) h₁.1 (h₁.2 rfl)
  refine loaded.with_run.bindE (fun m s₂ h₂ => ?_) fun _ _ h₂ => h₂.1.1
  exact writeManifest_steps hv (manifestOk_upsert (loadManifest_ok h₁.1 h₂.2) he) h₂.1.1 h₂.1.2

theorem putLocked_steps (hv : isValidBucketName b = true) (hf : f.path = tmpName u :: tmpDir)
    {e : VersionEntry} (he : e.versionId = NULL_VERSION_ID) (h : InPairs C s) :
    Steps env (InPairs C) (putLocked C b f (objectDir (bucketDir b) k) e) s
      fun _ s' => InPairs C s' := by
  have bucket : Steps env (InPairs C) (existingBucketDir b).run s _ :=
    tame_steps ((readOnly_existingBucketDir b).mono tame_reads) (fun _ => id) h
  refine bucket.bind fun r s₁ h₁ => ?_
  cases r with
  | error e => exact .pure h₁ h₁
  | ok d => exact .map (.adapt (publishObject_steps hv hf he h₁))

/-- **Every state of a put pairs the manifests with their data.** -/
theorem putObject_steps (body : ByteStream) (opts : PutOpts) (h : InPairs C s) :
    Steps env (InPairs C) (putObject C b k body opts).run s fun _ s' => InPairs C s' := by
  have bucket : Steps env (InPairs C) (existingBucketDir b).run s _ :=
    tame_steps ((readOnly_existingBucketDir b).mono tame_reads) (fun _ => id) h
  refine bucket.with_run.bindE (fun d s₁ h₁ => ?_) fun _ _ h₁ => h₁.1
  obtain ⟨h₁, hrun⟩ := h₁
  obtain ⟨hv, rfl, -⟩ := existingBucketDir_ok hrun
  have created : Steps env (InPairs C) (StagedFile.create tmpDir).run s₁ _ :=
    tame_steps (all_create (Prog.all_call trivial) fun u => (tame_stages u).openNew)
      (fun _ => id) h₁
  refine Prog.Passes.bindE (Q := fun r s' => InPairs C s' ∧
      ∀ f, r = .ok f → ∃ u, f.path = tmpName u :: tmpDir)
    (.adapt ((created.with_returns (returnsOk_create tmpDir)).mono fun r s' h' => ⟨h'.1, ?_⟩))
    (fun f s₂ h₂ => ?_) fun _ _ h₂ => h₂.1
  · intro f hr
    cases r with
    | error e => cases hr
    | ok f' =>
        cases hr
        exact h'.2 _ rfl
  obtain ⟨h₂, name⟩ := h₂
  obtain ⟨u, hf⟩ := name f rfl
  have drop : ∀ {s' : Cut}, InPairs C s' → Steps env (InPairs C) f.drop s'
      fun _ s' => InPairs C s' :=
    tame_steps (all_drop (hf ▸ tame_stages u)) fun _ => id
  have staged : Steps env (InPairs C) (stageBody f (.new opts) body).run s₂ _ :=
    tame_steps (all_stageBody tame_reads (hf ▸ tame_stages u) body _) (fun _ => id) h₂
  refine staged.bindLift fun r s₃ h₃ => ?_
  cases r with
  | error e => exact (drop h₃).bindLift fun _ _ h₄ => .throw h₄ h₄
  | ok d =>
      have now : Steps env (InPairs C) (prim .now) s₃ _ :=
        tame_steps (Prog.all_call (Prog.all_call trivial)) (fun _ => id) h₃
      refine now.bindLift fun t s₄ h₄ => ?_
      have locked : Steps env (InPairs C)
          (withLock (.bucket b) .shared (withLock (.key b k) .exclusive
          (putLocked C b f (objectDir (bucketDir b) k) (newEntry C opts d t)))) s₄
          fun _ s' => InPairs C s' :=
        withLock_steps (fun _ _ => id) (fun _ _ _ => id) h₄
          (withLock_steps (fun _ _ => id) (fun _ _ _ => id) h₄ (putLocked_steps hv hf rfl h₄))
      refine locked.bindLift fun r s₅ h₅ => ?_
      match r with
      | .inl e => exact (drop h₅).bindLift fun _ _ h₆ => .throw h₆ h₆
      | .inr (.error e) => exact .throw h₅ h₅
      | .inr (.ok ()) => exact .pureE h₅ h₅

end Put

/-! ## A delete -/

section Delete

variable {env : Env OsName} {s s' : Cut} {b k : String} {t : FileTree OsName}

/-- Between the removal of a data file and the `fsync` that ends a delete: the file was there when
the delete began. -/
def Exposed (t : FileTree OsName) (b k : String) (calls : List (Sys OsName LockName)) : Prop :=
  t.fileAt (dataPath (objectDir (bucketDir b) k) NULL_VERSION_ID) ≠ none ∧
    .unlink (dataPath (objectDir (bucketDir b) k) NULL_VERSION_ID) ∈ calls ∧ ∀ i, .syncDir i ∉ calls

/-- Only a delete between its second removal and its `fsync` may leave a manifest alone. -/
def Guarded (C : Crates) (t : FileTree OsName) (b k : String) (s : Cut) : Prop :=
  ¬ Exposed t b k s.2 → InPairs C s

/-- A call that changes nothing and syncs nothing. -/
def Looks : Sys OsName LockName → Prop
  | .stat _ | .openDir _ | .lock _ _ => True
  | _ => False

theorem Looks.fs {o : Sys OsName LockName} (h : Looks o) (w : World OsName) :
    (w.exec env o).2.fs = w.fs := by
  cases o <;> first | rfl | exact h.elim

theorem Looks.ne_syncDir {o : Sys OsName LockName} (h : Looks o) (i : Nat) : o ≠ .syncDir i := by
  rintro rfl
  exact h

theorem looks_tryExists (p : Path OsName) : (Op.call (.tryExists p)).code.All Looks := by
  refine Prog.All.bind (Prog.all_call trivial) fun r => ?_
  cases r with
  | ok s => exact Prog.all_pure _
  | error e =>
      dsimp only
      split <;> exact Prog.all_pure _

/-- Nothing is at risk yet: the data file is as it was, and nothing has been synced. -/
structure Before (C : Crates) (t : FileTree OsName) (b k : String) (s : Cut) : Prop where
  pairs : InPairs C s
  data : s.1.tree.fileAt (dataPath (objectDir (bucketDir b) k) NULL_VERSION_ID) =
    t.fileAt (dataPath (objectDir (bucketDir b) k) NULL_VERSION_ID)
  unsynced : ∀ i, .syncDir i ∉ s.2

theorem Before.guarded (h : Before C t b k s) : Guarded C t b k s := fun _ => h.pairs

theorem not_mem_append_singleton {calls : List (Sys OsName LockName)} {o x : Sys OsName LockName}
    (h : x ∉ calls) (hne : o ≠ x) : x ∉ calls ++ [o] := by
  rw [List.mem_append, List.mem_singleton, not_or]
  exact ⟨h, hne.symm⟩

theorem Before.looks (h : Before C t b k s) {o : Sys OsName LockName} (ho : Looks o) :
    Before C t b k (Cut.after env s o) where
  pairs := by
    change (objectPairing C).Holds ∅ (s.1.exec env o).2.fs
    rw [ho.fs]
    exact h.pairs
  data := by
    change (s.1.exec env o).2.fs.tree.fileAt _ = _
    rw [ho.fs]
    exact h.data
  unsynced := fun i => not_mem_append_singleton (h.unsynced i) (ho.ne_syncDir i)

/-- An entry that is not the data file's is taken away. -/
theorem Before.unlink (h : Before C t b k s) :
    Before C t b k (Cut.after env s (.unlink (metaPath (objectDir (bucketDir b) k)))) where
  pairs := h.pairs.exec fun _ hq => Place.metaFile_ne_dataFile.symm (List.cons.inj hq).1
  data := by
    rw [← h.data]
    change (s.1.fs.unlink env.fits _).2.tree.fileAt _ = _
    rcases Fs.unlink_cases env.fits s.1.fs (metaPath (objectDir (bucketDir b) k)) with
      ⟨n, q, i, a, d, hc, hpath, -, -, he⟩ | ⟨e, he⟩
    · rw [he, Fs.fileAt_unlinkAt, ← hpath, if_neg]
      exact fun hq => Place.metaFile_ne_dataFile (List.cons.inj hq).1
    · rw [he]
  unsynced := fun i => not_mem_append_singleton (h.unsynced i) (by simp)

/-- The data file is gone and nothing is synced yet: the directory is at risk, and since `fs₀`
entries were only taken away. -/
structure AtRisk (C : Crates) (t : FileTree OsName) (b k : String) (fs₀ : Fs OsName) (i₀ : Nat)
    (s : Cut) : Prop where
  exposed : Exposed t b k s.2
  pairs : (objectPairing C).Holds {i₀} s.1.fs
  shrunk : Pairing.Shrunk fs₀ s.1.fs

theorem AtRisk.guarded {fs₀ : Fs OsName} {i₀ : Nat} (h : AtRisk C t b k fs₀ i₀ s) :
    Guarded C t b k s := fun hs => absurd h.exposed hs

theorem Exposed.after {calls : List (Sys OsName LockName)} {o : Sys OsName LockName}
    (h : Exposed t b k calls) (ho : ∀ i, o ≠ .syncDir i) : Exposed t b k (calls ++ [o]) :=
  ⟨h.1, List.mem_append_left _ h.2.1, fun i => not_mem_append_singleton (h.2.2 i) (ho i)⟩

theorem AtRisk.looks {fs₀ : Fs OsName} {i₀ : Nat} (h : AtRisk C t b k fs₀ i₀ s)
    {o : Sys OsName LockName} (ho : Looks o) : AtRisk C t b k fs₀ i₀ (Cut.after env s o) where
  exposed := h.exposed.after ho.ne_syncDir
  pairs := by
    change (objectPairing C).Holds _ (s.1.exec env o).2.fs
    rw [ho.fs]
    exact h.pairs
  shrunk := by
    change Pairing.Shrunk fs₀ (s.1.exec env o).2.fs
    rw [ho.fs]
    exact h.shrunk

theorem AtRisk.rmdir {fs₀ : Fs OsName} {i₀ : Nat} (h : AtRisk C t b k fs₀ i₀ s) {p : Path OsName}
    (hp : ∀ q, p ≠ (objectPairing C).payload :: q) :
    AtRisk C t b k fs₀ i₀ (Cut.after env s (.rmdir p)) where
  exposed := h.exposed.after (by simp)
  pairs := h.pairs.exec hp
  shrunk := h.shrunk.trans (.rmdir env.fits p)

theorem removeMeta_steps (h : Before C t b k s) :
    Steps env (Guarded C t b k) (removeIfPresent (metaPath (objectDir (bucketDir b) k))).run s
      fun r s' => Before C t b k s' ∧
        (r = .ok () → s'.1.tree.Lost env.fits (metaPath (objectDir (bucketDir b) k))) := by
  have call : Steps env (Guarded C t b k)
      (TokioFs.removeFile (metaPath (objectDir (bucketDir b) k))).run s
      fun _ s' => Before C t b k s' := .call (.call h.guarded h.unlink.guarded h.unlink)
  have removed : Steps env (Guarded C t b k)
      (removeIfPresent (metaPath (objectDir (bucketDir b) k))).run s
        fun _ s' => Before C t b k s' := by
    refine call.bindLift fun r s' h' => ?_
    cases r with
    | ok _ => exact .pureE h'.guarded h'
    | error e =>
        dsimp only
        split
        · exact .pureE h'.guarded h'
        · exact .throw h'.guarded h'
  refine removed.with_run.mono fun r s' h' => ⟨h'.1, ?_⟩
  rintro rfl
  exact (removeIfPresent_ok h'.2).2

/-- The data file goes. If it was there, its directory is at risk. -/
theorem removeData_steps (h : Before C t b k s) :
    Steps env (Guarded C t b k)
      (removeIfPresent (dataPath (objectDir (bucketDir b) k) NULL_VERSION_ID)).run s
      fun r s' => InPairs C s' ∨ r = .ok () ∧ ∃ i₀, AtRisk C t b k s.1.fs i₀ s' ∧
        s.1.tree.find (objectDir (bucketDir b) k) = some (.dir i₀) := by
  have call : Steps env (Guarded C t b k)
      (TokioFs.removeFile (dataPath (objectDir (bucketDir b) k) NULL_VERSION_ID)).run s
      fun r s' => InPairs C s' ∨ r = .ok () ∧ ∃ i₀, AtRisk C t b k s.1.fs i₀ s' ∧
        s.1.tree.find (objectDir (bucketDir b) k) = some (.dir i₀) := by
    have step : InPairs C (Cut.after env s
          (.unlink (dataPath (objectDir (bucketDir b) k) NULL_VERSION_ID))) ∨
        (s.1.fs.unlink env.fits (dataPath (objectDir (bucketDir b) k) NULL_VERSION_ID)).1 = .ok () ∧
          ∃ i₀, AtRisk C t b k s.1.fs i₀ (Cut.after env s
            (.unlink (dataPath (objectDir (bucketDir b) k) NULL_VERSION_ID))) ∧
          s.1.tree.find (objectDir (bucketDir b) k) = some (.dir i₀) := by
      rcases Fs.unlink_cases env.fits s.1.fs
        (dataPath (objectDir (bucketDir b) k) NULL_VERSION_ID) with
        ⟨n, q, i, a, d, hc, hpath, dir, file, he⟩ | ⟨e, he⟩
      · obtain ⟨-, rfl⟩ := List.cons_eq_cons.mp hpath
        have there : t.fileAt (dataPath (objectDir (bucketDir b) k) NULL_VERSION_ID) ≠ none := by
          rw [← h.data, World.tree, FileTree.fileAt_eq_some.mpr ⟨a, file⟩]
          exact Option.some_ne_none d
        refine .inr ⟨by rw [he], i, ⟨⟨there, List.mem_append_right _ List.mem_cons_self, fun j =>
          not_mem_append_singleton (h.unsynced j) (by simp)⟩, ?_, .unlink env.fits _⟩, dir⟩
        refine h.pairs.unlink env.fits (Set.empty_subset _) fun q j hq hj => ?_
        rw [← (List.cons.inj hq).2, dir] at hj
        cases hj
        rfl
      · refine .inl ?_
        change (objectPairing C).Holds ∅ (s.1.fs.unlink env.fits _).2
        rw [he]
        exact h.pairs
    have guarded : Guarded C t b k (Cut.after env s
        (.unlink (dataPath (objectDir (bucketDir b) k) NULL_VERSION_ID))) := by
      rcases step with pairs | ⟨-, i₀, risk, -⟩
      · exact fun _ => pairs
      · exact risk.guarded
    refine .call (.call h.guarded guarded (step.imp_right fun risk => ⟨?_, risk.2⟩))
    change ((s.1.fs.unlink env.fits _).1.mapError ErrorKind.os) = .ok ()
    rw [risk.1]
    rfl
  refine call.last.bindLift fun r s' h' => ?_
  obtain ⟨h', guarded⟩ := h'
  cases r with
  | ok _ => exact .pureE guarded h'
  | error e =>
      have pairs : InPairs C s' := h'.resolve_right fun risk => by cases risk.1
      dsimp only
      split
      · exact .pureE guarded (.inl pairs)
      · exact .throw guarded (.inl pairs)

/-- The `fsync` of a directory on the way that lacks the next name ends the risk. -/
theorem fsyncDir_closes {fs₀ : Fs OsName} {i₀ i : Nat} {m : OsName} {q : Path OsName}
    (h : AtRisk C t b k fs₀ i₀ s) (h₀ : (objectPairing C).Holds ∅ fs₀)
    (hdir : fs₀.tree.find (objectDir (bucketDir b) k) = some (.dir i₀))
    (hs : m :: q <:+ metaPath (objectDir (bucketDir b) k)) (hf : Fit env.fits (m :: q))
    (hq : s.1.tree.find q = some (.dir i)) (absent : s.1.tree.find (m :: q) = none) :
    Steps env (Guarded C t b k) (fsyncDir q).run s fun r s' => r = .ok () ∧ InPairs C s' := by
  have opened : Steps env (Guarded C t b k) (TokioFs.openDir q).run s
      fun r s' => r = .ok i ∧ AtRisk C t b k fs₀ i₀ s' ∧ s'.1 = s.1 := by
    have risk : AtRisk C t b k fs₀ i₀ (Cut.after env s (.openDir q)) := h.looks trivial
    refine .call (.call h.guarded risk.guarded ⟨?_, risk, rfl⟩)
    change (s.1.fs.openDir env.fits q).mapError ErrorKind.os = _
    rw [Fs.openDir_ok hf.tail hq]
    rfl
  refine opened.bindE (fun j s' h' => ?_) fun e s' h' => nomatch h'.1
  obtain ⟨hj, risk, same⟩ := h'
  cases hj
  have closed : InPairs C (Cut.after env s' (.syncDir i)) := by
    have sync := risk.pairs.syncDir i
    rw [← same] at hq absent
    refine sync.close h₀ (risk.shrunk.trans (.syncDir i)) hdir hs hq fun v hv => ?_
    rw [Pairing.slot_of_syncDir risk.pairs.wf hq v hv, Fs.slotAt_of_none absent]
  exact .call (.call risk.guarded (fun _ => closed) ⟨rfl, closed⟩)

/-- `delete_object` after its removals. -/
def pruneAndSync (dir : Path OsName) (key : String) : EngineM Unit := do
  ExceptT.lift (pruneEmptyDirs (objectsDir dir) (objectDir dir key))
  match ← ExceptT.lift (deepestExisting (objectsDir dir) (objectDir dir key)) with
  | none => pure ()
  | some deepest =>
    match ← ExceptT.lift (fsyncDir deepest).run with
    | .ok () => pure ()
    | .error e => if e.kind = .notFound then pure () else throw (.ofIo e)

theorem deleteLocked_eq (dir : Path OsName) (k : String) : deleteLocked dir k = (do
    liftIo (removeIfPresent (metaPath (objectDir dir k)))
    liftIo (removeIfPresent (dataPath (objectDir dir k) NULL_VERSION_ID))
    pruneAndSync dir k) := rfl

/-- Only directories of the way are pruned, and none is named like a data file. -/
theorem not_payload_of_suffix (hv : isValidBucketName b = true) {p : Path OsName}
    (hp : p <:+ objectDir (bucketDir b) k) (q : Path OsName) :
    p ≠ (objectPairing C).payload :: q := by
  rintro rfl
  exact (other_objectDir hv (hp.subset List.mem_cons_self)).2 rfl

theorem tame_pruneAndSync (hv : isValidBucketName b = true) :
    (pruneAndSync (bucketDir b) k).run.All (TameOp C) := by
  refine .bindE (.lift (all_pruneEmptyDirs fun q hq _ _ =>
    Prog.all_call (not_payload_of_suffix hv hq))) fun _ =>
    .bindE (.lift ((readOnly_deepestExisting _ _).mono tame_reads)) fun r => ?_
  cases r with
  | none => exact Prog.all_pureE _
  | some deepest =>
      refine .bindE (.lift ((readOnly_fsyncDir _).mono tame_reads)) fun r => ?_
      cases r with
      | ok _ => exact Prog.all_pureE _
      | error e =>
          dsimp only
          split
          · exact Prog.all_pureE _
          · exact Prog.all_throw _

/-- The deepest directory left on the way is within the bucket's objects. -/
theorem stop_suffix {stop p q : Path OsName} {m : OsName} {tree : FileTree OsName} (hs : stop <:+ p)
    (hq : m :: q <:+ p) (there : tree.IsDir stop) (absent : tree.find (m :: q) = none) :
    stop <:+ q := by
  by_contra hne
  have below : m :: q <:+ stop := by
    refine List.suffix_of_suffix_length_le hq hs ?_
    by_contra short
    refine hne (List.suffix_of_suffix_length_le hs ((List.suffix_cons m q).trans hq) ?_)
    rw [List.length_cons] at short
    omega
  obtain ⟨i, hi⟩ := there
  rw [find_none_below absent below] at hi
  cases hi

theorem pruneAndSync_steps {fs₀ : Fs OsName} {i₀ : Nat} (hv : isValidBucketName b = true)
    (h : AtRisk C t b k fs₀ i₀ s) (h₀ : (objectPairing C).Holds ∅ fs₀)
    (hdir : fs₀.tree.find (objectDir (bucketDir b) k) = some (.dir i₀))
    (lost : s.1.tree.Lost env.fits (metaPath (objectDir (bucketDir b) k)))
    (stop : s.1.tree.IsDir (objectsDir (bucketDir b))) :
    Steps env (Guarded C t b k) (pruneAndSync (bucketDir b) k).run s fun _ s' => InPairs C s' := by
  have pruned : Steps env (Guarded C t b k)
      (pruneEmptyDirs (objectsDir (bucketDir b)) (objectDir (bucketDir b) k)) s
      fun _ s' => AtRisk C t b k fs₀ i₀ s' :=
    Prog.Passes.of_all
      (P := fun o : Sys OsName LockName => ∃ p, o = .rmdir p ∧
        ∀ q, p ≠ (objectPairing C).payload :: q)
      (all_pruneEmptyDirs fun q hq _ _ => Prog.all_call ⟨q, rfl, not_payload_of_suffix hv hq⟩)
      (by
        rintro _ s' ⟨p, rfl, hp⟩ h'
        exact h'.rmdir hp) (fun _ => AtRisk.guarded) h
  refine pruned.with_run.bindLift fun _ s₁ h₁ => ?_
  obtain ⟨risk, hrun⟩ := h₁
  obtain ⟨ps, dropped, spec⟩ := prune_dropped env (objectsDir (bucketDir b))
    (objectDir (bucketDir b) k) s.1
  rw [hrun] at dropped
  obtain ⟨m, q, hs, hf, ⟨i, hi⟩, absent⟩ := dropped.lost lost
  have way : objectsDir (bucketDir b) <:+ objectDir (bucketDir b) k := List.suffix_append _ _
  have stop₁ : s₁.1.tree.IsDir (objectsDir (bucketDir b)) := by
    obtain ⟨j, hj⟩ := stop
    refine ⟨j, ?_⟩
    rw [World.tree, dropped.find, if_neg fun hp => (spec _ hp).1 rfl, hj]
  have below : q <:+ objectDir (bucketDir b) k := by
    rcases List.suffix_cons_iff.mp hs with heq | hs
    · rw [(List.cons.inj heq).2]
    · exact (List.suffix_cons m q).trans hs
  -- what the search for the deepest directory finds
  obtain ⟨w₂, hdeep, same⟩ := deepestExisting_eq hf.tail (w := s₁.1) way below
    (by rw [World.tree, hi]; exact Option.some_ne_none _) fun x hx hq hne =>
      find_none_below absent (next_suffix hs (hx.trans (List.suffix_cons _ _)) hq hne)
  rw [if_pos (stop_suffix (way.trans (List.suffix_cons _ _)) hs stop₁ absent)] at hdeep
  have searched : Steps env (Guarded C t b k)
      (deepestExisting (objectsDir (bucketDir b)) (objectDir (bucketDir b) k)) s₁
      fun _ s' => AtRisk C t b k fs₀ i₀ s' :=
    Prog.Passes.of_all (P := Looks) (all_deepestExisting looks_tryExists _ _)
      (fun _ _ ho h' => h'.looks ho) (fun _ => AtRisk.guarded) risk
  refine searched.with_run.bindLift fun r s₂ h₂ => ?_
  obtain ⟨risk₂, hrun₂⟩ := h₂
  rw [hdeep] at hrun₂
  cases hrun₂
  have synced : Steps env (Guarded C t b k) (fsyncDir q).run s₂ fun r s' =>
      r = .ok () ∧ InPairs C s' :=
    fsyncDir_closes risk₂ h₀ hdir hs hf (by rw [World.tree, same]; exact hi)
      (by rw [World.tree, same]; exact absent)
  refine synced.bindLift fun r s₃ h₃ => ?_
  obtain ⟨rfl, pairs⟩ := h₃
  exact .pureE (fun _ => pairs) pairs

theorem deleteLocked_steps (hv : isValidBucketName b = true) (h : Before C t b k s) :
    Steps env (Guarded C t b k) (deleteLocked (bucketDir b) k).run s fun _ s' => InPairs C s' := by
  rw [deleteLocked_eq]
  have removed : Steps env (Guarded C t b k)
      (liftIo (removeIfPresent (metaPath (objectDir (bucketDir b) k)))).run s fun r s' =>
        Before C t b k s' ∧
          (r = .ok () → s'.1.tree.Lost env.fits (metaPath (objectDir (bucketDir b) k))) :=
    .adapt (removeMeta_steps h |>.mono fun r s' h' => ⟨h'.1, fun hr => h'.2 (by
      cases r with
      | ok _ => rfl
      | error e => cases hr)⟩)
  refine removed.bindE (fun _ s₁ h₁ => ?_) fun _ _ h₁ => h₁.1.pairs
  have cleared : Steps env (Guarded C t b k)
      (liftIo (removeIfPresent (dataPath (objectDir (bucketDir b) k) NULL_VERSION_ID))).run s₁
      fun r s' => InPairs C s' ∨ (∃ i₀, AtRisk C t b k s₁.1.fs i₀ s' ∧
        s₁.1.tree.find (objectDir (bucketDir b) k) = some (.dir i₀)) ∧ r = .ok () ∧
        ∃ ps, Dropped env.fits s₁.1.fs ps s'.1.fs ∧
          ∀ p ∈ ps, p = dataPath (objectDir (bucketDir b) k) NULL_VERSION_ID := by
    refine .adapt ((removeData_steps h₁.1).with_run.mono fun r s' h' => ?_)
    obtain ⟨pairs | ⟨rfl, risk⟩, hrun⟩ := h'
    · exact .inl pairs
    · exact .inr ⟨risk, rfl, (removeIfPresent_ok hrun).1⟩
  refine cleared.bindE (fun _ s₂ h₂ => ?_) fun _ _ h₂ => h₂.resolve_right
    fun risk => nomatch risk.2.1
  rcases h₂ with pairs | ⟨⟨i₀, risk, hdir⟩, -, ps, dropped, spec⟩
  · exact tame_steps (tame_pruneAndSync hv) (fun _ pairs _ => pairs) pairs
  · refine pruneAndSync_steps hv risk h₁.1.pairs hdir (dropped.lost (h₁.2 rfl)) ?_
    have up := FileTree.isDir_of_suffix ⟨i₀, hdir⟩
      (List.suffix_append _ _ : objectsDir (bucketDir b) <:+ objectDir (bucketDir b) k)
    obtain ⟨j, hj⟩ := up
    refine ⟨j, ?_⟩
    rw [World.tree, dropped.find, if_neg, hj]
    intro hp
    have := congrArg List.length (spec _ hp)
    simp only [dataPath, objectDir, List.length_cons, List.length_append] at this
    omega

/-- **In every state of a delete but those between the removal of the data and the `fsync`, the
manifests are paired with their data; so they are when it returns.** -/
theorem deleteObject_steps (h : InPairs C s) (hs : s.2 = []) :
    Steps env (Guarded C s.1.tree b k) (deleteObject b k).run s fun _ s' => InPairs C s' := by
  have start : Before C s.1.tree b k s := ⟨h, rfl, by rw [hs]; exact fun _ => List.not_mem_nil⟩
  have bucket : Steps env (Guarded C s.1.tree b k) (existingBucketDir b).run s
      fun _ s' => Before C s.1.tree b k s' :=
    Prog.Passes.of_all (P := Looks) (all_existingBucketDir b fun _ => Prog.all_call trivial)
      (fun _ _ ho h' => h'.looks ho) (fun _ => Before.guarded) start
  refine bucket.with_run.bindE (fun d s₁ h₁ => ?_) fun _ _ h₁ => h₁.1.pairs
  obtain ⟨h₁, hrun⟩ := h₁
  obtain ⟨hv, rfl, -⟩ := existingBucketDir_ok hrun
  have lock : ∀ (l : LockName) (s' : Cut) (step : LockStep), Guarded C s.1.tree b k s' →
      Guarded C s.1.tree b k (s'.1, s'.2 ++ [.lock l step]) :=
    fun l s' step hg hx => hg fun he => hx (he.after (by simp))
  have locked : ∀ {s' : Cut} (l : LockName) (step : LockStep), Before C s.1.tree b k s' →
      Before C s.1.tree b k (s'.1, s'.2 ++ [.lock l step]) :=
    fun l step h' => ⟨h'.pairs, h'.data, fun i =>
      not_mem_append_singleton (h'.unsynced i) (by simp)⟩
  refine withLock_steps (lock _) (fun _ _ _ => id) h₁.guarded ?_
  have h₂ := locked (.bucket b) (.take .shared) (locked (.bucket b) .refer h₁)
  refine withLock_steps (lock _) (fun _ _ _ => id) h₂.guarded ?_
  exact deleteLocked_steps hv (locked (.key b k) (.take .exclusive) (locked (.key b k) .refer h₂))

end Delete

/-! ## Runs -/

/-- A request that stores or removes an object. -/
def Req.Stores : Req → Prop
  | .putObject _ _ _ _ | .deleteObject _ _ => True
  | _ => False

/-- The request is a delete caught between the removal of its data file and its `fsync`. -/
def Req.Exposed (t : FileTree OsName) (calls : List (Sys OsName LockName)) : Req → Prop
  | .deleteObject b k => Engine.Exposed t b k calls
  | _ => False

/-- A data directory as it is after a boot: everything is on disk, and every manifest has its
data. -/
structure AtRest (C : Crates) (fs : Fs OsName) : Prop where
  wf : fs.Wf
  settled : ∀ p, fs.Settled p
  synced : ∀ p, fs.Synced p
  plain : ∀ dir, ¬ fs.tree.IsDir (metaPath dir)
  unstaged : fs.tree.fileAt (metaPath tmpDir) = none
  manifests : ∀ dir bytes, fs.tree.fileAt (metaPath dir) = some bytes →
    ManifestOk C bytes ∧ fs.tree.fileAt (dataPath dir NULL_VERSION_ID) ≠ none

theorem AtRest.pairs {fs : Fs OsName} (h : AtRest C fs) : (objectPairing C).Holds ∅ fs :=
  Pairing.holds_of_settled h.wf h.settled h.synced h.plain h.unstaged h.manifests

section Runs

variable {env : Env OsName} {s : Cut} {r : Req}

theorem serve_steps (hr : r.Stores) (h : InPairs C s) (hs : s.2 = []) :
    Steps env (fun s' => ¬ r.Exposed s.1.tree s'.2 → InPairs C s') (serve C r) s
      fun _ s' => InPairs C s' := by
  cases r with
  | putObject b k body opts =>
      have put : Steps env (fun s' => ¬ False → InPairs C s') (putObject C b k body opts).run s
          fun _ s' => InPairs C s' := (putObject_steps body opts h).weaken fun _ h _ => h
      exact put.bindE (fun _ _ h' => .pureE (fun _ => h') h') fun _ _ h' => h'
  | deleteObject b k =>
      exact (deleteObject_steps h hs).bindE (fun _ _ h' => .pureE (fun _ => h') h') fun _ _ h' => h'
  | _ => exact hr.elim

/-- **Requests that run to their end keep the manifests paired with their data.** -/
theorem serveAll_pairs : ∀ {reqs : List (Nat × Req)} {w : World OsName},
    (∀ x ∈ reqs, x.2.Stores) → (objectPairing C).Holds ∅ w.fs →
      (objectPairing C).Holds ∅ (serveAll env C w reqs).2.fs
  | [], _, _, h => h
  | (now, r) :: reqs, w, hreqs, h => by
      have one : Steps env _ (serve C r) ({ w with clock := now }, []) _ :=
        serve_steps (hreqs _ List.mem_cons_self) h rfl
      obtain ⟨pairs, hrun⟩ := one.with_run.post
      rw [serveAll, runAlone, hrun]
      exact serveAll_pairs (fun x hx => hreqs x (List.mem_cons_of_mem _ hx)) pairs

end Runs

/-! ## After the power loss -/

/-- Every version that a manifest speaks of has its data. -/
def NoDangling (C : Crates) (t : FileTree OsName) : Prop :=
  ∀ dir path bytes m, t.fileAt (metaPath dir) = some bytes → parseManifest C path bytes = .ok m →
    ∀ e ∈ m.versions, e.deleteMarker = false → t.fileAt (dataPath dir e.versionId) ≠ none

theorem noDangling_of_powerLoss {fs : Fs OsName} {t : FileTree OsName}
    (h : (objectPairing C).Holds ∅ fs) (ht : fs.PowerLoss t) : NoDangling C t := by
  intro dir path bytes m hm hp e he hdel
  obtain ⟨ok, there⟩ := h.powerLoss ht hm
  rw [ok path m hp e he hdel]
  exact there

/-- A file that is there is not reported missing. -/
theorem readFile_ne_notFound {fs : Fs OsName} {fits : OsName → Bool} {p : Path OsName}
    (h : fs.tree.fileAt p ≠ none) : fs.readFile fits p ≠ .error .notFound := by
  intro hr
  rw [Fs.readFile] at hr
  split at hr
  · rename_i e he
    cases hr
    obtain ⟨m, q, hs, -, -, absent⟩ := FileTree.lost_of_resolve he
    exact FileTree.find_ne_none_of_fileAt h (find_none_below absent hs)
  · cases hr
  · cases hr

theorem versionOf_ok {path : Path OsName} {r : Except ErrorKind Bytes} {e : VersionEntry}
    (h : versionOf C path r = .ok e) : ∃ bytes m, r = .ok bytes ∧
      parseManifest C path bytes = .ok m ∧ e ∈ m.versions ∧ e.deleteMarker = false := by
  rw [versionOf] at h
  cases r with
  | error x =>
      rw [manifestOf] at h
      split at h
      · cases h
      · rename_i m hm
        split at hm <;> cases hm
        cases h
  | ok bytes =>
      rw [manifestOf] at h
      cases hp : parseManifest C path bytes with
      | error x =>
          rw [hp] at h
          cases h
      | ok m =>
          rw [hp] at h
          refine ⟨bytes, m, rfl, hp, ?_⟩
          dsimp only [Except.map, liveOf] at h
          cases hl : m.latest with
          | none =>
              rw [hl] at h
              cases h
          | some x =>
              rw [hl] at h
              cases hd : x.deleteMarker with
              | true =>
                  simp only [hd, if_true] at h
                  cases h
              | false =>
                  simp only [hd, Bool.false_eq_true, if_false] at h
                  cases h
                  exact ⟨List.mem_of_mem_head? hl, hd⟩

/-- Where no manifest dangles, a key that is reported can be read. -/
theorem getObject_of_headObject {env : Env OsName} {w : World OsName} {b k : String}
    {info : ObjectInfo} (h : NoDangling C w.tree)
    (hh : ((headObject C b k).run.run (engineExec env) w).1 = .ok info) (range : Option ByteRange) :
    ((getObject C b k range).run.run (engineExec env) w).1 ≠ .error .noSuchKey := by
  generalize hrun : (headObject C b k).run.run (engineExec env) w = y at hh
  obtain ⟨_, w'⟩ := y
  cases hh
  obtain ⟨_, w₁, bucket, hrun⟩ := Prog.ok_of_bind hrun
  obtain ⟨e, w₂, live, -⟩ := Prog.ok_of_bind hrun
  obtain ⟨hv, rfl, hf, hd, same⟩ := existingBucketDir_ok bucket
  rw [liveVersion_read, same] at live
  obtain ⟨version, -⟩ := Prod.mk.inj live
  obtain ⟨bytes, m, read, parsed, mem, hdel⟩ := versionOf_ok version
  have there := h _ _ bytes m (readFile_eq_ok read).2 parsed e mem hdel
  rw [getObject_read env C k range hv hf hd, version, objectOf]
  split
  · rename_i x hx
    rw [(resolveRange_eq_error.mp hx).1]
    intro he
    cases he
  · split
    · rename_i x hx
      split
      · rename_i hk
        rw [hk] at hx
        exact absurd hx (readFile_ne_notFound there)
      · rename_i hk
        intro he
        cases x <;> first | exact hk rfl | cases he
    · intro he
      split at he <;> cases he

/-- **No dangling manifest after a power loss**, unless it strikes a delete that has removed its
data file and not yet synced: whatever puts and deletes ran before, whatever call is under way and
wherever it is cut off, every manifest found afterwards has the data of each of its versions, and
no key is reported that cannot be read. -/
theorem no_dangling_manifest (env : Env OsName) (C : Crates) (w w₁ w₂ : World OsName)
    (reqs : List (Nat × Req)) (now : Nat) (r : Req) (calls : List (Sys OsName LockName))
    (hrest : AtRest C w.fs) (hreqs : ∀ x ∈ reqs, x.2.Stores) (hr : r.Stores)
    (hcut : Prog.Visits (Prog.logged (World.exec env)) ((serve C r).interp Op.code)
      ({ (serveAll env C w reqs).2 with clock := now }, []) (w₁, calls))
    (hsafe : ¬ r.Exposed (serveAll env C w reqs).2.tree calls) (hloss : w₁.fs.PowerLoss w₂.tree) :
    NoDangling C w₂.tree ∧
      ∀ b k info, ((headObject C b k).run.run (engineExec env) w₂).1 = .ok info →
        ∀ range, ((getObject C b k range).run.run (engineExec env) w₂).1 ≠ .error .noSuchKey := by
  have before : (objectPairing C).Holds ∅ (serveAll env C w reqs).2.fs :=
    serveAll_pairs hreqs hrest.pairs
  have along : Steps env _ (serve C r) ({ (serveAll env C w reqs).2 with clock := now }, []) _ :=
    serve_steps hr before rfl
  have pairs := along.visits _ hcut hsafe
  have paired := noDangling_of_powerLoss pairs hloss
  exact ⟨paired, fun b k info => getObject_of_headObject paired⟩

/-! ## The delete that is caught -/

/-- The machine with one object, all on disk. -/
def storedWorld : World OsName := ⟨storedFs, 0, 0⟩

/-- The delete of that object after some of its calls. -/
def deleteCut (n : Nat) : Cut :=
  Prog.cut (Prog.logged (World.exec sampleEnv)) n
    ((serve (sizedCrates 1) (.deleteObject "aaa" "k")).interp Op.code) (storedWorld, [])

theorem synced_writeFile {fs : Fs OsName} (h : InOrder fs) (p : Path OsName) (bytes : Bytes)
    (hok : (((fs.createNew sampleEnv.fits p).2.append sampleEnv.fits bytes p).2.syncFile
      sampleEnv.fits p).1 = .ok ()) (hs : ∀ q, fs.Synced q) (q : Path OsName) :
    (writeFile fs p bytes).Synced q := by
  by_cases hq : q = p
  · rw [hq]
    exact Fs.synced_syncFile hok
  · have made := h.change (Fs.change_createNew sampleEnv.fits fs p)
    have written := made.change (Fs.change_append sampleEnv.fits _ bytes p)
    refine (Fs.kept_syncFile written.wf _ p).synced q (Set.notMem_empty q) ?_
    refine (Fs.kept_append made.wf _ bytes p).synced q hq ?_
    exact (Fs.kept_createNew h.wf _ p).synced q hq (hs q)

theorem synced_mkdirs : ∀ (pls : List Place) {fs : Fs OsName}, InOrder fs → (∀ q, fs.Synced q) →
    ∀ q, (pls.foldl (fun fs pl => (fs.mkdir sampleEnv.fits pl.path).2) fs).Synced q
  | [], _, _, hs => hs
  | pl :: pls, _, h, hs => synced_mkdirs pls (h.change (Fs.change_mkdir _ _ _)) fun q =>
      (Fs.kept_mkdir h.wf _ pl.path).synced q (Set.notMem_empty q) (hs q)

theorem synced_storedFs (q : Path OsName) : storedFs.Synced q := by
  have start : InOrder (Fs.empty : Fs OsName) := ⟨Fs.wf_empty, Fs.syncedCurrent_empty⟩
  have none : ∀ q, (Fs.empty : Fs OsName).Synced q := by
    intro q i d hq
    cases q <;> cases hq
  have dirs := synced_mkdirs [Place.buckets, .bucket "aaa", .objects "aaa",
    .object "aaa" "k"] start none
  have data : ∀ q, dataFs.Synced q := synced_writeFile (InOrder.mkdirs _ start) _ [7] rfl dirs
  exact synced_writeFile inOrder_dataFs _ _ rfl data q

/-- The one manifest of the tree. -/
theorem manifest_storedFs {dir : Path OsName} (h : storedFs.tree.find (metaPath dir) ≠ none) :
    dir = (Place.object "aaa" "k").path := by
  have mem : metaPath dir ∈ storedFs.tree.nodes.keys :=
    AList.lookup_isSome.mp (Option.isSome_iff_ne_none.mpr h)
  have only : ∀ p ∈ storedFs.tree.nodes.keys, p.head? = some (utf8 META_FILE) →
      p.tail = (Place.object "aaa" "k").path := by decide +kernel
  exact only _ mem rfl

theorem atRest_storedFs : AtRest (sizedCrates 1) storedFs where
  wf := inOrder_storedFs.wf
  settled := Fs.settled_flushAll inOrder_unsyncedFs.wf
  synced := synced_storedFs
  plain := by
    rintro dir ⟨i, hi⟩
    obtain rfl := manifest_storedFs (by rw [hi]; exact Option.some_ne_none _)
    have file : storedFs.tree.fileAt (metaPath (Place.object "aaa" "k").path) ≠ none := by
      decide +kernel
    exact file (FileTree.fileAt_of_isDir ⟨i, hi⟩)
  unstaged := rfl
  manifests := by
    intro dir bytes hb
    have there : storedFs.tree.fileAt (metaPath dir) ≠ none := by
      rw [hb]
      exact Option.some_ne_none bytes
    obtain rfl := manifest_storedFs (FileTree.find_ne_none_of_fileAt there)
    have file : storedFs.tree.fileAt (metaPath (Place.object "aaa" "k").path) =
        some ((sizedCrates 1).manifestJson.toVec (sizedManifest 1)) := rfl
    rw [file] at hb
    cases hb
    refine ⟨fun path m hp e he _ => ?_, by decide +kernel⟩
    rw [parseManifest_toVec _ _ (le_refl MANIFEST_FORMAT)] at hp
    cases hp
    rw [List.mem_singleton.mp he]

theorem dropped_caught : Dropped sampleEnv.fits storedFs [(Place.manifest "aaa" "k").path,
    (Place.data "aaa" "k").path] (deleteCut 7).1.fs :=
  .unlink rfl (.unlink rfl (.nil _))

theorem hasChild_data :
    storedFs.tree.hasChild (utf8 (dataFileName NULL_VERSION_ID) :: (Place.object "aaa" "k").path) =
      false := by
  decide +kernel

/-- What a power loss then leaves when the first removal is undone and the second is not. -/
def danglingWorld : World OsName :=
  ⟨{ storedFs with
    tree := storedFs.tree.remove (utf8 (dataFileName NULL_VERSION_ID)) (Place.object "aaa" "k").path
      hasChild_data }, 0, 0⟩

/-- **A power loss can leave a manifest without its data.** It strikes a delete after its two
removals: the key is then reported, and cannot be read. -/
theorem dangling_after_powerLoss : AtRest (sizedCrates 1) storedWorld.fs ∧
    Prog.Visits (Prog.logged (World.exec sampleEnv))
      ((serve (sizedCrates 1) (.deleteObject "aaa" "k")).interp Op.code) (storedWorld, [])
      (deleteCut 7) ∧
    (deleteCut 7).1.fs.PowerLoss danglingWorld.tree ∧
    ¬ NoDangling (sizedCrates 1) danglingWorld.tree ∧
    (∃ info, ((headObject (sizedCrates 1) "aaa" "k").run.run (engineExec sampleEnv)
      danglingWorld).1 = .ok info) ∧
    ((getObject (sizedCrates 1) "aaa" "k" none).run.run (engineExec sampleEnv)
      danglingWorld).1 = .error .noSuchKey := by
  have bucket : danglingWorld.tree.IsDir (bucketDir "aaa") := ⟨2, rfl⟩
  have manifest : danglingWorld.fs.readFile sampleEnv.fits
      (metaPath (objectDir (bucketDir "aaa") "k")) =
        .ok ((sizedCrates 1).manifestJson.toVec (sizedManifest 1)) := rfl
  have version : versionOf (sizedCrates 1) (metaPath (objectDir (bucketDir "aaa") "k"))
      (.ok ((sizedCrates 1).manifestJson.toVec (sizedManifest 1))) =
      .ok ⟨NULL_VERSION_ID, etagA, 1, DEFAULT_CONTENT_TYPE, .empty, 0, false, none⟩ := by
    rw [versionOf, manifestOf, parseManifest_toVec _ _ (le_refl MANIFEST_FORMAT)]
    rfl
  have get : ((getObject (sizedCrates 1) "aaa" "k" none).run.run (engineExec sampleEnv)
      danglingWorld).1 = .error .noSuchKey := by
    rw [getObject_read sampleEnv (sizedCrates 1) "k" none (by decide)
      (fun _ _ => rfl) bucket, manifest,
      version]
    rfl
  have head : ∃ info, ((headObject (sizedCrates 1) "aaa" "k").run.run (engineExec sampleEnv)
      danglingWorld).1 = .ok info := by
    have live := liveVersion_read sampleEnv (sizedCrates 1) { danglingWorld with tick := 1 }
      (objectDir (bucketDir "aaa") "k")
    rw [show ({ danglingWorld with tick := 1 } : World OsName).fs.readFile sampleEnv.fits
      (metaPath (objectDir (bucketDir "aaa") "k")) = _ from manifest, version] at live
    rw [headObject, Prog.run_bind_ok (existingBucketDir_of_isDir (by decide)
      (fun _ _ => rfl) bucket)]
    exact ⟨_, congrArg Prod.fst (Prog.run_bind_ok live)⟩
  refine ⟨atRest_storedFs, Prog.visits_cut _ 7 _ _, ?_, fun h => ?_, head, get⟩
  · have undone := dropped_caught.powerLoss
      (Fs.powerLoss_self inOrder_storedFs.wf inOrder_storedFs.current)
    have dir : storedFs.tree.find (Place.object "aaa" "k").path = some (.dir 4) := rfl
    have lost : none ∈ (deleteCut 7).1.fs.disk 4 (utf8 (dataFileName NULL_VERSION_ID)) := by
      decide +kernel
    exact undone.remove dir lost hasChild_data
  · obtain ⟨info, head⟩ := head
    exact getObject_of_headObject h head none get

/-- Cut off one call earlier, the delete does no harm: the manifest may come back, with its data. -/
theorem no_dangling_manifest_early : NoDangling (sizedCrates 1) storedWorld.tree :=
  (no_dangling_manifest sampleEnv (sizedCrates 1) storedWorld (deleteCut 6).1 storedWorld [] 0
    (.deleteObject "aaa" "k") (deleteCut 6).2 atRest_storedFs (fun _ h => absurd h List.not_mem_nil)
    trivial (Prog.visits_cut _ 6 _ _) (fun h => absurd h.2.1 (by decide +kernel))
    ((Dropped.unlink rfl (.nil _) :
      Dropped sampleEnv.fits storedFs [(Place.manifest "aaa" "k").path]
      (deleteCut 6).1.fs).powerLoss
        (Fs.powerLoss_self inOrder_storedFs.wf inOrder_storedFs.current))).1

end Aks3.Engine
