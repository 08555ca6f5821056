import Aks3.Engine.FsEngine

/-!
# What the engine's methods ask for

For each method the operations it can come to, however they are answered. Reading methods
ask for nothing that changes the tree or the lock tables (`ReadOnly`). For the others the
lemmas say which operations remain: a property of operations that holds of those holds of
all (`all_commit` and its siblings), so what a method leaves alone is read off its
operations.
-/

set_option autoImplicit false

namespace Aks3.Engine

open Lib

/-! ## Reading -/

/-- An operation that changes neither the tree nor the lock tables. -/
def Reads : Op → Prop
  | .call (.metadata _) | .call (.tryExists _) | .call (.openDir _) | .call (.syncDir _)
  | .call (.read _) | .call (.seek _ _) | .call (.readDir _) | .call (.sortedKeys _) | .prim .now
  | .prim .recv => True
  | _ => False

abbrev ReadOnly {α : Type} (p : EngineProg α) : Prop := Prog.All (S := engineSig) Reads p

/-- A system call that changes neither the tree nor the lock tables. -/
def Peeks : Sys OsName LockName → Prop
  | .stat _ | .openDir _ | .syncDir _ | .readFile _ | .seek _ _ | .readDir _ | .budget | .now
  | .recv => True
  | _ => False

/-- A reading operation makes reading calls only. -/
theorem all_code_of_reads {P : Sys OsName LockName → Prop} (h : ∀ s, Peeks s → P s) (o : Op)
    (ho : Reads o) : o.code.All P := by
  cases o with
  | prim s => cases s <;> first | exact ho.elim | exact Prog.all_call (h _ trivial)
  | call c =>
      cases c with
      | tryExists p =>
          refine Prog.All.bind (Prog.all_call (h _ trivial)) fun r => ?_
          cases r with
          | ok s => exact Prog.all_pure _
          | error e =>
              dsimp only
              split <;> exact Prog.all_pure _
      | sortedKeys p => exact all_sortedKeys (h _ trivial) (fun _ => h _ trivial) p
      | metadata | openDir | syncDir | read | seek | readDir => exact Prog.all_call (h _ trivial)
      | _ => exact ho.elim

theorem readOnly_await {c : Call} (h : Reads (.call c)) : ReadOnly (await c) := Prog.all_call h

theorem all_existsOr {P : Op → Prop} {p : Path OsName} (h : P (.call (.tryExists p))) :
    (existsOr p).All P :=
  .bind (Prog.all_call h) fun r => by cases r <;> exact Prog.all_pure _

theorem readOnly_existsOr (p : Path OsName) : ReadOnly (existsOr p) := all_existsOr trivial

theorem readOnly_dirsToSync : ∀ p : Path OsName, ReadOnly (dirsToSync p)
  | [] => (readOnly_existsOr _).bind fun _ => Prog.all_pure _
  | n :: p => (readOnly_existsOr _).bind fun b => by
      split
      · exact Prog.all_pure _
      · exact (readOnly_dirsToSync p).bind fun _ => Prog.all_pure _

theorem readOnly_fsyncDir (p : Path OsName) : ReadOnly (fsyncDir p).run :=
  .bindE (readOnly_await trivial) fun _ => (readOnly_await trivial)

theorem readOnly_syncDirs : ∀ l : List (Path OsName), ReadOnly (syncDirs l).run
  | [] => Prog.all_pureE _
  | dir :: dirs => .bindE (readOnly_fsyncDir dir) fun _ => readOnly_syncDirs dirs

theorem readOnly_loadManifest (C : Crates) (p : Path OsName) : ReadOnly (loadManifest C p).run :=
  .bindE (.lift (readOnly_await trivial)) fun r => by
    cases r with
    | error e =>
        dsimp only
        split
        · exact Prog.all_pureE _
        · exact Prog.all_throw _
    | ok bytes =>
        dsimp only
        split
        · exact Prog.all_throw _
        · exact Prog.all_pureE _

theorem readOnly_liveVersion (C : Crates) (p : Path OsName) : ReadOnly (liveVersion C p).run :=
  .bindE (.adapt (readOnly_loadManifest C _)) fun m => by
    cases m with
    | none => exact Prog.all_throw _
    | some m =>
        dsimp only
        split
        · split
          · exact Prog.all_throw _
          · exact Prog.all_pureE _
        · exact Prog.all_throw _

theorem all_checkedBucketDir {P : Op → Prop} (b : String) : (checkedBucketDir b).run.All P := by
  unfold checkedBucketDir
  split
  · exact Prog.all_pureE _
  · exact Prog.all_throw _

theorem readOnly_checkedBucketDir (b : String) : ReadOnly (checkedBucketDir b).run :=
  all_checkedBucketDir b

theorem all_existingBucketDir {P : Op → Prop} (b : String) (h : ∀ p, P (.call (.metadata p))) :
    (existingBucketDir b).run.All P :=
  .bindE (all_checkedBucketDir b) fun dir => .bindE (.lift (Prog.all_call (h dir))) fun r => by
    cases r with
    | error e =>
        dsimp only
        split
        · exact Prog.all_throw _
        · exact Prog.all_throw _
    | ok m =>
        dsimp only
        split
        · exact Prog.all_pureE _
        · exact Prog.all_throw _

theorem readOnly_existingBucketDir (b : String) : ReadOnly (existingBucketDir b).run :=
  all_existingBucketDir b fun _ => trivial

theorem readOnly_seekStart (size offset : Nat) : ReadOnly (seekStart size offset).run := by
  unfold seekStart
  split
  · exact readOnly_await trivial
  · exact Prog.all_pureE _

theorem readOnly_getObject (C : Crates) (b k : String) (range : Option ByteRange) :
    ReadOnly (getObject C b k range).run :=
  .bindE (readOnly_existingBucketDir b) fun dir => .bindE (readOnly_liveVersion C _) fun e =>
    .bindE (.mk (Prog.all_pure _)) fun x => .bindE (.lift (readOnly_await trivial)) fun r => by
      cases r with
      | error e =>
          dsimp only
          split
          · exact Prog.all_throw _
          · exact Prog.all_throw _
      | ok data => exact .bindE (.adapt (readOnly_seekStart _ _)) fun _ => Prog.all_pureE _

theorem readOnly_headObject (C : Crates) (b k : String) : ReadOnly (headObject C b k).run :=
  .bindE (readOnly_existingBucketDir b) fun _ => .bindE (readOnly_liveVersion C _) fun _ =>
    Prog.all_pureE _

theorem readOnly_bucketExists (b : String) : ReadOnly (bucketExists b).run :=
  .bindE (all_checkedBucketDir b) fun dir => .bindE (.lift (readOnly_await trivial)) fun r => by
    cases r with
    | error e =>
        dsimp only
        split
        · exact Prog.all_pureE _
        · exact Prog.all_throw _
    | ok m => exact Prog.all_pureE _

theorem readOnly_bucketCreatedMs (C : Crates) (dir : Path OsName) :
    ReadOnly (bucketCreatedMs C dir) := by
  have htime : ReadOnly (bucketCreatedMs.directoryTime dir) :=
    .bind (readOnly_await trivial) fun r => by cases r <;> exact Prog.all_pure _
  refine .bind (readOnly_await trivial) fun r => ?_
  cases r with
  | error e => exact htime
  | ok bytes =>
      dsimp only
      split
      · exact Prog.all_pure _
      · exact htime

theorem readOnly_bucketInfos (C : Crates) : ∀ l : List String, ReadOnly (bucketInfos C l)
  | [] => Prog.all_pure _
  | _ :: l => (readOnly_bucketCreatedMs C _).bind fun _ =>
      (readOnly_bucketInfos C l).bind fun _ => Prog.all_pure _

theorem readOnly_listBuckets (C : Crates) : ReadOnly (listBuckets C).run :=
  .bindE (.adapt (readOnly_await trivial)) fun _ => .bindE
    (.lift (readOnly_bucketInfos C _)) fun _ =>
    Prog.all_pureE _

theorem readOnly_hasAnyEntry (dir : Path OsName) : ReadOnly (hasAnyEntry dir).run :=
  .bindE (.lift (readOnly_await trivial)) fun r => by
    cases r with
    | error e =>
        dsimp only
        split
        · exact Prog.all_pureE _
        · exact Prog.all_throw _
    | ok l => exact Prog.all_pureE _

theorem all_deepestExisting {P : Op → Prop} (h : ∀ p, P (.call (.tryExists p)))
    (stop : Path OsName) : ∀ p, (deepestExisting stop p).All P
  | [] => (all_existsOr (h _)).bind fun b => by split <;> exact Prog.all_pure _
  | n :: p => (all_existsOr (h _)).bind fun b => by
      split
      · exact Prog.all_pure _
      · split
        · exact Prog.all_pure _
        · split
          · exact all_deepestExisting h stop p
          · exact Prog.all_pure _

theorem readOnly_deepestExisting (stop p : Path OsName) : ReadOnly (deepestExisting stop p) :=
  all_deepestExisting (fun _ => trivial) stop p

theorem readOnly_listableVersion (C : Crates) (p : Path OsName) :
    ReadOnly (listableVersion C p).run :=
  .bindE (.lift (readOnly_liveVersion C p)) fun r => by
    cases r with
    | ok e => exact Prog.all_pureE _
    | error e => cases e <;> first | exact Prog.all_pureE _ | exact Prog.all_throw _

theorem readOnly_listLoop (C : Crates) (dir : Path OsName) (maxKeys : Nat) (pfx : String)
    (delimiter start : Option String) : ∀ (keys : List String) (out : ListResult),
    ReadOnly (listLoop C dir maxKeys pfx delimiter start keys out).run
  | [], out => Prog.all_pureE _
  | key :: keys, out => by
      have ih := readOnly_listLoop C dir maxKeys pfx delimiter start keys
      rw [listLoop]
      split
      · exact ih out
      dsimp only
      split
      · exact ih out
      split
      · exact ih out
      refine .bindE (readOnly_listableVersion C _) fun e => ?_
      cases e with
      | none => exact ih out
      | some e =>
          dsimp only
          split
          · exact Prog.all_pureE _
          · split
            · exact ih _
            · exact ih _

theorem readOnly_listLocked (C : Crates) (b : String) (p : ListParams) :
    ReadOnly (listLocked C b p).run :=
  .bindE (readOnly_existingBucketDir b) fun dir => by
    split
    · exact Prog.all_pureE _
    · refine .bindE (.adapt (readOnly_await trivial)) fun keys =>
        .bindE (readOnly_listLoop C _ _ _ _ _ _ _) fun out => ?_
      split
      · exact Prog.all_pureE _
      · exact Prog.all_pureE _

theorem returnsOk_checkedBucketDir (b : String) :
    Prog.ReturnsOk (· = bucketDir b) (checkedBucketDir b) := by
  unfold checkedBucketDir
  split
  · exact Prog.returnsOk_pure rfl
  · exact Prog.returnsOk_throw _

theorem returnsOk_existingBucketDir (b : String) :
    Prog.ReturnsOk (· = bucketDir b) (existingBucketDir b) :=
  (returnsOk_checkedBucketDir b).bind fun dir hdir =>
    Prog.ReturnsOk.bind (Q := fun _ => True)
      (Prog.returns_of (fun _ _ _ => trivial) _) fun r _ => by
      cases r with
      | error e =>
          dsimp only
          split
          · exact Prog.returnsOk_throw _
          · exact Prog.returnsOk_throw _
      | ok m =>
          dsimp only
          split
          · exact Prog.returnsOk_pure hdir
          · exact Prog.returnsOk_throw _

/-! ## Writing -/

/-- A staged file may be written. -/
structure Stages (P : Op → Prop) (p : Path OsName) : Prop where
  openNew : P (.call (.openNew p))
  writeAll : ∀ bytes, P (.call (.writeAll p bytes))
  syncAll : P (.call (.syncAll p))
  unlink : P (.prim (.unlink p))

/-- A staged file may be published. -/
structure Commits (P : Op → Prop) (src dst : Path OsName) : Prop where
  stages : Stages P src
  createDirAll : P (.call (.createDirAll (parentDir dst)))
  rename : P (.call (.rename src dst))

/-- `create_bucket` once the directory is made. -/
def describeBucket (C : Crates) (dir : Path OsName) : EngineM Unit := do
  let createdEpochMs ← ExceptT.lift (prim .now)
  match ← ExceptT.lift (writeJsonAtomic tmpDir (bucketMetaPath dir)
      (C.bucketMetaJson.toVec ⟨createdEpochMs⟩)).run with
  | .error e =>
    let _ ← ExceptT.lift (await (.removeDirAll dir))
    throw (.ofIo e)
  | .ok () => liftIo (fsyncDir bucketsDir)

section Writes

variable {P : Op → Prop}

theorem all_create (hu : P (.prim .uuid)) {tmp : Path OsName}
    (hn : ∀ u, P (.call (.openNew (tmpName u :: tmp)))) : (StagedFile.create tmp).run.All P :=
  .bindE (.lift (Prog.all_call hu)) fun u =>
    .bindE (Prog.all_call (hn u)) fun _ => Prog.all_pureE _

/-- A staged file is named by a random name. -/
theorem returnsOk_create (tmp : Path OsName) :
    Prog.ReturnsOk (fun f => ∃ u, f.path = tmpName u :: tmp) (StagedFile.create tmp) :=
  Prog.ReturnsOk.bind (Q := fun _ => True) (Prog.returns_of (fun _ _ _ => trivial) _) fun u _ =>
    Prog.ReturnsOk.bind (Q := fun _ => True) (Prog.returns_of (fun _ _ _ => trivial) _) fun _ _ =>
      Prog.returnsOk_pure ⟨u, rfl⟩

theorem all_drop {f : StagedFile} (hs : Stages P f.path) : f.drop.All P :=
  .bind (Prog.all_call hs.unlink) fun _ => Prog.all_pure _

theorem all_sweepEntries {tmp : Path OsName} (hd : ∀ n, P (.call (.removeDirAll (n :: tmp))))
    (hf : ∀ n, P (.call (.removeFile (n :: tmp)))) : ∀ l, (sweepEntries tmp l).All P
  | [] => Prog.all_pure _
  | (n, .dir) :: l => .bind (Prog.all_call (hd n)) fun _ => all_sweepEntries hd hf l
  | (n, .file) :: l => .bind (Prog.all_call (hf n)) fun _ => all_sweepEntries hd hf l

theorem all_removeIfPresent {p : Path OsName} (h : P (.call (.removeFile p))) :
    (removeIfPresent p).run.All P :=
  .bindE (.lift (Prog.all_call h)) fun r => by
    cases r with
    | error e =>
        dsimp only
        split
        · exact Prog.all_pureE _
        · exact Prog.all_throw _
    | ok u => exact Prog.all_pureE _

theorem all_pruneEmptyDirs {stop : Path OsName} : ∀ {p : Path OsName},
    (∀ q, q <:+ p → q ≠ stop → stop <:+ q → P (.call (.removeDir q))) →
      (pruneEmptyDirs stop p).All P
  | [], _ => Prog.all_pure _
  | n :: p, h => by
      unfold pruneEmptyDirs
      split
      · rename_i hs
        refine .bind (Prog.all_call (h _ List.suffix_rfl hs.1 hs.2)) fun r => ?_
        cases r with
        | error e => exact Prog.all_pure _
        | ok u => exact all_pruneEmptyDirs fun q hq => h q (hq.trans (List.suffix_cons n p))
      · exact Prog.all_pure _

theorem all_withLock {α : Type} {l : LockName} (hl : ∀ step, P (.prim (.lock l step))) (m : Mode)
    {body : EngineProg α} (hb : body.All P) : (withLock l m body).All P :=
  .bind (Prog.all_call (hl _)) fun _ => .bind (Prog.all_call (hl _)) fun _ => hb.bind fun _ =>
    .bind (Prog.all_call (hl _)) fun _ => .bind (Prog.all_call (hl _)) fun _ => Prog.all_pure _

/-- A check that may end the method before the rest of it. -/
theorem all_guard {α β ε : Type} {c : Prop} [Decidable c] {x : ExceptT ε EngineProg α}
    {y : ExceptT ε EngineProg β} (hx : x.run.All P) (hy : y.run.All P) :
    (if c then x >>= fun _ => y else y).run.All P := by
  split
  · exact .bindE hx fun _ => hy
  · exact hy

variable (hr : ∀ o, Reads o → P o)
include hr

theorem all_stageBody {f : StagedFile} (hs : Stages P f.path) : ∀ (body : ByteStream) (d : Digest),
    (stageBody f d body).run.All P
  | [], _ => .bindE (.lift (Prog.all_call (hr _ trivial))) fun _ => Prog.all_pureE _
  | .error _ :: _, _ => .bindE (.lift (Prog.all_call (hr _ trivial))) fun _ => Prog.all_throw _
  | .ok _ :: body, _ => .bindE (.lift (Prog.all_call (hr _ trivial))) fun _ =>
      .bindE (Prog.all_call (hs.writeAll _)) fun _ => all_stageBody hs body _

theorem all_publish {f : StagedFile} {dst : Path OsName} (hc : Commits P f.path dst) :
    (f.publish dst).run.All P :=
  .bindE (Prog.all_call hc.stages.syncAll) fun _ =>
    .bindE (.lift ((readOnly_dirsToSync _).mono hr)) fun _ =>
      .bindE (Prog.all_call hc.createDirAll) fun _ =>
        .bindE (Prog.all_call hc.rename) fun _ => Prog.all_pureE _

theorem all_commit {f : StagedFile} {dst : Path OsName} (hc : Commits P f.path dst) :
    (f.commit dst).run.All P := by
  refine (all_publish hr hc).bind fun r => ?_
  cases r with
  | error e => exact (all_drop hc.stages).bind fun _ => Prog.all_pure _
  | ok l => exact (readOnly_syncDirs l).mono hr

theorem all_writeJsonAtomic (hu : P (.prim .uuid)) {tmp dst : Path OsName}
    (hc : ∀ u, Commits P (tmpName u :: tmp) dst) (bytes : Bytes) :
    (writeJsonAtomic tmp dst bytes).run.All P := by
  refine .bindE_of (all_create hu fun u => (hc u).stages.openNew)
    (returnsOk_create tmp) fun f hf => ?_
  obtain ⟨u, hu⟩ := hf
  have hcf : Commits P f.path dst := hu ▸ hc u
  refine .bindE (.lift (Prog.all_call (hcf.stages.writeAll _))) fun r => ?_
  cases r with
  | error e => exact .bindE (.lift (all_drop hcf.stages)) fun _ => Prog.all_throw _
  | ok u => exact all_commit hr hcf

theorem all_initFormat (C : Crates) (hu : P (.prim .uuid))
    (hc : ∀ u, Commits P (tmpName u :: tmpDir) formatPath) : (initFormat C).run.All P :=
  .bindE (.lift (Prog.all_call (hr _ trivial))) fun r => by
    cases r with
    | error e =>
        dsimp only
        split
        · exact all_writeJsonAtomic hr hu hc _
        · exact Prog.all_throw _
    | ok bytes =>
        dsimp only
        split
        · exact Prog.all_throw _
        · split
          · exact Prog.all_throw _
          · exact Prog.all_pureE _

theorem all_openEngine (C : Crates) (hu : P (.prim .uuid))
    (ht : P (.call (.createDirAll tmpDir))) (hb : P (.call (.createDirAll bucketsDir)))
    (hd : ∀ n, P (.call (.removeDirAll (n :: tmpDir))))
    (hf : ∀ n, P (.call (.removeFile (n :: tmpDir))))
    (hc : ∀ u, Commits P (tmpName u :: tmpDir) formatPath) : (openEngine C).run.All P :=
  .adapt <| .bindE (Prog.all_call ht) fun _ => .bindE (Prog.all_call hb) fun _ =>
    .bindE (.bindE (Prog.all_call (hr _ trivial)) fun _ => .lift (all_sweepEntries hd hf _))
      fun _ => all_initFormat hr C hu hc

theorem all_describeBucket (C : Crates) (hu : P (.prim .uuid)) {dir : Path OsName}
    (hrm : P (.call (.removeDirAll dir)))
    (hc : ∀ u, Commits P (tmpName u :: tmpDir) (bucketMetaPath dir)) :
    (describeBucket C dir).run.All P := by
  refine .bindE (.lift (Prog.all_call (hr _ trivial))) fun _ =>
    .bindE (.lift (all_writeJsonAtomic hr hu hc _)) fun r => ?_
  cases r with
  | error e => exact .bindE (.lift (Prog.all_call hrm)) fun _ => Prog.all_throw _
  | ok u => exact .adapt ((readOnly_fsyncDir _).mono hr)

theorem all_createBucketLocked (C : Crates) (hu : P (.prim .uuid)) {dir : Path OsName}
    (hmk : P (.call (.createDir dir))) (hrm : P (.call (.removeDirAll dir)))
    (hc : ∀ u, Commits P (tmpName u :: tmpDir) (bucketMetaPath dir)) :
    (createBucketLocked C dir).run.All P := by
  refine .bindE (.lift (Prog.all_call hmk)) fun r => ?_
  have hrest : (describeBucket C dir).run.All P := all_describeBucket hr C hu hrm hc
  cases r with
  | error e =>
      dsimp only
      split
      · exact .bindE (Prog.all_throw _) fun _ => hrest
      · exact .bindE (Prog.all_throw _) fun _ => hrest
  | ok u => exact hrest

theorem all_deleteBucketLocked {dir : Path OsName} (hrm : P (.call (.removeDirAll dir))) :
    (deleteBucketLocked dir).run.All P := by
  have hsync : (liftIo (fsyncDir bucketsDir)).run.All P := .adapt ((readOnly_fsyncDir _).mono hr)
  refine .bindE (.adapt (Prog.all_call (hr _ trivial))) fun found => all_guard (Prog.all_throw _) ?_
  refine .bindE (.adapt ((readOnly_hasAnyEntry _).mono hr)) fun any =>
    all_guard (Prog.all_throw _) ?_
  refine .bindE (.lift (Prog.all_call hrm)) fun r => ?_
  cases r with
  | error e =>
      dsimp only
      split
      · exact .bindE (Prog.all_throw _) fun _ => hsync
      · exact .bindE (Prog.all_throw _) fun _ => hsync
  | ok u => exact hsync

theorem all_putLocked (C : Crates) (b : String) (hu : P (.prim .uuid)) {f : StagedFile}
    {dir : Path OsName} (hd : Commits P f.path (dataPath dir NULL_VERSION_ID))
    (hm : ∀ u, Commits P (tmpName u :: tmpDir) (metaPath dir)) (e : VersionEntry) :
    (putLocked C b f dir e).All P := by
  have hpublish : (publishObject C f dir e).run.All P :=
    .bindE (all_commit hr hd) fun _ => .bindE ((readOnly_loadManifest C _).mono hr) fun _ =>
      all_writeJsonAtomic hr hu hm _
  refine ((readOnly_existingBucketDir b).mono hr).bind fun r => ?_
  cases r with
  | error e => exact Prog.all_pure _
  | ok d => exact (Prog.All.adapt hpublish).map

theorem all_deleteLocked {dir : Path OsName} {k : String}
    (hm : P (.call (.removeFile (metaPath (objectDir dir k)))))
    (hd : P (.call (.removeFile (dataPath (objectDir dir k) NULL_VERSION_ID))))
    (hp : ∀ q, q <:+ objectDir dir k → q ≠ objectsDir dir → objectsDir dir <:+ q →
      P (.call (.removeDir q))) : (deleteLocked dir k).run.All P :=
  .bindE (.adapt (all_removeIfPresent hm)) fun _ =>
    .bindE (.adapt (all_removeIfPresent hd)) fun _ =>
      .bindE (.lift (all_pruneEmptyDirs hp)) fun _ =>
        .bindE (.lift ((readOnly_deepestExisting _ _).mono hr)) fun r => by
          cases r with
          | none => exact Prog.all_pureE _
          | some deepest =>
              refine .bindE (.lift ((readOnly_fsyncDir _).mono hr)) fun r => ?_
              cases r with
              | error e =>
                  dsimp only
                  split
                  · exact Prog.all_pureE _
                  · exact Prog.all_throw _
              | ok u => exact Prog.all_pureE _

theorem all_putObject (C : Crates) {b k : String} (hl : ∀ l step, P (.prim (.lock l step)))
    (hu : P (.prim .uuid))
    (hd : ∀ u, Commits P (tmpName u :: tmpDir)
      (dataPath (objectDir (bucketDir b) k) NULL_VERSION_ID))
    (hm : ∀ u, Commits P (tmpName u :: tmpDir) (metaPath (objectDir (bucketDir b) k)))
    (body : ByteStream) (opts : PutOpts) : (putObject C b k body opts).run.All P := by
  refine .bindE_of ((readOnly_existingBucketDir b).mono hr) (returnsOk_existingBucketDir b)
    fun dir hdir => ?_
  subst hdir
  refine .bindE_of (.adapt (all_create hu fun u => (hd u).stages.openNew))
    (returnsOk_create tmpDir).adapt
    fun f hf => ?_
  obtain ⟨u, hfu⟩ := hf
  have hdf : Commits P f.path (dataPath (objectDir (bucketDir b) k) NULL_VERSION_ID) := hfu ▸ hd u
  refine .bindE (.lift (all_stageBody hr hdf.stages body _)) fun r => ?_
  cases r with
  | error e => exact .bindE (.lift (all_drop hdf.stages)) fun _ => Prog.all_throw _
  | ok d =>
      refine .bindE (.lift (Prog.all_call (hr _ trivial))) fun now =>
        .bindE (.lift (all_withLock (hl _) _ (all_withLock (hl _) _
          (all_putLocked hr C b hu hdf hm _)))) fun r => ?_
      cases r with
      | inl e => exact .bindE (.lift (all_drop hdf.stages)) fun _ => Prog.all_throw _
      | inr r =>
          cases r with
          | error e => exact Prog.all_throw _
          | ok u => exact Prog.all_pureE _

theorem all_deleteObject {b k : String} (hl : ∀ l step, P (.prim (.lock l step)))
    (hm : P (.call (.removeFile (metaPath (objectDir (bucketDir b) k)))))
    (hd : P (.call (.removeFile (dataPath (objectDir (bucketDir b) k) NULL_VERSION_ID))))
    (hp : ∀ q, q <:+ objectDir (bucketDir b) k → q ≠ objectsDir (bucketDir b) →
      objectsDir (bucketDir b) <:+ q → P (.call (.removeDir q))) :
    (deleteObject b k).run.All P := by
  refine .bindE_of ((readOnly_existingBucketDir b).mono hr) (returnsOk_existingBucketDir b)
    fun dir hdir => ?_
  subst hdir
  exact all_withLock (hl _) _ (all_withLock (hl _) _ (all_deleteLocked hr hm hd hp))

theorem all_createBucket (C : Crates) {b : String} (hl : ∀ l step, P (.prim (.lock l step)))
    (hu : P (.prim .uuid)) (hmk : P (.call (.createDir (bucketDir b))))
    (hrm : P (.call (.removeDirAll (bucketDir b))))
    (hc : ∀ u, Commits P (tmpName u :: tmpDir) (bucketMetaPath (bucketDir b))) :
    (createBucket C b).run.All P := by
  refine .bindE_of ((all_checkedBucketDir b).mono hr) (returnsOk_checkedBucketDir b)
    fun dir hdir => ?_
  subst hdir
  exact all_withLock (hl _) _ (all_createBucketLocked hr C hu hmk hrm hc)

theorem all_deleteBucket {b : String} (hl : ∀ l step, P (.prim (.lock l step)))
    (hrm : P (.call (.removeDirAll (bucketDir b)))) : (deleteBucket b).run.All P := by
  refine .bindE_of ((all_checkedBucketDir b).mono hr) (returnsOk_checkedBucketDir b)
    fun dir hdir => ?_
  subst hdir
  exact all_withLock (hl _) _ (all_deleteBucketLocked hr hrm)

end Writes

end Aks3.Engine
