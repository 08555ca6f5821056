import Aks3.Engine.Atomic
import Aks3.Engine.BucketName

/-!
# The engine: one directory holds every bucket

The methods of `FsEngine` as programs over the jobs they await and the steps
they take on the lock tables. Buckets live under `buckets/`, staged files under
`.aks3/tmp`, and the objects of a bucket under its `objects/`, one directory per
key with the key's manifest and its data file.

Guards are dropped where the source drops them. A method that fails after it
staged a file removes that file; `putObject` does so after it has given its
locks back, since the file is the older of its locals, unless the failure is the
commit's own, which owns the file.
-/

set_option autoImplicit false

namespace Aks3.Engine

open Lib

/-! ## The layout -/

def AKS3_DIR : OsName := utf8 ".aks3"
def TMP_DIR : OsName := utf8 "tmp"
def FORMAT_FILE : OsName := utf8 "format.json"
def BUCKETS_DIR : OsName := utf8 "buckets"
def BUCKET_META_FILE : OsName := utf8 ".bucket.meta"
def OBJECTS_DIR : OsName := utf8 "objects"
def DEFAULT_CONTENT_TYPE : String := "application/octet-stream"
def READ_CHUNK : Nat := 64 * 1024

/-- `<root>/.aks3/tmp`. -/
def tmpDir : Path OsName := [TMP_DIR, AKS3_DIR]

def formatPath : Path OsName := [FORMAT_FILE, AKS3_DIR]

/-- `<root>/buckets`. -/
def bucketsDir : Path OsName := [BUCKETS_DIR]

/-- `<root>/buckets/<b>`, for a valid name. -/
def bucketDir (b : String) : Path OsName := utf8 b :: bucketsDir

def bucketMetaPath (dir : Path OsName) : Path OsName := BUCKET_META_FILE :: dir

def objectsDir (dir : Path OsName) : Path OsName := OBJECTS_DIR :: dir

/-- The directory holding one key's manifest and data files. -/
def objectDir (dir : Path OsName) (key : String) : Path OsName :=
  keyToRelPath key ++ objectsDir dir

def metaPath (dir : Path OsName) : Path OsName := utf8 META_FILE :: dir

def dataPath (dir : Path OsName) (versionId : String) : Path OsName :=
  utf8 (dataFileName versionId) :: dir

/-! ## Opening a data directory -/

def sweepEntries (tmp : Path OsName) : List (OsName × Kind) → EngineProg Unit
  | [] => pure ()
  | (name, kind) :: entries => do
    -- A failure to remove one entry is logged and skipped.
    match kind with
    | .dir => let _ ← await (.removeDirAll (name :: tmp))
    | .file => let _ ← await (.removeFile (name :: tmp))
    sweepEntries tmp entries

/-- Delete everything in the staging directory. -/
def sweepTmp : IoM Unit := do
  let entries ← TokioFs.readDir tmpDir
  ExceptT.lift (sweepEntries tmpDir entries)

/-- Check the layout version, stamping it if the directory is new. -/
def initFormat (C : Crates) : IoM Unit := do
  match ← ExceptT.lift (TokioFs.read formatPath).run with
  | .error e =>
    if e.kind = .notFound then
      writeJsonAtomic tmpDir formatPath (C.diskFormatJson.toVec ⟨DISK_FORMAT⟩)
    else throw e
  | .ok bytes =>
    match C.diskFormatJson.fromSlice bytes with
    | .error e => throw ⟨.invalidData, e, none⟩
    | .ok onDisk =>
      if onDisk.format > DISK_FORMAT then
        throw ⟨.invalidData, "data directory format " ++ toString onDisk.format ++ " at " ++
          C.display formatPath ++ " is newer than the supported format " ++
          toString DISK_FORMAT, none⟩
      else pure ()

/-- Open, and if necessary initialise, the data directory. -/
def openEngine (C : Crates) : EngineM Unit := liftIo do
  TokioFs.createDirAll tmpDir
  TokioFs.createDirAll bucketsDir
  sweepTmp
  initFormat C

/-! ## Buckets -/

def checkedBucketDir (b : String) : EngineM (Path OsName) :=
  if isValidBucketName b then pure (bucketDir b) else throw .invalidBucketName

/-- `checkedBucketDir` for a bucket that must already exist. -/
def existingBucketDir (b : String) : EngineM (Path OsName) := do
  let dir ← checkedBucketDir b
  match ← ExceptT.lift (TokioFs.metadata dir).run with
  | .ok m => if m.kind = .dir then pure dir else throw .noSuchBucket
  | .error e => if e.kind = .notFound then throw .noSuchBucket else throw (.ofIo e)

/-- `create_bucket` once the bucket's lock is held. -/
def createBucketLocked (C : Crates) (dir : Path OsName) : EngineM Unit := do
  match ← ExceptT.lift (TokioFs.createDir dir).run with
  | .error e =>
    if e.kind = .alreadyExists then throw .bucketAlreadyExists else throw (.ofIo e)
  | .ok () => pure ()
  let createdEpochMs ← ExceptT.lift (prim .now)
  match ← ExceptT.lift (writeJsonAtomic tmpDir (bucketMetaPath dir)
      (C.bucketMetaJson.toVec ⟨createdEpochMs⟩)).run with
  | .error e =>
    -- Give the name back, so a reported failure means no bucket.
    let _ ← ExceptT.lift (await (.removeDirAll dir))
    throw (.ofIo e)
  | .ok () => liftIo (fsyncDir bucketsDir)

def createBucket (C : Crates) (bucket : String) : EngineM Unit := do
  let dir ← checkedBucketDir bucket
  ExceptT.mk (withLock (.bucket bucket) .exclusive (createBucketLocked C dir).run)

/-- Whether `dir` holds anything. -/
def hasAnyEntry (dir : Path OsName) : IoM Bool := do
  match ← ExceptT.lift (TokioFs.readDir dir).run with
  | .ok entries => pure !entries.isEmpty
  | .error e => if e.kind = .notFound then pure false else throw e

/-- `delete_bucket` once the bucket's lock is held. -/
def deleteBucketLocked (dir : Path OsName) : EngineM Unit := do
  if !(← liftIo (TokioFs.tryExists dir)) then throw .noSuchBucket
  if ← liftIo (hasAnyEntry (objectsDir dir)) then throw .bucketNotEmpty
  match ← ExceptT.lift (TokioFs.removeDirAll dir).run with
  | .ok () => pure ()
  | .error e => if e.kind = .notFound then throw .noSuchBucket else throw (.ofIo e)
  liftIo (fsyncDir bucketsDir)

def deleteBucket (bucket : String) : EngineM Unit := do
  let dir ← checkedBucketDir bucket
  ExceptT.mk (withLock (.bucket bucket) .exclusive (deleteBucketLocked dir).run)

def bucketExists (bucket : String) : EngineM Bool := do
  let dir ← checkedBucketDir bucket
  match ← ExceptT.lift (TokioFs.metadata dir).run with
  | .ok m => pure (m.kind = .dir)
  | .error e => if e.kind = .notFound then pure false else throw (.ofIo e)

/-- When the bucket at `dir` was created. -/
def bucketCreatedMs (C : Crates) (dir : Path OsName) : EngineProg Nat := do
  match ← await (.read (bucketMetaPath dir)) with
  | .ok bytes =>
    match C.bucketMetaJson.fromSlice bytes with
    | .ok m => pure m.createdEpochMs
    | .error _ => directoryTime
  | .error _ => directoryTime
where
  directoryTime : EngineProg Nat := do
    match ← await (.metadata dir) with
    | .ok m => pure m.modified
    | .error _ => pure 0

/-- The bucket an entry of `buckets/` is, if `create_bucket` can have made it. -/
def bucketEntry (entry : OsName × Kind) : Option String :=
  match fromUtf8 entry.1 with
  | none => none
  | some name =>
    if !isValidBucketName name then none else if entry.2 = .dir then some name else none

def bucketInfos (C : Crates) : List String → EngineProg (List BucketInfo)
  | [] => pure []
  | name :: names => do
    let createdEpochMs ← bucketCreatedMs C (bucketDir name)
    let out ← bucketInfos C names
    pure (⟨name, createdEpochMs⟩ :: out)

def listBuckets (C : Crates) : EngineM (List BucketInfo) := do
  let entries ← liftIo (TokioFs.readDir bucketsDir)
  let out ← ExceptT.lift (bucketInfos C (entries.filterMap bucketEntry))
  pure (out.insertionSort fun a b => strLe a.name b.name)

/-! ## Reading an object -/

/-- Read the manifest at `path`, or `none` if the key has no manifest yet. -/
def loadManifest (C : Crates) (path : Path OsName) : IoM (Option VersionManifest) := do
  match ← ExceptT.lift (TokioFs.read path).run with
  | .error e => if e.kind = .notFound then pure none else throw e
  | .ok bytes =>
    match parseManifest C path bytes with
    | .error e => throw e
    | .ok m => pure (some m)

/-- The version a `GET` or `HEAD` of the object at `dir` resolves to. -/
def liveVersion (C : Crates) (dir : Path OsName) : EngineM VersionEntry := do
  match ← liftIo (loadManifest C (metaPath dir)) with
  | none => throw .noSuchKey
  | some manifest =>
    match manifest.latest with
    | some e => if e.deleteMarker then throw .noSuchKey else pure e
    | none => throw .noSuchKey

/-- The version a listing reports for the object at `dir`, if any. -/
def listableVersion (C : Crates) (dir : Path OsName) : EngineM (Option VersionEntry) := do
  match ← ExceptT.lift (liveVersion C dir).run with
  | .ok entry => pure (some entry)
  | .error .noSuchKey => pure none
  | .error e => throw e

/-- Resolve `range` against an object of `size` bytes: where to read from and how much. -/
def resolveRange (range : Option ByteRange) (size : Nat) : Except EngineError (Nat × Nat) :=
  match range with
  | none => .ok (0, size)
  | some range =>
    if size = 0 then .error .invalidRange
    else
      match range with
      | .fromTo first last =>
        if first > last ∨ first ≥ size then .error .invalidRange
        else .ok (first, min last (size - 1) - first + 1)
      | .from first => if first ≥ size then .error .invalidRange else .ok (first, size - first)
      | .suffix n => if n = 0 then .error .invalidRange else .ok (size - min n size, min n size)

/-- How the operating system answers the reads of a stream. The read at a position for
the chunk of a number fails, or returns at most so many bytes. -/
abbrev ReadAnswers := Nat → Nat → Except IoError Nat

/-- Answers without a failure, which return what a read is given of the file. -/
def Crates.steady (C : Crates) : ReadAnswers := fun _ pos => .ok (C.shortRead pos)

/-- The reads that fill a buffer of `want` bytes from position `pos` on. One that fails
gives up what was read. -/
def fillBuf (read : Nat → Except IoError Nat) (data : Bytes) :
    Nat → Nat → Nat → Except IoError Bytes
  | 0, _, _ => .ok []
  | fuel + 1, pos, want =>
    if want = 0 then .ok []
    else
      (read pos).bind fun most =>
        let n := min want (min (data.length - pos) (max 1 most))
        if n = 0 then .ok []
        else (fillBuf read data fuel (pos + n) (want - n)).map ((data.drop pos).take n ++ ·)

/-- Stream `remaining` bytes of a file, starting where it is positioned, with chunk `i`
the next. A file that runs out early is an error, and every error ends the stream. -/
def fileStream (reads : ReadAnswers) (data : Bytes) : Nat → Nat → Nat → Nat → ByteStream
  | 0, _, _, _ => []
  | fuel + 1, i, pos, remaining =>
    if remaining = 0 then []
    else
      let want := min remaining READ_CHUNK
      match fillBuf (reads i) data want pos want with
      | .error e => [.error e]
      | .ok buf =>
        if buf = [] then
          [.error ⟨.unexpectedEof, "object data file is shorter than its manifest records", none⟩]
        else
          .ok buf :: fileStream reads data fuel (i + 1) (pos + buf.length) (remaining - buf.length)

/-- What a reader of the whole stream gets: the bytes, or the error that ended it. -/
def collect : ByteStream → Except IoError Bytes
  | [] => .ok []
  | .error e :: _ => .error e
  | .ok b :: rest => (collect rest).map (b ++ ·)

/-- Position an open file of `size` bytes where a read starts, if that is not its start. -/
def seekStart (size offset : Nat) : IoM Unit :=
  if offset > 0 then TokioFs.seek size offset else pure ()

/-- The body is what the reads of the data file make it. -/
def getObject (C : Crates) (bucket key : String) (range : Option ByteRange) :
    EngineM (ObjectInfo × Nat × Nat × (ReadAnswers → ByteStream)) := do
  let bucketDir ← existingBucketDir bucket
  let dir := objectDir bucketDir key
  let entry ← liveVersion C dir
  let (offset, len) ← ExceptT.mk (pure (resolveRange range entry.size))
  match ← ExceptT.lift (TokioFs.read (dataPath dir entry.versionId)).run with
  | .error e => if e.kind = .notFound then throw .noSuchKey else throw (.ofIo e)
  | .ok data =>
    liftIo (seekStart data.length offset)
    pure (objectInfo key entry, offset, len, fun reads => fileStream reads data len 0 offset len)

def headObject (C : Crates) (bucket key : String) : EngineM ObjectInfo := do
  let bucketDir ← existingBucketDir bucket
  let entry ← liveVersion C (objectDir bucketDir key)
  pure (objectInfo key entry)

/-! ## Writing an object -/

/-- `bytes` as lowercase hex, the form an etag takes. -/
def hexLower (bytes : Bytes) : String :=
  String.ofList (bytes.flatMap fun (b : UInt8) =>
    [Nat.digitChar (b >>> 4).toNat, Nat.digitChar (b &&& 0x0F).toNat])

/-- What is computed over a body while it streams. -/
structure Digest where
  hasher : Bytes
  checksummer : Option Checksummer
  size : Nat
  deriving DecidableEq, Repr

def Digest.new (opts : PutOpts) : Digest :=
  ⟨[], opts.checksumAlgorithm.map ChecksumAlgorithm.hasher, 0⟩

def Digest.update (d : Digest) (chunk : Bytes) : Digest :=
  ⟨d.hasher ++ chunk, d.checksummer.map (·.update chunk), d.size + chunk.length⟩

/-- Stream a body into a staged file. -/
def stageBody (staged : StagedFile) : Digest → ByteStream → IoM Digest
  | d, [] => do
    ExceptT.lift (prim .recv)
    pure d
  | d, chunk :: body => do
    ExceptT.lift (prim .recv)
    match chunk with
    | .error e => throw e
    | .ok chunk => do
      TokioFs.writeAll staged.path chunk
      stageBody staged (d.update chunk) body

/-- The version a body of digest `d` stored at time `now` gets. -/
def newEntry (C : Crates) (opts : PutOpts) (d : Digest) (now : Nat) : VersionEntry where
  versionId := NULL_VERSION_ID
  etag := hexLower (C.md5 d.hasher)
  size := d.size
  contentType := (opts.contentType.filter (· ≠ "")).getD DEFAULT_CONTENT_TYPE
  userMetadata := opts.userMetadata
  mtimeEpochMs := now
  deleteMarker := false
  checksum :=
    match opts.checksumAlgorithm, d.checksummer with
    | some algorithm, some c => some ⟨algorithm, c.finalizeBase64 C.toHashes⟩
    | _, _ => none

def storeManifest (C : Crates) (tmp path : Path OsName) (m : VersionManifest) : IoM Unit :=
  writeJsonAtomic tmp path (C.manifestJson.toVec m)

/-- The two renames that publish a staged body, and what goes with them. -/
def publishObject (C : Crates) (staged : StagedFile) (dir : Path OsName) (entry : VersionEntry) :
    IoM Unit := do
  staged.commit (dataPath dir NULL_VERSION_ID)
  let manifest := (← loadManifest C (metaPath dir)).getD newManifest
  storeManifest C tmpDir (metaPath dir) (manifest.upsert entry)

/-- What `put_object` does under its locks: `inl` when the bucket is gone and the
staged file is still the caller's. -/
def putLocked (C : Crates) (bucket : String) (staged : StagedFile) (dir : Path OsName)
    (entry : VersionEntry) : EngineProg (EngineError ⊕ Except EngineError Unit) := do
  match ← (existingBucketDir bucket).run with
  | .error e => pure (.inl e)
  | .ok _ => .inr <$> (liftIo (publishObject C staged dir entry)).run

def putObject (C : Crates) (bucket key : String) (body : ByteStream) (opts : PutOpts) :
    EngineM ObjectInfo := do
  let bucketDir ← existingBucketDir bucket
  let staged ← liftIo (StagedFile.create tmpDir)
  match ← ExceptT.lift (stageBody staged (.new opts) body).run with
  | .error e =>
    ExceptT.lift staged.drop
    throw (.ofIo e)
  | .ok d =>
    let now ← ExceptT.lift (prim .now)
    let entry := newEntry C opts d now
    match ← ExceptT.lift (withLock (.bucket bucket) .shared (withLock (.key bucket key) .exclusive
        (putLocked C bucket staged (objectDir bucketDir key) entry))) with
    | .inl e =>
      ExceptT.lift staged.drop
      throw e
    | .inr (.error e) => throw e
    | .inr (.ok ()) => pure (objectInfo key entry)

/-! ## Deleting an object -/

/-- Remove `path`, treating "it was not there" as success. -/
def removeIfPresent (path : Path OsName) : IoM Unit := do
  match ← ExceptT.lift (TokioFs.removeFile path).run with
  | .ok () => pure ()
  | .error e => if e.kind = .notFound then pure () else throw e

/-- Remove a directory and each parent below `stop`, until one is not empty. -/
def pruneEmptyDirs (stop : Path OsName) : Path OsName → EngineProg Unit
  | [] => pure ()
  | n :: p =>
    if n :: p ≠ stop ∧ stop <:+ n :: p then do
      match ← await (.removeDir (n :: p)) with
      | .error _ => pure ()
      | .ok () => pruneEmptyDirs stop p
    else pure ()

/-- The deepest of a directory and its parents up to `stop` that still exists. -/
def deepestExisting (stop : Path OsName) : Path OsName → EngineProg (Option (Path OsName))
  | [] => do
    if ← existsOr [] then pure (some []) else pure none
  | n :: p => do
    if ← existsOr (n :: p) then pure (some (n :: p))
    else if n :: p = stop then pure none
    else if stop <:+ p then deepestExisting stop p
    else pure none

/-- `delete_object` once its locks are held. -/
def deleteLocked (bucketDir : Path OsName) (key : String) : EngineM Unit := do
  let dir := objectDir bucketDir key
  liftIo (removeIfPresent (metaPath dir))
  liftIo (removeIfPresent (dataPath dir NULL_VERSION_ID))
  let stop := objectsDir bucketDir
  ExceptT.lift (pruneEmptyDirs stop dir)
  match ← ExceptT.lift (deepestExisting stop dir) with
  | none => pure ()
  | some deepest =>
    match ← ExceptT.lift (fsyncDir deepest).run with
    | .ok () => pure ()
    | .error e => if e.kind = .notFound then pure () else throw (.ofIo e)

def deleteObject (bucket key : String) : EngineM Unit := do
  let bucketDir ← existingBucketDir bucket
  ExceptT.mk (withLock (.bucket bucket) .shared (withLock (.key bucket key) .exclusive
    (deleteLocked bucketDir key).run))

/-! ## Listing -/

/-- The item a listing starts strictly after: the later of the two bounds. -/
def startBound (p : ListParams) : Option String :=
  match p.continuationToken, p.startAfter with
  | some token, some after => some (if strLe token after then after else token)
  | some token, none => some token
  | none, after => after

/-- The common prefix `key` folds into: the key through the first delimiter past
`prefixLen`. Both ends of the cut are character boundaries whenever the prefix is
one the key starts with (`occurrence_chars`), so the slice is a text. -/
def commonPrefixOf (key : String) (prefixLen : Nat) (delimiter : String) : Option String :=
  match find (utf8 delimiter) ((utf8 key).drop prefixLen) with
  | none => none
  | some at_ => fromUtf8 ((utf8 key).take (prefixLen + at_ + (utf8 delimiter).length))

/-- The loop of `list_objects_v2` over the sorted keys. -/
def listLoop (C : Crates) (bucketDir : Path OsName) (maxKeys : Nat) (pfx : String)
    (delimiter start : Option String) : List String → ListResult → EngineM ListResult
  | [], out => pure out
  | key :: keys, out =>
    if ¬ utf8 pfx <+: utf8 key then listLoop C bucketDir maxKeys pfx delimiter start keys out
    else
      let folded := delimiter.bind (commonPrefixOf key (utf8 pfx).length)
      let item := folded.getD key
      if start.any fun s => strLe item s then
        listLoop C bucketDir maxKeys pfx delimiter start keys out
      -- The group already counted is the last one emitted.
      else if folded.isSome ∧ out.commonPrefixes.getLast? = folded then
        listLoop C bucketDir maxKeys pfx delimiter start keys out
      else do
        match ← listableVersion C (objectDir bucketDir key) with
        | none => listLoop C bucketDir maxKeys pfx delimiter start keys out
        | some entry =>
          if out.objects.length + out.commonPrefixes.length = maxKeys then
            pure { out with isTruncated := true }
          else
            match folded with
            | some common =>
              listLoop C bucketDir maxKeys pfx delimiter start keys
                { out with
                  nextContinuationToken := some common
                  commonPrefixes := out.commonPrefixes ++ [common] }
            | none =>
              listLoop C bucketDir maxKeys pfx delimiter start keys
                { out with
                  nextContinuationToken := some key
                  objects := out.objects ++ [objectInfo key entry] }

/-- `list_objects_v2` once the bucket's lock is held. -/
def listLocked (C : Crates) (bucket : String) (p : ListParams) : EngineM ListResult := do
  let bucketDir ← existingBucketDir bucket
  if p.maxKeys = 0 then pure .default
  else do
    let keys ← liftIo (ExceptT.mk (await (.sortedKeys (objectsDir bucketDir))))
    let out ← listLoop C bucketDir p.maxKeys (p.pfx.getD "") (p.delimiter.filter (· ≠ ""))
      (startBound p) keys .default
    if out.isTruncated then pure out else pure { out with nextContinuationToken := none }

def listObjectsV2 (C : Crates) (bucket : String) (p : ListParams) : EngineM ListResult := do
  let _ ← checkedBucketDir bucket
  ExceptT.mk (withLock (.bucket bucket) .shared (listLocked C bucket p).run)

/-! ## Requests -/

inductive Req where
  | openEngine
  | createBucket (bucket : String)
  | deleteBucket (bucket : String)
  | bucketExists (bucket : String)
  | listBuckets
  | putObject (bucket key : String) (body : ByteStream) (opts : PutOpts)
  | getObject (bucket key : String) (range : Option ByteRange)
  | headObject (bucket key : String)
  | deleteObject (bucket key : String)
  | listObjectsV2 (bucket : String) (p : ListParams)

/-- The key a request is about, if it is about one. -/
def Req.key : Req → Option String
  | .putObject _ k _ _ | .getObject _ k _ | .headObject _ k | .deleteObject _ k => some k
  | _ => none

/-- The value of a request that succeeded. -/
inductive Answer where
  | unit
  | found (b : Bool)
  | buckets (l : List BucketInfo)
  | info (info : ObjectInfo)
  | object (info : ObjectInfo) (offset len : Nat) (body : Except IoError Bytes)
  | page (r : ListResult)
  deriving DecidableEq

abbrev Resp := Except EngineError Answer

/-- The program of a request. The body of a `GET` is read to its end. -/
def serve (C : Crates) : Req → EngineProg Resp
  | .openEngine => (do openEngine C; pure .unit : EngineM Answer).run
  | .createBucket b => (do createBucket C b; pure .unit : EngineM Answer).run
  | .deleteBucket b => (do deleteBucket b; pure .unit : EngineM Answer).run
  | .bucketExists b => (do pure (.found (← bucketExists b)) : EngineM Answer).run
  | .listBuckets => (do pure (.buckets (← listBuckets C)) : EngineM Answer).run
  | .putObject b k body opts => (do pure (.info (← putObject C b k body opts)) : EngineM Answer).run
  | .getObject b k range => (do
      let (info, offset, len, body) ← getObject C b k range
      pure (.object info offset len (collect (body C.steady))) : EngineM Answer).run
  | .headObject b k => (do pure (.info (← headObject C b k)) : EngineM Answer).run
  | .deleteObject b k => (do deleteObject b k; pure .unit : EngineM Answer).run
  | .listObjectsV2 b p => (do pure (.page (← listObjectsV2 C b p)) : EngineM Answer).run

end Aks3.Engine
