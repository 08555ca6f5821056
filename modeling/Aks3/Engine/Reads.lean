import Aks3.Engine.Layout
import Aks3.Engine.Listing
import Aks3.Lib.StdFsRun

/-!
# The methods that read

`engineExec` runs one operation of the engine alone, and every method that only
reads is then a function of the tree: `bucketAt`, `manifestAt`, `entryAt` and
`readObject` say which. They hold in every tree of the layout's shape, whatever
leftovers it has, as long as the names in question can be stored at all.
-/

set_option autoImplicit false

namespace Aks3.Engine

open Lib

/-- One operation of the engine, run alone. -/
def engineExec (env : Env OsName) (o : Op) (w : World OsName) : o.Res × World OsName :=
  o.code.run (World.exec env) w

/-- A method of the engine, run alone. -/
def runAlone {α : Type} (env : Env OsName) (p : EngineProg α) (w : World OsName) :
    α × World OsName :=
  p.run (engineExec env) w

/-- The files of a key have names the filesystem accepts. -/
structure Storable (fits : OsName → Bool) (b k : String) : Prop where
  manifest : Fit fits (Place.manifest b k).path
  data : Fit fits (Place.data b k).path

namespace Storable

variable {fits : OsName → Bool} {b k : String}

theorem object (h : Storable fits b k) : Fit fits (Place.object b k).path := h.manifest.tail

theorem objects (h : Storable fits b k) : Fit fits (Place.objects b).path :=
  h.object.suffix (List.suffix_append _ _)

theorem bucket (h : Storable fits b k) : Fit fits (Place.bucket b).path := h.objects.tail

end Storable

/-- The names the engine makes up itself, apart from those of staged files. -/
def ownNames : List OsName :=
  [AKS3_DIR, TMP_DIR, FORMAT_FILE, BUCKETS_DIR, BUCKET_META_FILE, OBJECTS_DIR, utf8 META_FILE,
    utf8 (dataFileName NULL_VERSION_ID)]

/-- The filesystem takes every name but, perhaps, components of keys. -/
structure OwnNames (env : Env OsName) : Prop where
  fixed : ∀ n ∈ ownNames, env.fits n = true
  staged : ∀ i, env.fits (tmpName (env.uuid i)) = true
  bucket : ∀ b, isValidBucketName b = true → env.fits (utf8 b) = true

namespace OwnNames

variable {env : Env OsName} {b k : String}

theorem of_all (h : ∀ n, env.fits n = true) : OwnNames env :=
  ⟨fun n _ => h n, fun _ => h _, fun _ _ => h _⟩

theorem staged_fit (h : OwnNames env) (i : Nat) :
    Fit env.fits (tmpName (env.uuid i) :: tmpDir) :=
  List.forall_mem_cons.mpr ⟨h.staged i, by simpa [tmpDir] using ⟨h.fixed _ (by simp [ownNames]),
    h.fixed _ (by simp [ownNames])⟩⟩

theorem format_fit (h : OwnNames env) : Fit env.fits Place.format.path := by
  simpa [Fit, Place.path, formatPath] using
    ⟨h.fixed FORMAT_FILE (by simp [ownNames]), h.fixed AKS3_DIR (by simp [ownNames])⟩

theorem tmp_fit (h : OwnNames env) : Fit env.fits Place.tmp.path := (h.staged_fit 0).tail

theorem buckets_fit (h : OwnNames env) : Fit env.fits Place.buckets.path := by
  simpa [Fit, Place.path, bucketsDir] using h.fixed BUCKETS_DIR (by simp [ownNames])

theorem bucket_fit (h : OwnNames env) (hv : isValidBucketName b = true) :
    Fit env.fits (Place.bucket b).path :=
  List.forall_mem_cons.mpr ⟨h.bucket b hv, h.buckets_fit⟩

theorem bucketMeta_fit (h : OwnNames env) (hv : isValidBucketName b = true) :
    Fit env.fits (Place.bucketMeta b).path :=
  List.forall_mem_cons.mpr ⟨h.fixed BUCKET_META_FILE (by simp [ownNames]), h.bucket_fit hv⟩

theorem objects_fit (h : OwnNames env) (hv : isValidBucketName b = true) :
    Fit env.fits (Place.objects b).path :=
  List.forall_mem_cons.mpr ⟨h.fixed OBJECTS_DIR (by simp [ownNames]), h.bucket_fit hv⟩

/-- Only the components of a key decide whether it can be stored. -/
theorem storable (h : OwnNames env) (hv : isValidBucketName b = true)
    (hk : Fit env.fits (keyToRelPath k)) : Storable env.fits b k := by
  have hobject : Fit env.fits (Place.object b k).path :=
    List.forall_mem_append.mpr ⟨hk, h.objects_fit hv⟩
  exact ⟨List.forall_mem_cons.mpr ⟨h.fixed _ (by simp [ownNames]), hobject⟩,
    List.forall_mem_cons.mpr ⟨h.fixed _ (by simp [ownNames]), hobject⟩⟩

end OwnNames

/-! ## What there is to read -/

/-- The manifest of a key, as `load_manifest` reads it. -/
def manifestAt (C : Crates) (t : FileTree OsName) (b k : String) :
    Except IoError (Option VersionManifest) :=
  match t.fileAt (Place.manifest b k).path with
  | none => .ok none
  | some bytes => (parseManifest C (Place.manifest b k).path bytes).map some

/-- The live version a manifest names, if any. -/
def liveOf : Option VersionManifest → Option VersionEntry
  | none => none
  | some m =>
    match m.latest with
    | some e => if e.deleteMarker then none else some e
    | none => none

/-- The live version of a key, as `live_version` finds it. -/
def entryAt (C : Crates) (t : FileTree OsName) (b k : String) : Except EngineError VersionEntry :=
  match manifestAt C t b k with
  | .error e => .error (.ofIo e)
  | .ok m =>
    match liveOf m with
    | some e => .ok e
    | none => .error .noSuchKey

/-! ## Streaming a file -/

/-- The error of a data file that runs out early. -/
def shortFile : IoError :=
  ⟨.unexpectedEof, "object data file is shorter than its manifest records", none⟩

/-- The chunks of a stream: none is empty, none is larger than the read buffer. -/
def Chunked (chunks : List Bytes) : Prop := ∀ c ∈ chunks, c ≠ [] ∧ c.length ≤ READ_CHUNK

theorem chunked_nil : Chunked [] := List.forall_mem_nil _

/-- A stream yields `bytes` in bounded chunks and ends, after one error if they are not
the `whole` of what it was to yield; or a read for the chunk after the last fails, and
the stream ends with that error. -/
def Yields (reads : ReadAnswers) (bytes : Bytes) (whole : Bool) (i : Nat)
    (stream : ByteStream) : Prop :=
  ∃ chunks, Chunked chunks ∧
    (chunks.flatten = bytes ∧
        stream = chunks.map Except.ok ++ (if whole then [] else [.error shortFile]) ∨
      ∃ pos e, reads (i + chunks.length) pos = .error e ∧ chunks.flatten <+: bytes ∧
        stream = chunks.map Except.ok ++ [.error e])

/-- However short the single reads are, the buffer is filled from the file, unless one
fails. -/
theorem fillBuf_cases (read : Nat → Except IoError Nat) (data : Bytes) :
    ∀ (fuel pos want : Nat), want ≤ fuel →
      fillBuf read data fuel pos want = .ok ((data.drop pos).take want) ∨
        ∃ p e, read p = .error e ∧ fillBuf read data fuel pos want = .error e
  | 0, pos, want, h => by
      rw [Nat.le_zero.mp h, fillBuf, List.take_zero]
      exact .inl rfl
  | fuel + 1, pos, want, h => by
      rw [fillBuf]
      split
      · rename_i hz
        rw [hz, List.take_zero]
        exact .inl rfl
      cases hread : read pos with
      | error e => exact .inr ⟨pos, e, hread, rfl⟩
      | ok most =>
          simp only [Except.bind]
          split
          · have hpos : data.length ≤ pos := by omega
            rw [List.drop_eq_nil_of_le hpos, List.take_nil]
            exact .inl rfl
          · generalize hn : min want (min (data.length - pos) (max 1 most)) = n
            have hle : n ≤ want := by omega
            rcases fillBuf_cases read data fuel (pos + n) (want - n) (by omega) with
              hfill | ⟨p, e, hp, hfill⟩
            · left
              rw [hfill, ← List.drop_drop]
              conv_rhs => rw [← Nat.add_sub_cancel' hle, List.take_add]
              rfl
            · right
              rw [hfill]
              exact ⟨p, e, hp, rfl⟩

/-- Taking some bytes, and of the rest what is left to take. -/
theorem take_append_take_rest (l : Bytes) {n len : Nat} (h : n ≤ len) :
    l.take n ++ (l.drop (l.take n).length).take (len - (l.take n).length) = l.take len := by
  rw [List.length_take]
  rcases le_total n l.length with fits | short
  · rw [Nat.min_eq_left fits, ← List.take_add, Nat.add_sub_cancel' h]
  · rw [Nat.min_eq_right short, List.drop_length, List.take_nil, List.append_nil,
      List.take_of_length_le short, List.take_of_length_le (short.trans h)]

/-- One more chunk in front. -/
theorem Yields.cons {reads : ReadAnswers} {bytes chunk : Bytes} {whole : Bool} {i : Nat}
    {stream : ByteStream} (h : Yields reads bytes whole (i + 1) stream) (hne : chunk ≠ [])
    (hle : chunk.length ≤ READ_CHUNK) :
    Yields reads (chunk ++ bytes) whole i (.ok chunk :: stream) := by
  obtain ⟨chunks, hchunks, h⟩ := h
  refine ⟨chunk :: chunks, List.forall_mem_cons.mpr ⟨⟨hne, hle⟩, hchunks⟩, ?_⟩
  rcases h with ⟨hflat, rfl⟩ | ⟨pos, e, hread, hflat, rfl⟩
  · exact .inl ⟨congrArg (chunk ++ ·) hflat, rfl⟩
  · refine .inr ⟨pos, e, ?_, (List.prefix_append_right_inj _).mpr hflat, rfl⟩
    rw [List.length_cons, ← hread]
    congr 1
    omega

/-- A stream yields the bytes there are in bounded chunks, then ends, after one
error if some are missing; a read that fails ends it too. -/
theorem fileStream_yields (reads : ReadAnswers) (data : Bytes) : ∀ (fuel i pos len : Nat),
    len ≤ fuel → Yields reads ((data.drop pos).take len) (len = 0 ∨ pos + len ≤ data.length) i
      (fileStream reads data fuel i pos len)
  | 0, i, pos, len, h => by
      rw [Nat.le_zero.mp h, List.take_zero]
      exact ⟨[], chunked_nil, .inl ⟨rfl, by simp [fileStream]⟩⟩
  | fuel + 1, i, pos, len, h => by
      rw [fileStream]
      by_cases hz : len = 0
      · rw [hz, List.take_zero]
        exact ⟨[], chunked_nil, .inl ⟨rfl, by simp⟩⟩
      rw [if_neg hz]
      dsimp only
      rcases fillBuf_cases (reads i) data _ pos (min len READ_CHUNK) le_rfl with
        hfill | ⟨p, e, hp, hfill⟩
      swap
      · rw [hfill]
        exact ⟨[], chunked_nil, .inr ⟨p, e, hp, List.nil_prefix, rfl⟩⟩
      rw [hfill]
      dsimp only
      have hchunk : 0 < READ_CHUNK := by decide
      have hlen : ((data.drop pos).take (min len READ_CHUNK)).length =
          min (min len READ_CHUNK) (data.length - pos) := by
        rw [List.length_take, List.length_drop]
      split
      · rename_i hnil
        rw [hnil, List.length_nil] at hlen
        refine ⟨[], chunked_nil, .inl ⟨?_, ?_⟩⟩
        · rw [List.drop_eq_nil_of_le (by omega), List.take_nil]
          rfl
        · rw [if_neg (by simp only [decide_eq_true_eq]; omega)]
          rfl
      · rename_i hne
        have hpos := List.length_pos_iff.mpr hne
        have hrest := fileStream_yields reads data fuel (i + 1)
          (pos + ((data.drop pos).take (min len READ_CHUNK)).length)
          (len - ((data.drop pos).take (min len READ_CHUNK)).length) (by omega)
        rw [← List.drop_drop] at hrest
        have hcons := hrest.cons hne (by omega)
        rw [take_append_take_rest _ (Nat.min_le_left _ _)] at hcons
        convert hcons using 1
        rw [decide_eq_decide, hlen]
        omega

theorem collect_chunks (chunks : List Bytes) (rest : ByteStream) :
    collect (chunks.map Except.ok ++ rest) = (collect rest).map (chunks.flatten ++ ·) := by
  induction chunks with
  | nil =>
      rw [List.map_nil, List.nil_append, List.flatten_nil]
      cases collect rest <;> rfl
  | cons chunk chunks ih =>
      rw [List.map_cons, List.cons_append, collect, ih, List.flatten_cons]
      cases collect rest with
      | error e => rfl
      | ok bytes => simp [Except.map]

/-- What a reader of `len` bytes from `offset` on gets of a file. -/
def sliceOf (data : Bytes) (offset len : Nat) : Except IoError Bytes :=
  if len = 0 ∨ offset + len ≤ data.length then .ok ((data.drop offset).take len)
  else .error ⟨.unexpectedEof, "object data file is shorter than its manifest records", none⟩

/-- **If no read fails, a stream of `len` bytes is the bytes of the file, or an error if
it is too short.** -/
theorem collect_fileStream {reads : ReadAnswers} (hreads : ∀ i pos e, reads i pos ≠ .error e)
    (data : Bytes) (offset len : Nat) :
    collect (fileStream reads data len 0 offset len) = sliceOf data offset len := by
  obtain ⟨chunks, -, ⟨hflat, hstream⟩ | ⟨pos, e, hread, -⟩⟩ :=
    fileStream_yields reads data len 0 offset len le_rfl
  · rw [hstream, collect_chunks, hflat, sliceOf]
    by_cases hwhole : len = 0 ∨ offset + len ≤ data.length
    · simp [hwhole, collect, Except.map]
    · simp [hwhole, collect, Except.map, shortFile]
  · exact absurd hread (hreads _ _ _)

theorem Crates.steady_ok (C : Crates) (i pos : Nat) (e : IoError) : C.steady i pos ≠ .error e :=
  nofun

/-- What follows the seek in a file that is positioned where a read starts. -/
theorem seekStart_bind (env : Env OsName) (size offset : Nat) (w : World OsName) {α : Type}
    (f : Unit → EngineM α) :
    (liftIo (seekStart size offset) >>= f).run.run (engineExec env) w =
      if env.reaches size offset then (f ()).run.run (engineExec env) w
      else (.error (.io (ErrorKind.os .invalidInput)), w) := by
  have hseek : (liftIo (seekStart size offset)).run.run (engineExec env) w =
      (if env.reaches size offset then .ok ()
        else .error (.io (ErrorKind.os .invalidInput)), w) := by
    unfold seekStart
    by_cases h : offset > 0
    · rw [if_pos h]
      change ((if env.reaches size offset then Except.ok ()
        else Except.error (ErrorKind.os .invalidInput)).mapError EngineError.ofIo, w) = _
      split <;> rfl
    · rw [if_neg h, env.reaches_of_le (by omega)]
      rfl
  split
  · rename_i hreach
    rw [if_pos hreach] at hseek
    exact Prog.run_bind_ok hseek
  · rename_i hreach
    rw [if_neg hreach] at hseek
    exact Prog.run_bind_error hseek

/-! ## Running the methods -/

variable {env : Env OsName} {C : Crates} {w : World OsName} {b k : String}

theorem metadata_run (p : Path OsName) :
    (TokioFs.metadata p).run.run (engineExec env) w =
      (((w.fs.stat env.fits p).mapError ErrorKind.os).map fun k => ⟨k, env.modified w.tick p⟩,
        { w with tick := w.tick + 1 }) := rfl

theorem read_run (p : Path OsName) : (TokioFs.read p).run.run (engineExec env) w =
    ((w.fs.readFile env.fits p).mapError ErrorKind.os, w) := rfl

theorem checkedBucketDir_run (hv : isValidBucketName b = true) :
    (checkedBucketDir b).run.run (engineExec env) w = (.ok (bucketDir b), w) := by
  rw [checkedBucketDir, if_pos hv]
  rfl

theorem checkedBucketDir_invalid (hv : isValidBucketName b = false) :
    (checkedBucketDir b).run.run (engineExec env) w = (.error .invalidBucketName, w) := by
  rw [checkedBucketDir, if_neg (by simp [hv])]
  rfl

/-- Looking a bucket up. -/
theorem existingBucketDir_run (hs : Shaped env.fits w.tree) (hv : isValidBucketName b = true)
    (hf : Fit env.fits (bucketDir b)) :
    ∃ w', (existingBucketDir b).run.run (engineExec env) w =
        (if w.tree.IsDir (bucketDir b) then .ok (bucketDir b) else .error .noSuchBucket, w') ∧
      w.Ticked w' := by
  refine ⟨{ w with tick := w.tick + 1 }, ?_, ⟨rfl, rfl⟩⟩
  rw [existingBucketDir, Prog.run_bind_ok (checkedBucketDir_run hv)]
  by_cases hd : w.tree.IsDir (bucketDir b)
  · obtain ⟨i, hi⟩ := hd
    rw [Prog.run_bind_lift (metadata_run _), Fs.stat_of_find hf hi, if_pos ⟨i, hi⟩]
    rfl
  · have hnone := hs.find_none_of_dir (.bucket b) rfl hd
    rw [Prog.run_bind_lift (metadata_run _),
      Fs.stat_missing hf (hs.clear (.bucket b) rfl) hnone, if_neg hd]
    rfl

/-- Reading a file of the layout that may not be there. -/
theorem readFile_place (hs : Shaped env.fits w.tree) (pl : Place) (hk : pl.kind = .file)
    (hf : Fit env.fits pl.path) : w.fs.readFile env.fits pl.path =
      match w.tree.fileAt pl.path with
      | some d => .ok d
      | none => .error .notFound := by
  cases hfile : w.tree.fileAt pl.path with
  | some d => exact Fs.readFile_ok hf hfile
  | none =>
      have hnone := hs.find_none_of_file pl hk hfile
      have hc := hs.clear_tail pl
      cases hp : pl.path with
      | nil => exact absurd hp pl.path_ne_nil
      | cons n q =>
          rw [hp] at hf hnone hc
          exact Fs.readFile_missing hf hc hnone

theorem loadManifest_run (hs : Shaped env.fits w.tree)
    (hf : Fit env.fits (Place.manifest b k).path) :
    (loadManifest C (metaPath (objectDir (bucketDir b) k))).run.run (engineExec env) w =
      (manifestAt C w.tree b k, w) := by
  have hread := readFile_place hs (.manifest b k) rfl hf
  rw [loadManifest, Prog.run_bind_lift (read_run _), manifestAt]
  rw [Place.path] at hread ⊢
  rw [hread]
  cases hfile : w.tree.fileAt (metaPath (objectDir (bucketDir b) k)) with
  | none => rfl
  | some bytes =>
      simp only [Except.mapError]
      cases parseManifest C (metaPath (objectDir (bucketDir b) k)) bytes <;> rfl

theorem liftIo_run {α : Type} {x : IoM α} {r : Except IoError α} {w' : World OsName}
    (h : x.run.run (engineExec env) w = (r, w')) :
    (liftIo x).run.run (engineExec env) w = (r.mapError EngineError.ofIo, w') := by
  rw [liftIo, Prog.run_adapt, h]

theorem liveVersion_run (hs : Shaped env.fits w.tree)
    (hf : Fit env.fits (Place.manifest b k).path) :
    (liveVersion C (objectDir (bucketDir b) k)).run.run (engineExec env) w =
      (entryAt C w.tree b k, w) := by
  have hload := liftIo_run (loadManifest_run (C := C) hs hf)
  rw [liveVersion, entryAt]
  cases hm : manifestAt C w.tree b k with
  | error e =>
      rw [hm] at hload
      exact Prog.run_bind_error hload
  | ok m =>
      rw [hm] at hload
      rw [Prog.run_bind_ok hload]
      cases m with
      | none => rfl
      | some m =>
          simp only [liveOf]
          cases m.latest with
          | none => rfl
          | some e => cases hdel : e.deleteMarker <;> simp [hdel]

theorem listableVersion_run (hs : Shaped env.fits w.tree)
    (hf : Fit env.fits (Place.manifest b k).path) {m : Option VersionManifest}
    (hm : manifestAt C w.tree b k = .ok m) :
    (listableVersion C (objectDir (bucketDir b) k)).run.run (engineExec env) w =
      (.ok (liveOf m), w) := by
  have hlive := liveVersion_run (C := C) hs hf
  rw [entryAt, hm] at hlive
  cases hl : liveOf m with
  | none =>
      simp only [hl] at hlive
      rw [listableVersion, Prog.run_bind_lift hlive]
      rfl
  | some e =>
      simp only [hl] at hlive
      rw [listableVersion, Prog.run_bind_lift hlive]
      rfl

/-! ## Requests that read one key or one bucket -/

/-- The answer of a request that needs its bucket. -/
def inBucket (t : FileTree OsName) (b : String) (r : Resp) : Resp :=
  if isValidBucketName b = true then
    if t.IsDir (bucketDir b) then r else .error .noSuchBucket
  else .error .invalidBucketName

/-- The object a `GET` finds. -/
def readObject (env : Env OsName) (C : Crates) (t : FileTree OsName) (b k : String)
    (range : Option ByteRange) : Resp :=
  match entryAt C t b k with
  | .error e => .error e
  | .ok e =>
    match resolveRange range e.size with
    | .error x => .error x
    | .ok (offset, len) =>
      match t.fileAt (Place.data b k).path with
      | none => .error .noSuchKey
      | some data =>
        if env.reaches data.length offset then
          .ok (.object (objectInfo k e) offset len (sliceOf data offset len))
        else .error (.io (ErrorKind.os .invalidInput))

/-- What a `HEAD` finds. -/
def headOf (C : Crates) (t : FileTree OsName) (b k : String) : Resp :=
  match entryAt C t b k with
  | .error e => .error e
  | .ok e => .ok (.info (objectInfo k e))

theorem getObject_run (hs : Shaped env.fits w.tree)
    (hst : isValidBucketName b = true → Storable env.fits b k)
    (hver : ∀ e, entryAt C w.tree b k = .ok e → e.versionId = NULL_VERSION_ID)
    (range : Option ByteRange) :
    ∃ w', runAlone env (serve C (.getObject b k range)) w =
      (inBucket w.tree b (readObject env C w.tree b k range), w') ∧ w.Ticked w' := by
  rw [runAlone, serve, inBucket]
  by_cases hv : isValidBucketName b = true
  swap
  · have hcheck : (checkedBucketDir b).run.run (engineExec env) w = _ :=
      checkedBucketDir_invalid (Bool.eq_false_iff.mpr hv)
    refine ⟨w, ?_, .refl w⟩
    rw [if_neg hv, getObject, bind_assoc, existingBucketDir, bind_assoc,
      Prog.run_bind_error hcheck]
  have hst := hst hv
  obtain ⟨w', hrun, ht⟩ := existingBucketDir_run hs hv hst.bucket
  refine ⟨w', ?_, ht⟩
  rw [if_pos hv, getObject, bind_assoc]
  by_cases hd : w.tree.IsDir (bucketDir b)
  swap
  · rw [if_neg hd] at hrun
    rw [if_neg hd, Prog.run_bind_error hrun]
  rw [if_pos hd] at hrun
  rw [if_pos hd, Prog.run_bind_ok hrun]
  have htree : w'.tree = w.tree := by rw [World.tree, ht.fs]
  have hs' : Shaped env.fits w'.tree := by rwa [htree]
  have hlive := liveVersion_run (C := C) hs' hst.manifest
  rw [htree] at hlive
  simp only [bind_assoc]
  rw [readObject]
  cases he : entryAt C w.tree b k with
  | error e =>
      rw [he] at hlive
      rw [Prog.run_bind_error hlive]
  | ok e =>
      rw [he] at hlive
      rw [Prog.run_bind_ok hlive]
      simp only
      cases hr : resolveRange range e.size with
      | error x => rfl
      | ok r =>
          obtain ⟨offset, len⟩ := r
          have hdata := readFile_place hs' (.data b k) rfl hst.data
          rw [htree] at hdata
          have hrange : (ExceptT.mk (pure (Except.ok (offset, len))) : EngineM (Nat × Nat)).run.run
              (engineExec env) w' = (.ok (offset, len), w') := rfl
          rw [Prog.run_bind_ok hrange]
          simp only
          rw [Prog.run_bind_lift (read_run _), hver e he]
          rw [Place.path] at hdata
          rw [hdata, Place.path]
          cases w.tree.fileAt (dataPath (objectDir (bucketDir b) k) NULL_VERSION_ID) with
          | none => rfl
          | some data =>
              simp only [Except.mapError, bind_assoc]
              rw [seekStart_bind]
              split
              · change (Except.ok _, w') = _
                rw [collect_fileStream C.steady_ok]
              · rfl

theorem headObject_run (hs : Shaped env.fits w.tree)
    (hst : isValidBucketName b = true → Storable env.fits b k) :
    ∃ w', runAlone env (serve C (.headObject b k)) w =
      (inBucket w.tree b (headOf C w.tree b k), w') ∧ w.Ticked w' := by
  rw [runAlone, serve, inBucket]
  by_cases hv : isValidBucketName b = true
  swap
  · have hcheck : (checkedBucketDir b).run.run (engineExec env) w = _ :=
      checkedBucketDir_invalid (Bool.eq_false_iff.mpr hv)
    refine ⟨w, ?_, .refl w⟩
    rw [if_neg hv, headObject, bind_assoc, existingBucketDir, bind_assoc,
      Prog.run_bind_error hcheck]
  have hst := hst hv
  obtain ⟨w', hrun, ht⟩ := existingBucketDir_run hs hv hst.bucket
  refine ⟨w', ?_, ht⟩
  rw [if_pos hv, headObject, bind_assoc]
  by_cases hd : w.tree.IsDir (bucketDir b)
  swap
  · rw [if_neg hd] at hrun
    rw [if_neg hd, Prog.run_bind_error hrun]
  rw [if_pos hd] at hrun
  rw [if_pos hd, Prog.run_bind_ok hrun]
  have htree : w'.tree = w.tree := by rw [World.tree, ht.fs]
  have hs' : Shaped env.fits w'.tree := by rwa [htree]
  have hlive := liveVersion_run (C := C) hs' hst.manifest
  rw [htree] at hlive
  simp only [bind_assoc]
  rw [headOf]
  cases he : entryAt C w.tree b k with
  | error e =>
      rw [he] at hlive
      rw [Prog.run_bind_error hlive]
  | ok e =>
      rw [he] at hlive
      rw [Prog.run_bind_ok hlive]
      rfl

theorem bucketExists_run (hs : Shaped env.fits w.tree)
    (hf : isValidBucketName b = true → Fit env.fits (bucketDir b)) :
    ∃ w', runAlone env (serve C (.bucketExists b)) w =
      (if isValidBucketName b = true then .ok (.found (w.tree.IsDir (bucketDir b)))
        else .error .invalidBucketName, w') ∧ w.Ticked w' := by
  rw [runAlone, serve]
  by_cases hv : isValidBucketName b = true
  swap
  · have hcheck : (checkedBucketDir b).run.run (engineExec env) w = _ :=
      checkedBucketDir_invalid (Bool.eq_false_iff.mpr hv)
    refine ⟨w, ?_, .refl w⟩
    rw [if_neg hv, bucketExists, bind_assoc, Prog.run_bind_error hcheck]
  have hf := hf hv
  refine ⟨{ w with tick := w.tick + 1 }, ?_, ⟨rfl, rfl⟩⟩
  rw [if_pos hv, bucketExists, bind_assoc, Prog.run_bind_ok (checkedBucketDir_run hv)]
  simp only [bind_assoc]
  by_cases hd : w.tree.IsDir (bucketDir b)
  · obtain ⟨i, hi⟩ := hd
    rw [Prog.run_bind_lift (metadata_run _), Fs.stat_of_find hf hi]
    simp [FileTree.IsDir, hi, Except.mapError, Except.map]
  · have hnone := hs.find_none_of_dir (.bucket b) rfl hd
    rw [Prog.run_bind_lift (metadata_run _),
      Fs.stat_missing hf (hs.clear (.bucket b) rfl) hnone]
    simp [hd, Except.mapError, Except.map]

end Aks3.Engine
