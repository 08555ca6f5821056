import Aks3.Api.Service

/-!
# Uploads with a checksum

A `PUT` whose request `detect` finds a checksum in stores its body only if the value
that came with it is the body's, however the body is split and delayed. What it then
stores and reports is that value; otherwise it leaves the directory as it was, and says
which of the two went wrong (`putObject_verified`).
-/

set_option autoImplicit false

namespace Aks3.Api

open Lib Engine

/-! ## Bodies -/

/-- A body whose chunks are those of `bytes`. -/
def Delivers (body : Polls String) (bytes : Bytes) : Prop :=
  ∃ chunks : List Bytes, items body = chunks.map Except.ok ∧ bytes = chunks.flatten

/-- A body that breaks off. -/
def Broken (body : Polls String) : Prop := ∃ text, Except.error text ∈ items body

theorem items_engineBody (body : Polls String) :
    items (engineBody body) = (items body).map fun item => item.mapError bodyError := by
  induction body with
  | nil => rfl
  | cons poll rest ih =>
      cases poll with
      | none => exact ih
      | some item => exact congrArg (item.mapError bodyError :: ·) ih

theorem collect_map_ok (chunks : List Bytes) :
    collect (chunks.map Except.ok) = .ok chunks.flatten := by
  have h := collect_chunks chunks []
  rwa [List.append_nil, collect, Except.map, List.append_nil] at h

theorem collect_of_delivers {body : Polls String} {bytes : Bytes} (h : Delivers body bytes) :
    collect (items (engineBody body)) = .ok bytes := by
  obtain ⟨chunks, hitems, rfl⟩ := h
  rw [items_engineBody, hitems, List.map_map]
  exact collect_map_ok chunks

/-- A body that breaks off fails with the text of an error of its own. -/
theorem collect_mapError (l : List (Except String Bytes)) :
    (∃ chunks : List Bytes, l = chunks.map Except.ok) ∨
      (∃ text, Except.error text ∈ l) ∧
        ∃ text, collect (l.map fun item => item.mapError bodyError) = .error (bodyError text) := by
  induction l with
  | nil => exact .inl ⟨[], rfl⟩
  | cons item l ih =>
      cases item with
      | error text => exact .inr ⟨⟨text, List.mem_cons_self⟩, text, rfl⟩
      | ok chunk =>
          rcases ih with ⟨chunks, rfl⟩ | ⟨⟨text, hmem⟩, text', hc⟩
          · exact .inl ⟨chunk :: chunks, rfl⟩
          · refine .inr ⟨⟨text, List.mem_cons_of_mem _ hmem⟩, text', ?_⟩
            rw [List.map_cons, Except.mapError, collect, hc]
            rfl

/-- A body arrives or breaks off. -/
theorem delivers_or_broken (body : Polls String) :
    (∃ bytes, Delivers body bytes) ∨
      Broken body ∧ ∃ text, collect (items (engineBody body)) = .error (bodyError text) := by
  rcases collect_mapError (items body) with ⟨chunks, h⟩ | h
  · exact .inl ⟨chunks.flatten, chunks, h, rfl⟩
  · rw [items_engineBody]
    exact .inr h

theorem not_broken_of_delivers {body : Polls String} {bytes : Bytes} (h : Delivers body bytes) :
    ¬ Broken body := by
  rintro ⟨text, hmem⟩
  obtain ⟨chunks, hitems, -⟩ := h
  rw [hitems] at hmem
  obtain ⟨chunk, -, hc⟩ := List.mem_map.mp hmem
  cases hc

/-! ## What the handlers do with the engine's answers -/

section Runs

variable {env : Env OsName} {C : Crates} {w w' : World OsName} {b k : String}

theorem info_injective : Function.Injective Answer.info := fun _ _ h => Answer.info.inj h

theorem engine_getObject_ok {range : Option ByteRange} {info : ObjectInfo} {offset len : Nat}
    {read : Except IoError Bytes}
    (h : runAlone env (serve C (.getObject b k range)) w =
      (.ok (.object info offset len read), w')) :
    ∃ body, (Engine.getObject C b k range).run.run (engineExec env) w =
      (.ok (info, offset, len, body), w') ∧ collect (body C.steady) = read := by
  rw [runAlone, serve, ExceptT.run_bind, Prog.run_bind] at h
  generalize (Engine.getObject C b k range).run.run (engineExec env) w = y at h ⊢
  obtain ⟨r, w₁⟩ := y
  cases r with
  | error e => cases h
  | ok x =>
      obtain ⟨i, o, l, body⟩ := x
      cases h
      exact ⟨body, rfl, rfl⟩

/-- A `PUT` that is not refused for its framing runs the engine's. -/
theorem putObject_ok {req : S3Request PutObjectInput} {body : Polls String} {info : ObjectInfo}
    (hframe : rejectContradictoryAwsChunked req.headers = .ok ())
    (hbody : req.input.body = some body)
    (h : runAlone env (serve C (.putObject req.input.bucket req.input.key
      (engineStream C.toHashes (detect req.input req.headers req.trailingHeaders) body)
      (putOpts req.input (detect req.input req.headers req.trailingHeaders)))) w =
        (.ok (.info info), w')) :
    runAlone env (putObject C req).run w =
      (.ok { toChecksumFields := fieldsFor info.checksum, eTag := info.etag }, w') := by
  have hrun := Prog.ok_of_bind_pure info_injective h
  rw [runAlone, putObject, hframe, hbody]
  refine (Prog.run_bind_ok rfl).trans ?_
  exact Prog.run_bind_lift hrun

theorem putObject_error {req : S3Request PutObjectInput} {body : Polls String} {e : EngineError}
    (hframe : rejectContradictoryAwsChunked req.headers = .ok ())
    (hbody : req.input.body = some body)
    (h : runAlone env (serve C (.putObject req.input.bucket req.input.key
      (engineStream C.toHashes (detect req.input req.headers req.trailingHeaders) body)
      (putOpts req.input (detect req.input req.headers req.trailingHeaders)))) w =
        (.error e, w')) :
    runAlone env (putObject C req).run w = (.error (putError e), w') := by
  have hrun := Prog.error_of_bind_pure h
  rw [runAlone, putObject, hframe, hbody]
  refine (Prog.run_bind_ok rfl).trans ?_
  exact Prog.run_bind_lift hrun

end Runs

/-! ## What the engine reads of a body -/

/-- The value that came with a checksum, if there is one to check, is the body's. -/
def Passes (H : Hashes) (checksum : Option PutChecksum) (bytes : Bytes) : Prop :=
  ∀ c, checksum = some c → c.expected.resolve = some (c.algorithm.of H bytes).value

/-- The failure of a check that a body does not pass. -/
def failure (c : PutChecksum) : ChecksumError :=
  match c.expected.resolve with
  | some _ => .mismatch c.algorithm
  | none => .missingTrailer c.algorithm

section Streams

variable {H : Hashes} {checksum : Option PutChecksum} {body : Polls String} {bytes : Bytes}

theorem collect_engineStream_ok (hd : Delivers body bytes) (hp : Passes H checksum bytes) :
    collect (engineStream H checksum body) = .ok bytes := by
  cases checksum with
  | none => exact collect_of_delivers hd
  | some c =>
      rw [engineStream, VerifyingStream.collect_drain_new, collect_of_delivers hd]
      simp [Except.bind, VerifyingStream.checked, hp c rfl, evaluate]

theorem collect_engineStream_fails {c : PutChecksum} (hd : Delivers body bytes)
    (hp : ¬ Passes H (some c) bytes) :
    collect (engineStream H (some c) body) = .error (failure c).toIo := by
  have hne : c.expected.resolve ≠ some (c.algorithm.of H bytes).value := by
    intro he
    exact hp fun c' hc' => Option.some.inj hc' ▸ he
  rw [engineStream, VerifyingStream.collect_drain_new, collect_of_delivers hd]
  simp only [Except.bind, VerifyingStream.checked, failure]
  cases hr : c.expected.resolve with
  | none => rfl
  | some v =>
      have hv : (c.algorithm.of H bytes).value ≠ v := fun he => hne (by rw [hr, he])
      simp [evaluate, hv]

theorem collect_engineStream_broken {e : IoError}
    (he : collect (items (engineBody body)) = .error e) :
    collect (engineStream H checksum body) = .error e := by
  cases checksum with
  | none => exact he
  | some c =>
      rw [engineStream, VerifyingStream.collect_drain_new, he]
      rfl

/-- A body is read as what it delivers, if it passes the check. -/
theorem collect_engineStream_iff :
    collect (engineStream H checksum body) = .ok bytes ↔
      Delivers body bytes ∧ Passes H checksum bytes := by
  refine ⟨fun h => ?_, fun h => collect_engineStream_ok h.1 h.2⟩
  rcases delivers_or_broken body with ⟨bytes', hd⟩ | ⟨-, text, he⟩
  · by_cases hp : Passes H checksum bytes'
    · rw [collect_engineStream_ok hd hp] at h
      cases h
      exact ⟨hd, hp⟩
    · cases checksum with
      | none => exact absurd (fun c hc => nomatch hc) hp
      | some c =>
          rw [collect_engineStream_fails hd hp] at h
          cases h
  · rw [collect_engineStream_broken he] at h
    cases h

end Streams

theorem putError_failure (c : PutChecksum) : (putError (.ofIo (failure c).toIo)).code =
    match c.expected.resolve with
    | some _ => .badDigest
    | none => .invalidRequest := by
  have hio : EngineError.ofIo (failure c).toIo = .io (failure c).toIo := rfl
  rw [hio, putError, ChecksumError.ofIo_toIo, failure]
  cases c.expected.resolve <;> rfl

theorem putError_bodyError (text : String) :
    (putError (.ofIo (bodyError text))).code = .internalError := rfl

/-! ## What is reported -/

/-- The value a response gives for an algorithm. -/
def ChecksumFields.value (f : ChecksumFields) : ChecksumAlgorithm → Option String
  | .crc32 => f.crc32
  | .crc32c => f.crc32c
  | .sha1 => f.sha1
  | .sha256 => f.sha256
  | .crc64Nvme => f.crc64nvme

/-- A response reports a checksum, in the field of its algorithm and in no other. -/
def ChecksumFields.Reports (f : ChecksumFields) (s : StoredChecksum) : Prop :=
  f.checksumType = some "FULL_OBJECT" ∧
    ∀ a, f.value a = if a = s.algorithm then some s.value else none

theorem fieldsFor_reports (s : StoredChecksum) : (fieldsFor (some s)).Reports s := by
  obtain ⟨algorithm, value⟩ := s
  refine ⟨?_, fun a => ?_⟩
  · cases algorithm <;> rfl
  · cases algorithm <;> cases a <;> rfl

/-- No file and no directory is different. -/
structure Unchanged (w w' : World OsName) : Prop where
  file : ∀ q, w'.tree.fileAt q = w.tree.fileAt q
  dir : ∀ q, w'.tree.IsDir q ↔ w.tree.IsDir q

theorem Unchanged.of_tree {w w' : World OsName} (h : w'.tree = w.tree) : Unchanged w w' := by
  refine ⟨fun q => ?_, fun q => ?_⟩ <;> rw [h]

section Reads

variable {env : Env OsName} {C : Crates} {X : Set (Path OsName)} {S : Store} {w : World OsName}
  {b k : String} {o : Object}

/-- A `HEAD` that asks for it reports the checksum an object was stored with. -/
theorem headObject_reports (hown : OwnNames env) (h : Rep C env.fits X S w.tree)
    (hk : Fit env.fits (keyToRelPath k)) (ho : S.object b k = some o) {a : ChecksumAlgorithm}
    (ha : o.opts.checksumAlgorithm = some a) {req : S3Request HeadObjectInput}
    (hb : req.input.bucket = b) (hkey : req.input.key = k)
    (hmode : checksumModeEnabled req.input.checksumMode = true) :
    ∃ out w', runAlone env (headObject C req).run w = (.ok out, w') ∧
      out.Reports (a.of C.toHashes o.bytes) := by
  obtain ⟨B, hB, hlook⟩ := Option.bind_eq_some_iff.mp ho
  obtain ⟨w', hrun, -⟩ := serve_answered hown h (r := .headObject b k) (by simp)
    (fun k' hk' => Option.some.inj hk' ▸ hk) (by simp)
  have hv := h.valid b (Finmap.mem_of_lookup_eq_some hB)
  rw [show (S.apply C w.clock (.headObject b k)).1 = .ok (.info (o.info C k)) by
    simp [Store.apply, Store.inBucket, hv, hB, hlook, Store.head]] at hrun
  have hengine := Prog.ok_of_bind_pure info_injective hrun
  rw [← hb, ← hkey] at hengine
  refine ⟨_, w', Prog.run_bind_lift hengine, ?_⟩
  simp only [hmode, if_true, Object.info, ha, Option.map_some]
  exact fieldsFor_reports _

/-- So does a `GET` of the whole object, with its bytes. -/
theorem getObject_reports (hown : OwnNames env) (h : Rep C env.fits X S w.tree)
    (hk : Fit env.fits (keyToRelPath k)) (ho : S.object b k = some o) {a : ChecksumAlgorithm}
    (ha : o.opts.checksumAlgorithm = some a) {req : S3Request GetObjectInput}
    (hb : req.input.bucket = b) (hkey : req.input.key = k) (hrange : req.input.range = none)
    (hmode : checksumModeEnabled req.input.checksumMode = true) :
    ∃ out w', runAlone env (getObject C C.steady req).run w = (.ok out, w') ∧
      out.Reports (a.of C.toHashes o.bytes) ∧ collect out.body = .ok o.bytes := by
  obtain ⟨B, hB, hlook⟩ := Option.bind_eq_some_iff.mp ho
  obtain ⟨w', hrun, -⟩ := serve_answered hown h (r := .getObject b k none) (by simp)
    (fun k' hk' => Option.some.inj hk' ▸ hk) (by simp)
  have hv := h.valid b (Finmap.mem_of_lookup_eq_some hB)
  rw [show (S.apply C w.clock (.getObject b k none)).1 =
      .ok (.object (o.info C k) 0 o.bytes.length (.ok o.bytes)) by
    simp [Store.apply, Store.inBucket, hv, hB, hlook, Store.get, resolveRange]] at hrun
  obtain ⟨body, hengine, hcollect⟩ := engine_getObject_ok hrun
  rw [← hb, ← hkey, show none = req.input.range.map toByteRange by rw [hrange]; rfl] at hengine
  refine ⟨_, w', Prog.run_bind_lift hengine, ?_, hcollect⟩
  simp only [hrange, Option.map_none, Option.isNone_none, Bool.true_and, hmode, if_true,
    Object.info, ha, Option.map_some]
  exact fieldsFor_reports _

end Reads

/-! ## Which uploads are accepted -/

section Uploads

variable {env : Env OsName} {C : Crates} {X : Set (Path OsName)} {S : Store} {w : World OsName}
  {req : S3Request PutObjectInput} {body : Polls String}

/-- The checksum of a request that is checked. -/
def S3Request.checksum (req : S3Request PutObjectInput) : Option PutChecksum :=
  detect req.input req.headers req.trailingHeaders

/-- A request that gets as far as its body. -/
structure Reaches (S : Store) (req : S3Request PutObjectInput) (body : Polls String) : Prop where
  frame : rejectContradictoryAwsChunked req.headers = .ok ()
  body : req.input.body = some body
  bucket : isValidBucketName req.input.bucket = true ∧ req.input.bucket ∈ S

/-- A request that stores `bytes`. -/
structure Accepted (env : Env OsName) (H : Hashes) (S : Store) (req : S3Request PutObjectInput)
    (bytes : Bytes) : Prop where
  reaches : ∃ body, Reaches S req body ∧ Delivers body bytes
  passes : Passes H req.checksum bytes
  key : Fit env.fits (keyToRelPath req.input.key)

/-- The object an accepted request stores. -/
def S3Request.object (req : S3Request PutObjectInput) (bytes : Bytes) (now : Nat) : Object :=
  ⟨bytes, putOpts req.input req.checksum, now⟩

/-- An accepted request stores its body and answers with what it stored. -/
theorem putObject_accepted (hown : OwnNames env) (h : Rep C env.fits X S w.tree) {bytes : Bytes}
    (ha : Accepted env C.toHashes S req bytes) :
    ∃ S' w', runAlone env (putObject C req).run w =
        (.ok ⟨fieldsFor (req.checksum.map fun c => c.algorithm.of C.toHashes bytes),
          hexLower (C.md5 bytes)⟩, w') ∧
      Rep C env.fits X S' w'.tree ∧
      S'.object req.input.bucket req.input.key = some (req.object bytes w.clock) := by
  obtain ⟨body, hr, hd⟩ := ha.reaches
  obtain ⟨B, hB⟩ := Finmap.mem_iff.mp hr.bucket.2
  have hcollect := collect_engineStream_ok hd ha.passes
  obtain ⟨w', hrun, hrep, -⟩ := answered_putObject hown h req.input.bucket ha.key
    (engineStream C.toHashes req.checksum body) (putOpts req.input req.checksum)
  have happly : S.apply C w.clock (.putObject req.input.bucket req.input.key
      (engineStream C.toHashes req.checksum body) (putOpts req.input req.checksum)) =
      (.ok (.info ((req.object bytes w.clock).info C req.input.key)),
        S.insert req.input.bucket { B with
          objects := B.objects.insert req.input.key (req.object bytes w.clock) }) := by
    simp only [Store.apply, Store.inBucket, if_pos hr.bucket.1, hB, hcollect]
    rfl
  rw [happly] at hrun hrep
  refine ⟨_, w', (putObject_ok hr.frame hr.body hrun).trans ?_, hrep, ?_⟩
  · simp only [Object.info, S3Request.object, putOpts, Option.map_map]
    rfl
  · rw [Store.object_put hB, if_pos ⟨rfl, rfl⟩]

/-- A request whose body is not read leaves everything as it was. -/
theorem putObject_unread (hown : OwnNames env) (h : Rep C env.fits X S w.tree)
    (hr : ¬ ∃ body, Reaches S req body) :
    ∃ e w', runAlone env (putObject C req).run w = (.error e, w') ∧ Unchanged w w' := by
  cases hframe : rejectContradictoryAwsChunked req.headers with
  | error e =>
      refine ⟨e, w, ?_, .of_tree rfl⟩
      rw [runAlone, putObject, hframe]
      exact Prog.run_bind_error rfl
  | ok u =>
      cases hbody : req.input.body with
      | none =>
          refine ⟨⟨.incompleteBody, none⟩, w, ?_, .of_tree rfl⟩
          rw [runAlone, putObject, hframe, hbody]
          exact (Prog.run_bind_ok rfl).trans rfl
      | some body =>
          have hno : ¬ (isValidBucketName req.input.bucket = true ∧ req.input.bucket ∈ S) :=
            fun hb => hr ⟨body, hframe, hbody, hb⟩
          obtain ⟨w', hrun, ht⟩ := noBucket_run hown h.shaped
            (r := .putObject req.input.bucket req.input.key
              (engineStream C.toHashes req.checksum body) (putOpts req.input req.checksum))
            rfl fun hc => hno ⟨hc.1, (h.bucket _).mp hc.2⟩
          exact ⟨_, w', putObject_error hframe hbody hrun, .of_tree (by rw [World.tree, ht.fs])⟩

/-- A request whose body breaks off or fails its check leaves everything as it was. -/
theorem putObject_unchecked (hown : OwnNames env) (h : Rep C env.fits X S w.tree)
    (hr : Reaches S req body) {e : IoError}
    (he : collect (engineStream C.toHashes req.checksum body) = .error e) :
    ∃ w', runAlone env (putObject C req).run w = (.error (putError (.ofIo e)), w') ∧
      Unchanged w w' := by
  obtain ⟨w', hrun, hfile, hdir, -⟩ := putObject_broken (C := C) (k := req.input.key) hown
    h.toReady hr.bucket.1 ((h.bucket _).mpr hr.bucket.2) he (putOpts req.input req.checksum)
  exact ⟨w', putObject_error hr.frame hr.body hrun, hfile, hdir⟩

/-- A request is answered with success exactly if it is accepted. -/
theorem putObject_ok_iff (hown : OwnNames env) (h : Rep C env.fits X S w.tree) :
    (∃ out w', runAlone env (putObject C req).run w = (.ok out, w')) ↔
      ∃ bytes, Accepted env C.toHashes S req bytes := by
  constructor
  · rintro ⟨out, w', hrun⟩
    by_cases hr : ∃ body, Reaches S req body
    swap
    · obtain ⟨e, w₁, hrun₁, -⟩ := putObject_unread hown h hr
      rw [hrun₁] at hrun
      cases hrun
    obtain ⟨body, hr⟩ := hr
    cases hc : collect (engineStream C.toHashes req.checksum body) with
    | error e =>
        obtain ⟨w₁, hrun₁, -⟩ := putObject_unchecked hown h hr hc
        rw [hrun₁] at hrun
        cases hrun
    | ok bytes =>
        obtain ⟨hd, hp⟩ := collect_engineStream_iff.mp hc
        by_cases hk : Fit env.fits (keyToRelPath req.input.key)
        · exact ⟨bytes, ⟨body, hr, hd⟩, hp, hk⟩
        · obtain ⟨w₁, hrun₁, -⟩ := putObject_refused (C := C) hown hr.bucket.1 hk h.toReady
            ((h.bucket _).mpr hr.bucket.2) hc (putOpts req.input req.checksum)
          rw [putObject_error hr.frame hr.body hrun₁] at hrun
          cases hrun
  · rintro ⟨bytes, ha⟩
    obtain ⟨S', w', hrun, -⟩ := putObject_accepted hown h ha
    exact ⟨_, w', hrun⟩

/-- An object with a checksum, as it is on disk, and as it is read for as long as its key
is not put or deleted again. -/
structure Kept (env : Env OsName) (C : Crates) (w : World OsName) (b k : String) (bytes : Bytes)
    (s : StoredChecksum) : Prop where
  data : w.tree.fileAt (dataPath (objectDir (bucketDir b) k) NULL_VERSION_ID) = some bytes
  entry : ∃ e, entryAt C w.tree b k = .ok e ∧ e.checksum = some s
  head : ∀ reqs : List (Nat × Req), (∀ x ∈ reqs, ¬ Touches b k x.2) →
    ∀ req : S3Request HeadObjectInput, req.input.bucket = b → req.input.key = k →
      checksumModeEnabled req.input.checksumMode = true →
      ∃ out w', runAlone env (headObject C req).run (serveAll env C w reqs).2 = (.ok out, w') ∧
        out.Reports s
  get : ∀ reqs : List (Nat × Req), (∀ x ∈ reqs, ¬ Touches b k x.2) →
    ∀ req : S3Request GetObjectInput, req.input.bucket = b → req.input.key = k →
      req.input.range = none → checksumModeEnabled req.input.checksumMode = true →
      ∃ out w', runAlone env (getObject C C.steady req).run
        (serveAll env C w reqs).2 = (.ok out, w') ∧
        out.Reports s ∧ collect out.body = .ok bytes

theorem kept_of_object (hown : OwnNames env) (h : Rep C env.fits X S w.tree) {b k : String}
    (hk : Fit env.fits (keyToRelPath k)) {o : Object} (ho : S.object b k = some o)
    {a : ChecksumAlgorithm} (ha : o.opts.checksumAlgorithm = some a) :
    Kept env C w b k o.bytes (a.of C.toHashes o.bytes) where
  data := (h.data b k).trans (by rw [ho]; rfl)
  entry := by
    refine ⟨o.entry C, ?_, ?_⟩
    · rw [h.entryAt_eq, ho]
    · simp only [Object.entry, bodyEntry, ha, Option.map_some]
  head reqs hreqs req hb hkey hmode := by
    obtain ⟨S', h', ho'⟩ := serveAll_holds hown reqs (h.mono (Set.subset_univ _)) ho hreqs
    exact headObject_reports hown h' hk ho' ha hb hkey hmode
  get reqs hreqs req hb hkey hrange hmode := by
    obtain ⟨S', h', ho'⟩ := serveAll_holds hown reqs (h.mono (Set.subset_univ _)) ho hreqs
    exact getObject_reports hown h' hk ho' ha hb hkey hrange hmode

/-- **A checksum that `detect` finds is verified.** Success means that the value sent is
the checksum of the whole body, and then this is what is stored and reported, by this
request and later ones. A body that breaks off, a value that is not the body's and a
trailer that does not come leave every file and directory as it was, and are told
apart. -/
theorem putObject_verified (hown : OwnNames env) (h : Rep C env.fits X S w.tree) {c : PutChecksum}
    (hc : detect req.input req.headers req.trailingHeaders = some c) :
    (∀ out w', runAlone env (putObject C req).run w = (.ok out, w') →
      ∃ body bytes v, req.input.body = some body ∧ Delivers body bytes ∧
        c.expected.resolve = some v ∧ v = (c.algorithm.of C.toHashes bytes).value ∧
        out.Reports ⟨c.algorithm, v⟩ ∧
        Kept env C w' req.input.bucket req.input.key bytes ⟨c.algorithm, v⟩) ∧
    ∀ body, req.input.body = some body →
      (∀ bytes, Delivers body bytes →
        c.expected.resolve ≠ some (c.algorithm.of C.toHashes bytes).value) →
      ∃ e w', runAlone env (putObject C req).run w = (.error e, w') ∧ Unchanged w w' ∧
        (Reaches S req body → (Broken body → e.code = .internalError) ∧
          (¬ Broken body → e.code =
            match c.expected.resolve with
            | some _ => .badDigest
            | none => .invalidRequest)) := by
  have hchk : req.checksum = some c := hc
  refine ⟨fun out w' hrun => ?_, fun body hbody hne => ?_⟩
  · obtain ⟨bytes, ha⟩ := (putObject_ok_iff hown h).mp ⟨out, w', hrun⟩
    obtain ⟨S', w₁, hrun₁, hrep, ho⟩ := putObject_accepted hown h ha
    rw [hrun₁] at hrun
    cases hrun
    obtain ⟨body, hr, hd⟩ := ha.reaches
    refine ⟨body, bytes, _, hr.body, hd, ha.passes c hchk, rfl, ?_, ?_⟩
    · rw [hchk]
      exact fieldsFor_reports _
    · refine kept_of_object hown hrep ha.key ho ?_
      simp only [S3Request.object, putOpts, hchk, Option.map_some]
  · by_cases hr : ∃ body, Reaches S req body
    swap
    · obtain ⟨e, w', hrun, hsame⟩ := putObject_unread hown h hr
      exact ⟨e, w', hrun, hsame, fun hr' => absurd ⟨body, hr'⟩ hr⟩
    obtain ⟨body', hr⟩ := hr
    obtain rfl : body' = body := Option.some.inj (hr.body.symm.trans hbody)
    rcases delivers_or_broken body' with ⟨bytes, hd⟩ | ⟨hbroken, text, htext⟩
    · have hp : ¬ Passes C.toHashes (some c) bytes := fun hp => hne bytes hd (hp c rfl)
      obtain ⟨w', hrun, hsame⟩ := putObject_unchecked hown h hr
        (hchk ▸ collect_engineStream_fails hd hp)
      exact ⟨_, w', hrun, hsame, fun _ =>
        ⟨fun hb => absurd hb (not_broken_of_delivers hd), fun _ => putError_failure c⟩⟩
    · obtain ⟨w', hrun, hsame⟩ := putObject_unchecked hown h hr (collect_engineStream_broken htext)
      exact ⟨_, w', hrun, hsame, fun _ =>
        ⟨fun _ => putError_bodyError text, fun hb => absurd hbroken hb⟩⟩

end Uploads

/-! ## A verified upload -/

/-- Crates with the CRC-32 of the body `a`, and base64 on the values of the runs below. -/
def checkedCrates : Crates where
  __ := sampleCrates
  crc32 bytes := if bytes = utf8 "a" then 0xE8B7BE43 else 0
  base64 bytes :=
    if bytes = [0xE8, 0xB7, 0xBE, 0x43] then "6Le+Qw=="
    else if bytes = [0xC1, 0xD0, 0x43, 0x30] then "wdBDMA==" else ""

/-- A data directory with an empty bucket. -/
def bucketWorld : World OsName :=
  (serveAll sampleEnv checkedCrates (World.empty OsName)
    [(0, .openEngine), (0, .createBucket "abc")]).2

theorem bucketWorld_rep :
    ∃ S, Rep checkedCrates sampleEnv.fits Set.univ S bucketWorld.tree ∧ "abc" ∈ S := by
  obtain ⟨S, h⟩ := serveAll_kept (C := checkedCrates)
    (.of_all fun _ => rfl : OwnNames sampleEnv) 0 [(0, .createBucket "abc")]
  have hdir : bucketWorld.tree.IsDir (bucketDir "abc") := by decide +kernel
  exact ⟨S, h, (h.bucket "abc").mp hdir⟩

/-- An upload of `a` with the given checksum fields, headers and trailers. -/
def uploadA (crc32 crc32c : Option String) (headers : HeaderMap)
    (trailing : Option (Option HeaderMap)) : S3Request PutObjectInput where
  input :=
    { bucket := "abc", key := "k", body := some [some (.ok []), none, some (.ok (utf8 "a"))],
      contentType := none, metadata := none, checksumCrc32 := crc32, checksumCrc32c := crc32c,
      checksumSha1 := none, checksumSha256 := none, checksumCrc64nvme := none }
  headers := headers
  trailingHeaders := trailing

/-- It is accepted if it passes. -/
theorem uploadA_accepted {S : Store} (hS : "abc" ∈ S) (crc32 crc32c : Option String)
    (headers : HeaderMap) (trailing : Option (Option HeaderMap))
    (hframe : rejectContradictoryAwsChunked headers = .ok ())
    (hp : Passes checkedCrates.toHashes (uploadA crc32 crc32c headers trailing).checksum
      (utf8 "a")) :
    Accepted sampleEnv checkedCrates.toHashes S (uploadA crc32 crc32c headers trailing)
      (utf8 "a") where
  reaches := ⟨_, ⟨hframe, rfl, (by decide : isValidBucketName "abc" = true), hS⟩,
    [[], utf8 "a"], rfl, rfl⟩
  passes := hp
  key := fun _ _ => rfl

theorem putObject_verified_crc32 :
    ∃ out w', runAlone sampleEnv (putObject checkedCrates
        (uploadA (some "6Le+Qw==") none ⟨[]⟩ none)).run bucketWorld = (.ok out, w') ∧
      out.Reports ⟨.crc32, "6Le+Qw=="⟩ ∧ Kept sampleEnv checkedCrates w' "abc" "k" (utf8 "a")
        ⟨.crc32, "6Le+Qw=="⟩ := by
  obtain ⟨S, h, hS⟩ := bucketWorld_rep
  have hown : OwnNames sampleEnv := .of_all fun _ => rfl
  have hchk : (uploadA (some "6Le+Qw==") none ⟨[]⟩ none).checksum =
      some ⟨.crc32, .immediate "6Le+Qw=="⟩ := rfl
  have hp : Passes checkedCrates.toHashes (uploadA (some "6Le+Qw==") none ⟨[]⟩ none).checksum
      (utf8 "a") := by
    intro c hc
    rw [hchk] at hc
    cases hc
    decide
  have ha := uploadA_accepted hS _ _ _ _ (by decide) hp
  obtain ⟨out, w', hrun⟩ := (putObject_ok_iff hown h).mpr ⟨_, ha⟩
  obtain ⟨body, bytes, v, hbody, hd, hv, -, hrep, hkept⟩ :=
    (putObject_verified hown h hchk).1 out w' hrun
  cases hv
  cases hbody
  have hall : Delivers [some (.ok []), none, some (.ok (utf8 "a"))] (utf8 "a") :=
    ⟨[[], utf8 "a"], rfl, rfl⟩
  cases (collect_of_delivers hd).symm.trans (collect_of_delivers hall)
  exact ⟨out, w', hrun, hrep, hkept⟩

end Aks3.Api
