import Aks3.Api.Handlers
import Aks3.Engine.Paging
import Aks3.Lib.Contents

/-!
# What the service is for

`Store.answer` is S3 as a client knows it: it answers a request from a map of maps, without an
engine, a filesystem or a stream. The service, on a data directory, answers every sequence of
requests as it does, restarts included (`service_refines`).

From this follows what a client may rely on, in terms of the requests and the responses alone. A
`GET` gives the body of the last `PUT` of its key that succeeded, unless a `DELETE` has
succeeded since (`reads_last_write`). The keys of a listing, followed from page to page, are
those that a `GET` would find (`pages_list_written`).
-/

set_option autoImplicit false

namespace Aks3.Api

open Lib Engine

/-! ## S3 as a client knows it -/

/-- The bytes of a body, or the text of the error it breaks off with. -/
def delivered : List (Except String Bytes) → Except String Bytes
  | [] => .ok []
  | .error text :: _ => .error text
  | .ok chunk :: rest => (delivered rest).map (chunk ++ ·)

def badDigest (a : ChecksumAlgorithm) : S3Error :=
  ⟨.badDigest, some ("The " ++ a.asStr ++
    " checksum you specified did not match the checksum of the object received.")⟩

def missingTrailer (a : ChecksumAlgorithm) : S3Error :=
  ⟨.invalidRequest, some ("A " ++ a.asStr ++
    " checksum trailer was declared with x-amz-trailer but no trailing checksum was sent.")⟩

/-- The bytes an upload is to store. -/
def S3Request.upload (H : Hashes) (req : S3Request PutObjectInput) (body : Polls String) :
    Except S3Error Bytes :=
  match delivered (items body) with
  | .error _ => .error ⟨.internalError, none⟩
  | .ok bytes =>
    match req.checksum with
    | none => .ok bytes
    | some c =>
      match c.expected.resolve with
      | none => .error (missingTrailer c.algorithm)
      | some value =>
        if value = (c.algorithm.of H bytes).value then .ok bytes
        else .error (badDigest c.algorithm)

/-- What a `GET` answers with an object. -/
def gotReply (C : Crates) (input : GetObjectInput) (o : Object) : S3Reply :=
  match resolveRange (input.range.map toByteRange) o.bytes.length with
  | .error e => .error (mapEngineErr e)
  | .ok (offset, len) => .ok (.object
      (getOutput input (o.info C input.key) offset len [.ok ((o.bytes.drop offset).take len)]))

/-- What a `PUT` answers with the object it has stored. -/
def storedReply (C : Crates) (key : String) (o : Object) : S3Reply :=
  .ok (.stored ⟨fieldsFor (o.info C key).checksum, (o.info C key).etag⟩)

/-- A request that needs its bucket. -/
def withBucket (S : Store) (b : String) (f : Bucket → S3Reply × Store) : S3Reply × Store :=
  if isValidBucketName b = true then
    match S.lookup b with
    | none => (.error (mapEngineErr .noSuchBucket), S)
    | some B => f B
  else (.error (mapEngineErr .invalidBucketName), S)

/-- A request that needs its object. -/
def withObject (S : Store) (b k : String) (f : Object → S3Reply) : S3Reply × Store :=
  withBucket S b fun B =>
    match B.objects.lookup k with
    | none => (.error (mapEngineErr .noSuchKey), S)
    | some o => (f o, S)

/-- Answer one request that comes at time `now`. -/
def answer (C : Crates) (now : Nat) (S : Store) : S3Op → S3Reply × Store
  | .createBucket b =>
    if isValidBucketName b = true then
      if b ∈ S then (.error (mapEngineErr .bucketAlreadyExists), S)
      else (.ok (.created ⟨"/" ++ b⟩), S.insert b ⟨now, ∅⟩)
    else (.error (mapEngineErr .invalidBucketName), S)
  | .headBucket b =>
    if isValidBucketName b = true then
      if b ∈ S then (.ok .done, S) else (.error ⟨.noSuchBucket, none⟩, S)
    else (.error (mapEngineErr .invalidBucketName), S)
  | .deleteBucket b => withBucket S b fun B =>
    if B.objects = ∅ then (.ok .done, S.erase b) else (.error (mapEngineErr .bucketNotEmpty), S)
  | .listBuckets =>
    (.ok (.buckets ⟨S.buckets.map listedBucket, ⟨OWNER_DISPLAY_NAME, OWNER_ID⟩⟩), S)
  | .putObject req =>
    match rejectContradictoryAwsChunked req.headers, req.input.body with
    | .error e, _ => (.error e, S)
    | .ok _, none => (.error ⟨.incompleteBody, none⟩, S)
    | .ok _, some body => withBucket S req.input.bucket fun B =>
      match req.upload C.toHashes body with
      | .error e => (.error e, S)
      | .ok bytes => (storedReply C req.input.key (req.object bytes now), S.insert req.input.bucket
          { B with objects := B.objects.insert req.input.key (req.object bytes now) })
  | .getObject req => withObject S req.input.bucket req.input.key (gotReply C req.input)
  | .headObject req => withObject S req.input.bucket req.input.key fun o =>
    .ok (.head (headOutput req.input (o.info C req.input.key)))
  | .deleteObject b k => withBucket S b fun B =>
    (.ok .done, S.insert b { B with objects := B.objects.erase k })
  | .listObjectsV2 input => withBucket S input.bucket fun B =>
    (.ok (.page (listOutput input (Store.list C B (listParams input)))), S)

/-! ## One request -/

section Requests

variable {env : Env OsName} {C : Crates} {S : Store} {w : World OsName} {now : Nat}

theorem collect_of_delivered (body : Polls String) :
    collect (items (engineBody body)) = (delivered (items body)).mapError bodyError := by
  rw [items_engineBody]
  induction items body with
  | nil => rfl
  | cons item rest ih =>
      cases item with
      | error text => rfl
      | ok chunk =>
          rw [List.map_cons, Except.mapError, collect, ih, delivered]
          cases delivered rest <;> rfl

theorem putError_toIo (e : ChecksumError) : putError (.ofIo e.toIo) =
    match e with
    | .mismatch a => badDigest a
    | .missingTrailer a => missingTrailer a := by
  have hio : EngineError.ofIo e.toIo = .io e.toIo := rfl
  rw [hio, putError, ChecksumError.ofIo_toIo]
  cases e <;> rfl

/-- A body arrives as the engine reads it through the check. -/
theorem upload_eq (H : Hashes) (req : S3Request PutObjectInput) (body : Polls String) :
    req.upload H body =
      (collect (engineStream H req.checksum body)).mapError fun e => putError (.ofIo e) := by
  rw [S3Request.upload]
  cases req.checksum with
  | none =>
      rw [engineStream, collect_of_delivered]
      cases delivered (items body) <;> rfl
  | some c =>
      rw [engineStream, VerifyingStream.collect_drain_new, collect_of_delivered]
      cases delivered (items body) with
      | error text => rfl
      | ok bytes =>
          dsimp only [Except.mapError, Except.bind, VerifyingStream.checked]
          cases c.expected.resolve with
          | none => simp [evaluate, putError_toIo]
          | some value =>
              by_cases hv : (c.algorithm.of H bytes).value = value
              · simp [evaluate, hv]
              · simp [evaluate, hv, Ne.symm hv, putError_toIo]

/-- The engine's answer to a request in a bucket, in S3's words. -/
theorem reply_inBucket (op : S3Op) {b : String} {f : Bucket → Resp × Store}
    (missing : op.reply (.error .noSuchBucket) = .error (mapEngineErr .noSuchBucket))
    (invalid : op.reply (.error .invalidBucketName) = .error (mapEngineErr .invalidBucketName)) :
    (op.reply (S.inBucket b f).1, (S.inBucket b f).2) =
      withBucket S b fun B => (op.reply (f B).1, (f B).2) := by
  rw [Store.inBucket, withBucket]
  split
  · cases S.lookup b with
    | none => exact Prod.ext missing rfl
    | some B => rfl
  · exact Prod.ext invalid rfl

/-- S3 is the engine's store behind the handlers. -/
theorem answer_eq (C : Crates) (now : Nat) (S : Store) (op : S3Op) : answer C now S op =
    match op.request C.toHashes with
    | .error e => (.error e, S)
    | .ok r => (op.reply (S.apply C now r).1, (S.apply C now r).2) := by
  cases op with
  | createBucket b =>
      rw [answer, S3Op.request]
      dsimp only
      rw [Store.apply]
      split_ifs <;> rfl
  | headBucket b =>
      rw [answer, S3Op.request]
      dsimp only
      rw [Store.apply]
      split_ifs with hv hb
      · simp [hb, S3Op.reply, S3Op.shape]
      · simp [hb, S3Op.reply, S3Op.shape]
      · rfl
  | deleteBucket b =>
      refine Eq.trans ?_ (reply_inBucket (.deleteBucket b) rfl rfl).symm
      refine congrArg (withBucket S b) (funext fun B => ?_)
      split_ifs <;> rfl
  | listBuckets => rfl
  | putObject req =>
      rw [answer, S3Op.request]
      cases rejectContradictoryAwsChunked req.headers with
      | error e => rfl
      | ok u =>
          cases req.input.body with
          | none => rfl
          | some body =>
              refine Eq.trans ?_ (reply_inBucket (.putObject req) rfl rfl).symm
              refine congrArg (withBucket S req.input.bucket) (funext fun B => ?_)
              rw [upload_eq]
              cases collect (engineStream C.toHashes req.checksum body) <;> rfl
  | getObject req =>
      refine Eq.trans ?_ (reply_inBucket (.getObject req) rfl rfl).symm
      refine congrArg (withBucket S req.input.bucket) (funext fun B => ?_)
      cases B.objects.lookup req.input.key with
      | none => rfl
      | some o =>
          simp only [gotReply, Store.get]
          cases resolveRange (req.input.range.map toByteRange) o.bytes.length <;> rfl
  | headObject req =>
      refine Eq.trans ?_ (reply_inBucket (.headObject req) rfl rfl).symm
      refine congrArg (withBucket S req.input.bucket) (funext fun B => ?_)
      cases B.objects.lookup req.input.key <;> rfl
  | deleteObject b k =>
      refine Eq.trans ?_ (reply_inBucket (.deleteObject b k) rfl rfl).symm
      rfl
  | listObjectsV2 input =>
      refine Eq.trans ?_ (reply_inBucket (.listObjectsV2 input) rfl rfl).symm
      rfl

theorem request_key {H : Hashes} {op : S3Op} {r : Req} (h : op.request H = .ok r) :
    r.key = op.key := by
  cases op with
  | putObject req =>
      rw [S3Op.request] at h
      cases hframe : rejectContradictoryAwsChunked req.headers with
      | error e =>
          rw [hframe] at h
          cases h
      | ok u =>
          cases hbody : req.input.body with
          | none =>
              rw [hframe, hbody] at h
              cases h
          | some body =>
              rw [hframe, hbody] at h
              cases h
              rfl
  | _ =>
      cases h
      rfl

/-- One request is answered as S3 answers it, and the directory holds the store after it. -/
theorem handle_refines (hown : OwnNames env) (h : Rep C env.fits ∅ S w.tree) (op : S3Op)
    (hk : ∀ k, op.key = some k → Fit env.fits (keyToRelPath k)) :
    ∃ w', runAlone env (handle C op) w = ((answer C w.clock S op).1, w') ∧
      Rep C env.fits ∅ (answer C w.clock S op).2 w'.tree := by
  rw [handle_run, answer_eq]
  cases hreq : op.request C.toHashes with
  | error e => exact ⟨w, rfl, h⟩
  | ok r =>
      have same : r.key = op.key := request_key hreq
      obtain ⟨w', hrun, hrep⟩ := serve_refines hown h r (same ▸ hk)
      refine ⟨w', ?_, hrep⟩
      simp only [hrun]

end Requests

/-! ## Sequences of requests -/

/-- What comes to the machine: the server is started on the data directory, or a request. -/
inductive Arrival where
  | start
  | request (op : S3Op)

/-- A request that was answered. -/
structure Exchange where
  time : Nat
  op : S3Op
  reply : S3Reply

/-- The service over a sequence of arrivals, each with the time it comes at. A server that cannot
open its data directory answers nothing. -/
def runService (env : Env OsName) (C : Crates) :
    World OsName → List (Nat × Arrival) → List Exchange × World OsName
  | w, [] => ([], w)
  | w, (now, .start) :: rest =>
    match runAlone env (serve C .openEngine) { w with clock := now } with
    | (.ok _, w') => runService env C w' rest
    | (.error _, w') => ([], w')
  | w, (now, .request op) :: rest =>
    let (reply, w') := runAlone env (handle C op) { w with clock := now }
    let (log, w'') := runService env C w' rest
    (⟨now, op, reply⟩ :: log, w'')

/-- S3 over the same arrivals. -/
def answerAll (C : Crates) : Store → List (Nat × Arrival) → List Exchange × Store
  | S, [] => ([], S)
  | S, (_, .start) :: rest => answerAll C S rest
  | S, (now, .request op) :: rest =>
    let (reply, S') := answer C now S op
    let (log, S'') := answerAll C S' rest
    (⟨now, op, reply⟩ :: log, S'')

section Sequences

variable {env : Env OsName} {C : Crates}

/-- The filesystem accepts the names the keys of the requests are stored under. -/
def KeysFit (env : Env OsName) (arrivals : List (Nat × Arrival)) : Prop :=
  ∀ now op k, (now, .request op) ∈ arrivals → op.key = some k → Fit env.fits (keyToRelPath k)

theorem runService_rep (hown : OwnNames env) : ∀ {arrivals : List (Nat × Arrival)} {S : Store}
    {w : World OsName}, KeysFit env arrivals → Rep C env.fits ∅ S w.tree →
      ∃ w', runService env C w arrivals = ((answerAll C S arrivals).1, w') ∧
        Rep C env.fits ∅ (answerAll C S arrivals).2 w'.tree
  | [], _, w, _, h => ⟨w, rfl, h⟩
  | (now, .start) :: rest, S, w, hk, h => by
      obtain ⟨w₁, hrun₁, h₁⟩ := serve_refines (w := { w with clock := now }) hown h .openEngine
        fun k hkey => by cases hkey
      obtain ⟨w₂, hrun₂, h₂⟩ := runService_rep hown (fun now op k hmem =>
        hk now op k (List.mem_cons_of_mem _ hmem)) h₁
      refine ⟨w₂, ?_, h₂⟩
      rw [runService, hrun₁]
      exact hrun₂
  | (now, .request op) :: rest, S, w, hk, h => by
      obtain ⟨w₁, hrun₁, h₁⟩ :=
        handle_refines (w := { w with clock := now }) hown h op fun k hkey =>
        hk now op k List.mem_cons_self hkey
      obtain ⟨w₂, hrun₂, h₂⟩ := runService_rep hown (fun now op k hmem =>
        hk now op k (List.mem_cons_of_mem _ hmem)) h₁
      refine ⟨w₂, ?_, h₂⟩
      rw [runService, hrun₁]
      simp only [hrun₂, answerAll]

/-- A server that was started on an empty directory. -/
theorem runService_start (hown : OwnNames env) {arrivals : List (Nat × Arrival)} (start : Nat)
    (hk : KeysFit env arrivals) :
    ∃ w, runService env C (World.empty OsName) ((start, .start) :: arrivals) =
        ((answerAll C ∅ arrivals).1, w) ∧ Rep C env.fits ∅ (answerAll C ∅ arrivals).2 w.tree := by
  obtain ⟨w₁, hrun₁, h₁, -⟩ := open_rep (w := { World.empty OsName with clock := start }) hown
    (shaped_empty env.fits) (contents_empty C) (.inl rfl)
  obtain ⟨w₂, hrun₂, h₂⟩ := runService_rep hown hk h₁
  refine ⟨w₂, ?_, h₂⟩
  rw [runService, hrun₁]
  exact hrun₂

/-- **The service is S3 over a map of maps.** A server started on an empty data directory answers
every sequence of requests, with restarts anywhere in it, as S3 does, response for response. -/
theorem service_refines (hown : OwnNames env) {arrivals : List (Nat × Arrival)} (start : Nat)
    (hk : KeysFit env arrivals) :
    (runService env C (World.empty OsName) ((start, .start) :: arrivals)).1 =
      (answerAll C ∅ arrivals).1 := by
  obtain ⟨w, hrun, -⟩ := runService_start (C := C) hown start hk
  rw [hrun]

/-- An upload of a text to `abc/k`. -/
def uploadText (text : String) : S3Request PutObjectInput where
  input :=
    { (uploadA none none ⟨[]⟩ none).input with body := some [none, some (.ok (utf8 text))] }
  headers := ⟨[]⟩
  trailingHeaders := none

def readBack : S3Request GetObjectInput := ⟨⟨"abc", "k", none, none⟩, ⟨[]⟩, none⟩

/-- An object is overwritten and read back after a restart. -/
def overwrite : List (Nat × Arrival) :=
  [(0, .request (.createBucket "abc")), (0, .request (.putObject (uploadText "a"))),
    (0, .request (.putObject (uploadText "b"))), (0, .start), (0, .request (.getObject readBack))]

theorem service_refines_overwrite :
    (runService sampleEnv sampleCrates (World.empty OsName) ((0, .start) :: overwrite)).1.map
      Exchange.reply =
    [.ok (.created ⟨"/abc"⟩), .ok (.stored ⟨fieldsFor none, etagA⟩),
      .ok (.stored ⟨fieldsFor none, etagB⟩),
      .ok (.object ⟨fieldsFor none, [.ok (utf8 "b")], ACCEPT_RANGES, 1, none, DEFAULT_CONTENT_TYPE,
        etagB, 0, .empty⟩)] := by
  rw [service_refines (.of_all fun _ => rfl) 0 fun _ _ _ _ _ _ _ => rfl]
  decide +kernel

end Sequences

/-! ## Reading what was written -/

/-- An upload, with the time it came at. -/
abbrev Upload := Nat × S3Request PutObjectInput

/-- What a key holds after one more exchange: the upload of it that succeeded last, unless it has
been deleted since. -/
def Exchange.leaves (b k : String) (held : Option Upload) (x : Exchange) : Option Upload :=
  match x.op, x.reply with
  | .putObject req, .ok _ =>
    if req.input.bucket = b ∧ req.input.key = k then some (x.time, req) else held
  | .deleteObject b' k', .ok _ => if b' = b ∧ k' = k then none else held
  | _, _ => held

/-- What a key holds after a sequence of exchanges. -/
def lastUpload (b k : String) (log : List Exchange) : Option Upload :=
  log.foldl (Exchange.leaves b k) none

/-- An object is what an upload has stored. -/
def StoredBy : Option Upload → Option Object → Prop
  | none, o => o = none
  | some (time, req), o => ∃ body bytes, req.input.body = some body ∧ Delivers body bytes ∧
    o = some (req.object bytes time)

/-- A store holds what its uploads have left in it. -/
structure Holds (S : Store) (held : String → String → Option Upload) : Prop where
  valid : ∀ b ∈ S, isValidBucketName b = true
  stored : ∀ b k, StoredBy (held b k) (S.object b k)

section Histories

variable {env : Env OsName} {C : Crates} {S : Store} {now : Nat}
  {held : String → String → Option Upload}

theorem holds_empty : Holds ∅ fun _ _ => none :=
  ⟨fun _ h => absurd h Finmap.notMem_empty, fun _ _ => Store.object_of_notMem Finmap.notMem_empty⟩

/-- A request in a bucket fails, or does what it does in a bucket of the store. -/
theorem withBucket_cases {b : String} {f : Bucket → S3Reply × Store} {P : S3Reply × Store → Prop}
    (fails : ∀ e, e = .noSuchBucket ∨ e = .invalidBucketName → P (.error (mapEngineErr e), S))
    (finds : ∀ B, isValidBucketName b = true → S.lookup b = some B → P (f B)) :
    P (withBucket S b f) := by
  rw [withBucket]
  split
  · rename_i hv
    cases hB : S.lookup b with
    | none => exact fails _ (.inl rfl)
    | some B => exact finds B hv hB
  · exact fails _ (.inr rfl)

theorem withObject_state (b k : String) (f : Object → S3Reply) : (withObject S b k f).2 = S := by
  rw [withObject]
  refine withBucket_cases (P := fun x => x.2 = S) (fun _ _ => rfl) fun B _ _ => ?_
  cases B.objects.lookup k <;> rfl

theorem Holds.update (h : Holds S held) {b : String} {B B' : Bucket} (hB : S.lookup b = some B)
    {held' : String → String → Option Upload}
    (stored : ∀ b' k, StoredBy (held' b' k) (Store.object (S.insert b B') b' k)) :
    Holds (S.insert b B') held' :=
  ⟨fun b' hb' => h.valid b' ((Store.mem_update hB).mp hb'), stored⟩

theorem delivers_of_upload {H : Hashes} {req : S3Request PutObjectInput} {body : Polls String}
    {bytes : Bytes} (h : req.upload H body = .ok bytes) : Delivers body bytes := by
  rw [upload_eq] at h
  exact (collect_engineStream_iff.mp (mapError_eq_ok.mp h)).1

/-- One exchange. -/
theorem Holds.step (h : Holds S held) (op : S3Op) : Holds (answer C now S op).2 fun b k =>
    Exchange.leaves b k (held b k) ⟨now, op, (answer C now S op).1⟩ := by
  cases op with
  | createBucket b =>
      rw [answer]
      split_ifs with hv hb
      · exact h
      · refine ⟨fun b' hb' => ?_, fun b' k => ?_⟩
        · rcases (Finmap.mem_insert).mp hb' with rfl | hb'
          · exact hv
          · exact h.valid b' hb'
        · exact (Store.object_create hb now).symm ▸ h.stored b' k
      · exact h
  | headBucket b =>
      rw [answer]
      split_ifs <;> exact h
  | deleteBucket b =>
      refine withBucket_cases (P := fun x => Holds x.2 fun b' k =>
        Exchange.leaves b' k (held b' k) ⟨now, .deleteBucket b, x.1⟩) (fun _ _ => h)
        fun B _ hB => ?_
      split_ifs with he
      · refine ⟨fun b' hb' => h.valid b' (Finmap.mem_erase.mp hb').2, fun b' k => ?_⟩
        exact (Store.object_erase hB he).symm ▸ h.stored b' k
      · exact h
  | listBuckets => exact h
  | putObject req =>
      rw [answer]
      cases hframe : rejectContradictoryAwsChunked req.headers with
      | error e => exact h
      | ok u =>
          cases hbody : req.input.body with
          | none => exact h
          | some body =>
              refine withBucket_cases (P := fun x => Holds x.2 fun b' k =>
                Exchange.leaves b' k (held b' k) ⟨now, .putObject req, x.1⟩) (fun _ _ => h)
                fun B _ hB => ?_
              cases hup : req.upload C.toHashes body with
              | error e => exact h
              | ok bytes =>
                  refine h.update hB fun b' k => ?_
                  rw [Store.object_put hB]
                  change StoredBy (if req.input.bucket = b' ∧ req.input.key = k then some (now, req)
                    else held b' k) _
                  by_cases here : b' = req.input.bucket ∧ k = req.input.key
                  · obtain ⟨rfl, rfl⟩ := here
                    rw [if_pos ⟨rfl, rfl⟩, if_pos ⟨rfl, rfl⟩]
                    exact ⟨body, bytes, hbody, delivers_of_upload hup, rfl⟩
                  · rw [if_neg here, if_neg fun hx => here ⟨hx.1.symm, hx.2.symm⟩]
                    exact h.stored b' k
  | getObject req =>
      rw [answer, withObject_state]
      exact h
  | headObject req =>
      rw [answer, withObject_state]
      exact h
  | deleteObject b k =>
      refine withBucket_cases (P := fun x => Holds x.2 fun b' k' =>
        Exchange.leaves b' k' (held b' k') ⟨now, .deleteObject b k, x.1⟩) (fun _ _ => h)
        fun B _ hB => h.update hB fun b' k' => ?_
      rw [Store.object_delete hB, Exchange.leaves]
      dsimp only
      by_cases here : b' = b ∧ k' = k
      · obtain ⟨rfl, rfl⟩ := here
        rw [if_pos ⟨rfl, rfl⟩, if_pos ⟨rfl, rfl⟩]
        rfl
      · rw [if_neg here, if_neg fun hx => here ⟨hx.1.symm, hx.2.symm⟩]
        exact h.stored b' k'
  | listObjectsV2 input =>
      exact withBucket_cases (P := fun x => Holds x.2 fun b k =>
        Exchange.leaves b k (held b k) ⟨now, .listObjectsV2 input, x.1⟩) (fun _ _ => h)
        fun _ _ _ => h

theorem answerAll_request (S : Store) (now : Nat) (op : S3Op) (rest : List (Nat × Arrival)) :
    answerAll C S ((now, .request op) :: rest) =
      (⟨now, op, (answer C now S op).1⟩ :: (answerAll C (answer C now S op).2 rest).1,
        (answerAll C (answer C now S op).2 rest).2) := rfl

/-- Every exchange of a sequence is with a store that holds what the exchanges before have left. -/
theorem answerAll_split {after : List Exchange} {x : Exchange} :
    ∀ {arrivals : List (Nat × Arrival)} {S : Store} {held : String → String → Option Upload}
      {before : List Exchange}, Holds S held →
      (answerAll C S arrivals).1 = before ++ x :: after →
      ∃ S', Holds S' (fun b k => before.foldl (Exchange.leaves b k) (held b k)) ∧
        x.reply = (answer C x.time S' x.op).1
  | [], _, _, before, _, hlog => by
      cases before <;> cases hlog
  | (_, .start) :: rest, _, _, _, h, hlog => by
      rw [answerAll] at hlog
      exact answerAll_split h hlog
  | (now, .request op) :: rest, S, held, before, h, hlog => by
      rw [answerAll_request] at hlog
      cases before with
      | nil =>
          obtain ⟨hx, -⟩ := List.cons.inj hlog
          rw [← hx]
          exact ⟨S, h, rfl⟩
      | cons y before =>
          rw [List.cons_append] at hlog
          obtain ⟨hy, hrest⟩ := List.cons.inj hlog
          obtain ⟨S', h', hreply⟩ := answerAll_split (h.step op) hrest
          rw [← hy]
          exact ⟨S', h', hreply⟩

/-- The store at the end. -/
theorem answerAll_holds : ∀ {arrivals : List (Nat × Arrival)} {S : Store}
    {held : String → String → Option Upload}, Holds S held →
      Holds (answerAll C S arrivals).2 fun b k =>
        (answerAll C S arrivals).1.foldl (Exchange.leaves b k) (held b k)
  | [], _, _, h => h
  | (_, .start) :: rest, _, _, h => by
      rw [answerAll]
      exact answerAll_holds h
  | (_, .request op) :: rest, _, _, h => by
      rw [answerAll_request]
      exact answerAll_holds (h.step op)

theorem withObject_some {b k : String} {o : Object} (h : Holds S held) (ho : S.object b k = some o)
    (f : Object → S3Reply) : withObject S b k f = (f o, S) := by
  obtain ⟨B, hB, hk⟩ := Option.bind_eq_some_iff.mp ho
  rw [withObject, withBucket, if_pos (h.valid b (Finmap.mem_of_lookup_eq_some hB)), hB]
  dsimp only
  rw [hk]

/-- A key that is not there. -/
def Absent (reply : S3Reply) : Prop :=
  ∃ e, reply = .error (mapEngineErr e) ∧
    (e = .noSuchKey ∨ e = .noSuchBucket ∨ e = .invalidBucketName)

theorem withObject_none {b k : String} (ho : S.object b k = none) (f : Object → S3Reply) :
    Absent (withObject S b k f).1 := by
  refine withBucket_cases (P := fun x => Absent x.1) (fun e he => ⟨e, rfl, .inr he⟩)
    fun B _ hB => ?_
  rw [← Store.object_of_lookup hB, ho]
  exact ⟨_, rfl, .inl rfl⟩

/-- A response that reads a key as the exchanges before have left it. -/
def ReadsLast (b k : String) (before : List Exchange) (f : Object → S3Reply)
    (reply : S3Reply) : Prop :=
  match lastUpload b k before with
  | none => Absent reply
  | some (time, put) => ∃ body bytes, put.input.body = some body ∧ Delivers body bytes ∧
      reply = f (put.object bytes time)

theorem readsLast_of_holds {b k : String} {before : List Exchange}
    (h : Holds S fun b k => lastUpload b k before) (f : Object → S3Reply) :
    ReadsLast b k before f (withObject S b k f).1 := by
  have stored := h.stored b k
  rw [ReadsLast]
  cases hlast : lastUpload b k before with
  | none =>
      rw [hlast] at stored
      exact withObject_none stored f
  | some upload =>
      rw [hlast] at stored
      obtain ⟨body, bytes, hbody, hbytes, ho⟩ := stored
      exact ⟨body, bytes, hbody, hbytes, by rw [withObject_some h ho]⟩

/-- **Reads see the last write.** Whatever requests a server has answered since its directory was
empty, with restarts anywhere among them, a `GET` or a `HEAD` of a key is answered from the upload
of the key that succeeded last: with its body, or the range of it asked for, its type, its
metadata and the time it came at. A key with no upload, or deleted since, is not found. -/
theorem reads_last_write (hown : OwnNames env) {arrivals : List (Nat × Arrival)} (start : Nat)
    (hk : KeysFit env arrivals) {before after : List Exchange} {x : Exchange}
    (hlog : (runService env C (World.empty OsName) ((start, .start) :: arrivals)).1 =
      before ++ x :: after) :
    (∀ req, x.op = .getObject req →
      ReadsLast req.input.bucket req.input.key before (gotReply C req.input) x.reply) ∧
    ∀ req, x.op = .headObject req →
      ReadsLast req.input.bucket req.input.key before
        (fun o => .ok (.head (headOutput req.input (o.info C req.input.key)))) x.reply := by
  obtain ⟨w, hrun, -⟩ := runService_start (C := C) hown start hk
  rw [hrun] at hlog
  obtain ⟨S, h, hreply⟩ := answerAll_split holds_empty hlog
  constructor
  · intro req hop
    rw [hreply, hop]
    exact readsLast_of_holds h _
  · intro req hop
    rw [hreply, hop]
    exact readsLast_of_holds h _

theorem reads_last_write_overwrite : ∃ before x after,
    (runService sampleEnv sampleCrates (World.empty OsName) ((0, .start) :: overwrite)).1 =
      before ++ x :: after ∧ x.op = .getObject readBack ∧
    ReadsLast "abc" "k" before (gotReply sampleCrates readBack.input) x.reply ∧
    x.reply = .ok (.object ⟨fieldsFor none, [.ok (utf8 "b")], ACCEPT_RANGES, 1, none,
      DEFAULT_CONTENT_TYPE, etagB, 0, .empty⟩) := by
  have hown : OwnNames sampleEnv := .of_all fun _ => rfl
  have hk : KeysFit sampleEnv overwrite := fun _ _ _ _ _ _ _ => rfl
  obtain ⟨w, hrun, -⟩ := runService_start (C := sampleCrates) hown 0 hk
  have hlog := (congrArg Prod.fst hrun).trans
    (rfl : _ = [_, _, _] ++ (_ : Exchange) :: ([] : List Exchange))
  exact ⟨_, _, _, hlog, rfl, (reads_last_write hown 0 hk hlog).1 readBack rfl, by decide +kernel⟩

end Histories

/-! ## Listing what was written -/

/-- A client that asks for page after page, each from the token of the one before, until one is not
truncated. The `i`th page is asked for with `budget i`; `none` says that a request failed, or that
`fuel` pages were not enough. -/
def readPages (env : Env OsName) (C : Crates) : Nat → (Nat → Option Int) → ListObjectsV2Input →
    World OsName → Option (List ListObjectsV2Output) × World OsName
  | 0, _, _, w => (none, w)
  | fuel + 1, budget, input, w =>
    match runAlone env (handle C (.listObjectsV2 { input with maxKeys := budget 0 })) w with
    | (.ok (.page out), w') =>
      if out.isTruncated then
        let next := readPages env C fuel (fun i => budget (i + 1))
          { input with continuationToken := out.nextContinuationToken } w'
        (next.1.map (out :: ·), next.2)
      else (some [out], w')
    | (_, w') => (none, w')

/-- The keys and the common prefixes of a page, in byte order. -/
def ListObjectsV2Output.items (out : ListObjectsV2Output) : List String :=
  (out.contents.map ListedObject.key ++ out.commonPrefixes).insertionSort strLe

/-- A page of the engine's and the response it is sent in. -/
def Sent (budget : Option Int) (r : ListResult) (out : ListObjectsV2Output) : Prop :=
  ∃ input : ListObjectsV2Input, out = listOutput { input with maxKeys := budget } r

/-- The pages of the engine's and the responses they are sent in. -/
def AllSent : (Nat → Option Int) → List ListResult → List ListObjectsV2Output → Prop
  | _, [], outs => outs = []
  | budget, r :: rs, outs => ∃ out outs', outs = out :: outs' ∧ Sent (budget 0) r out ∧
      AllSent (fun i => budget (i + 1)) rs outs'

section Pages

variable {env : Env OsName} {C : Crates}

theorem Sent.items_eq {budget : Option Int} {r : ListResult} {out : ListObjectsV2Output}
    (h : Sent budget r out) : out.items = r.items := by
  obtain ⟨input, rfl⟩ := h
  simp [ListObjectsV2Output.items, ListResult.items, listOutput, Function.comp_def, listedObject]

/-- A client of the service reads the pages a client of the engine would read. -/
theorem readPages_of_follow :
    ∀ {fuel : Nat} {budget : Nat → Option Int} {input : ListObjectsV2Input}
    {w w' : World OsName} {pages : List ListResult},
      follow env C input.bucket fuel (fun i => (pageSize (budget i)).toNat) (listParams input) w =
        (some pages, w') →
      ∃ outs, readPages env C fuel budget input w = (some outs, w') ∧ AllSent budget pages outs
  | 0, _, _, _, _, _, h => by cases h
  | fuel + 1, budget, input, w, w', pages, h => by
      rw [follow] at h
      generalize hx : runAlone env (serve C (.listObjectsV2 input.bucket
        { listParams input with maxKeys := (pageSize (budget 0)).toNat })) w = x at h
      obtain ⟨resp, w₁⟩ := x
      have answered :
          runAlone env (handle C (.listObjectsV2 { input with maxKeys := budget 0 })) w =
            ((S3Op.listObjectsV2 { input with maxKeys := budget 0 }).reply resp, w₁) := by
        rw [handle_run]
        exact congrArg
          (fun x => ((S3Op.listObjectsV2 { input with maxKeys := budget 0 }).reply x.1, x.2)) hx
      rw [readPages, answered]
      rcases resp with e | answer
      · cases h
      · cases answer with
        | page r =>
            dsimp only [S3Op.reply, S3Op.shape, listOutput] at h ⊢
            by_cases more : r.isTruncated = true
            · rw [if_pos more] at h ⊢
              generalize hnext : follow env C input.bucket fuel _ _ w₁ = next at h
              obtain ⟨rest, w₂⟩ := next
              cases rest with
              | none => cases h
              | some rest =>
                  cases h
                  have next : ∃ outs, readPages env C fuel (fun i => budget (i + 1))
                      { input with continuationToken := r.nextContinuationToken } w₁ =
                        (some outs, w₂) ∧ AllSent (fun i => budget (i + 1)) rest outs :=
                    readPages_of_follow hnext
                  obtain ⟨outs, hread, hsent⟩ := next
                  rw [hread]
                  exact ⟨_, rfl, _, outs, rfl, ⟨input, rfl⟩, hsent⟩
            · rw [if_neg more] at h ⊢
              cases h
              exact ⟨_, rfl, _, [], rfl, ⟨input, rfl⟩, rfl⟩
        | _ => cases h

theorem AllSent.items_eq : ∀ {budget : Nat → Option Int} {pages : List ListResult}
    {outs : List ListObjectsV2Output}, AllSent budget pages outs →
      outs.flatMap ListObjectsV2Output.items = pages.flatMap ListResult.items
  | _, [], _, h => by
      rw [show _ = [] from h]
      rfl
  | _, r :: rs, _, h => by
      obtain ⟨out, outs, rfl, hsent, hrest⟩ := h
      rw [List.flatMap_cons, List.flatMap_cons, hsent.items_eq, hrest.items_eq]

theorem AllSent.mem : ∀ {budget : Nat → Option Int} {pages : List ListResult}
    {outs : List ListObjectsV2Output} {out : ListObjectsV2Output}, AllSent budget pages outs →
      out ∈ outs → ∃ i r, pages[i]? = some r ∧ Sent (budget i) r out
  | _, [], _, _, h, hmem => by
      rw [show _ = [] from h] at hmem
      cases hmem
  | _, r :: rs, _, _, h, hmem => by
      obtain ⟨out', outs, rfl, hsent, hrest⟩ := h
      rcases List.mem_cons.mp hmem with rfl | hmem
      · exact ⟨0, r, rfl, hsent⟩
      · obtain ⟨i, r', hr', hsent'⟩ := hrest.mem hmem
        exact ⟨i + 1, r', hr', hsent'⟩

theorem pageSize_le (requested : Option Int) : pageSize requested ≤ MAX_KEYS_PER_PAGE := by
  unfold pageSize
  dsimp only
  split_ifs with h₁ h₂
  · decide
  · exact le_refl _
  · exact not_lt.mp h₂

/-- The keys a page counts are those it carries, and no more than it was asked for. -/
theorem Sent.keyCount_le {budget : Option Int} {r : ListResult} {out : ListObjectsV2Output}
    (h : Sent budget r out) (hr : r.items.length ≤ (pageSize budget).toNat)
    (hpos : 0 ≤ pageSize budget) :
    out.keyCount = (out.contents.length + out.commonPrefixes.length : Nat) ∧
      out.keyCount ≤ out.maxKeys ∧ out.maxKeys ≤ MAX_KEYS_PER_PAGE := by
  obtain ⟨input, rfl⟩ := h
  have hlen : r.items.length = r.objects.length + r.commonPrefixes.length := by
    rw [ListResult.items, List.length_insertionSort, List.length_append, List.length_map]
  have hmax := pageSize_le budget
  have hsmall : r.objects.length + r.commonPrefixes.length < 2 ^ 31 := by
    rw [MAX_KEYS_PER_PAGE] at hmax
    omega
  have hcount : wireCount (r.objects.length + r.commonPrefixes.length) =
      (r.objects.length + r.commonPrefixes.length : Nat) := if_pos hsmall
  refine ⟨?_, ?_, hmax⟩
  · simp only [listOutput, hcount, List.length_map]
  · simp only [listOutput, hcount]
    omega

/-- The object a listing reports is the one an upload has stored. -/
def ListedBy (C : Crates) (b : String) (log : List Exchange) (o : ListedObject) : Prop :=
  ∃ time put body bytes, lastUpload b o.key log = some (time, put) ∧ put.input.body = some body ∧
    Delivers body bytes ∧
    o = ⟨o.key, wireLength bytes.length, hexLower (C.md5 bytes), epochMsToSystemtime time⟩

theorem listedBy_of_entry {X : Set (Path OsName)} {S : Store} {t : FileTree OsName} {b : String}
    {log : List Exchange} {info : ObjectInfo} {e : VersionEntry} (h : Contents C X S t)
    (holds : Holds S fun b k => lastUpload b k log) (he : entryAt C t b info.key = .ok e)
    (hinfo : info = objectInfo info.key e) : ListedBy C b log (listedObject info) := by
  have stored := holds.stored b info.key
  rw [h.entryAt_eq] at he
  cases hlast : lastUpload b info.key log with
  | none =>
      rw [hlast] at stored
      rw [show S.object b info.key = none from stored] at he
      cases he
  | some upload =>
      obtain ⟨time, put⟩ := upload
      rw [hlast] at stored
      obtain ⟨body, bytes, hbody, hbytes, ho⟩ := stored
      rw [ho] at he
      cases he
      rw [objectInfo_entry] at hinfo
      refine ⟨time, put, body, bytes, hlast, hbody, hbytes, ?_⟩
      rw [hinfo]
      rfl

theorem StoredBy.isSome_iff {held : Option Upload} {o : Option Object} (h : StoredBy held o) :
    o.isSome = true ↔ held.isSome = true := by
  cases held with
  | none =>
      rw [show o = none from h]
      rfl
  | some upload =>
      obtain ⟨_, _, _, _, rfl⟩ := h
      exact iff_of_true rfl rfl

/-- **A listing lists what was written.** A client that follows the tokens through a bucket,
whatever budgets it asks for, comes to the end of it. The items of its pages are, in order and
without repetition, those of the keys that have an upload which succeeded and has not been
deleted, as far as they match the query; a page has its keys and its common prefixes each in that
order; what it says of a key is what the last upload stored; and it counts what it carries, which
is never more than was asked for, nor than a thousand. -/
theorem pages_list_written (hown : OwnNames env) {arrivals : List (Nat × Arrival)} (start : Nat)
    (hk : KeysFit env arrivals) {log : List Exchange} {w : World OsName}
    (hrun : runService env C (World.empty OsName) ((start, .start) :: arrivals) = (log, w))
    {input : ListObjectsV2Input} (htoken : input.continuationToken = none)
    (hbucket : (runAlone env (handle C (.headBucket input.bucket)) w).1 = .ok .done)
    {budget : Nat → Option Int} (hbudget : ∀ i, 1 ≤ pageSize (budget i)) :
    ∃ live fuel outs w', live.Pairwise (fun a b => utf8 a < utf8 b) ∧
      (∀ k, k ∈ live ↔ (lastUpload input.bucket k log).isSome = true) ∧
      readPages env C fuel budget input w = (some outs, w') ∧
      outs.flatMap ListObjectsV2Output.items = beyond input.startAfter
        (reference live (input.pfx.getD "") (delimiterOf (listParams input))) ∧
      ∀ out ∈ outs, (∀ o ∈ out.contents, ListedBy C input.bucket log o) ∧
        out.contents.map ListedObject.key = (out.items.filter fun x =>
          (foldOf (input.pfx.getD "") (delimiterOf (listParams input)) x).isNone) ∧
        out.commonPrefixes = (out.items.filter fun x =>
          (foldOf (input.pfx.getD "") (delimiterOf (listParams input)) x).isSome) ∧
        out.keyCount = (out.contents.length + out.commonPrefixes.length : Nat) ∧
        out.keyCount ≤ out.maxKeys ∧ out.maxKeys ≤ MAX_KEYS_PER_PAGE := by
  obtain ⟨w₁, hrun₁, hrep⟩ := runService_start (C := C) hown start hk
  obtain ⟨rfl, rfl⟩ := Prod.mk.inj (hrun.symm.trans hrun₁)
  have holds : Holds (answerAll C ∅ arrivals).2 fun b k =>
      lastUpload b k (answerAll C ∅ arrivals).1 := answerAll_holds holds_empty
  generalize (answerAll C ∅ arrivals).2 = S at *
  generalize (answerAll C ∅ arrivals).1 = log at *
  obtain ⟨hv, hmem⟩ : isValidBucketName input.bucket = true ∧ input.bucket ∈ S := by
    obtain ⟨_, hanswer, -⟩ := handle_refines hown hrep (.headBucket input.bucket) fun k hkey => by
      cases hkey
    rw [hanswer, answer] at hbucket
    split_ifs at hbucket with hv hmem
    exact ⟨hv, hmem⟩
  have hlive : ∀ k, k ∈ liveKeys C w.tree input.bucket ↔
      (lastUpload input.bucket k log).isSome = true := fun k => by
    rw [mem_liveKeys, hrep.liveAt_eq, Option.isSome_map]
    exact (holds.stored input.bucket k).isSome_iff
  have hpos : ∀ i, 1 ≤ (pageSize (budget i)).toNat := fun i => by
    have := hbudget i
    omega
  obtain ⟨pages, w', hfollow, -, hpages⟩ := follow_pages (C := C) (p := listParams input)
    hrep.shaped (hrep.legible input.bucket) hv ((hrep.bucket input.bucket).mpr hmem)
    (hown.fixed _ (by simp [ownNames])) htoken hpos rfl
  obtain ⟨outs, hread, hsent⟩ := readPages_of_follow hfollow
  refine ⟨_, _, outs, w', liveKeys_ascending C w.tree input.bucket, hlive, hread,
    hsent.items_eq.trans hpages.all, fun out hout => ?_⟩
  obtain ⟨i, r, hr, hout⟩ := hsent.mem hout
  have hpage := hpages.page i r hr
  have hle : r.items.length ≤ (pageSize (budget i)).toNat := by
    rw [hpage.items]
    exact List.length_take_le _ _
  have hcount := hout.keyCount_le hle (by have := hbudget i; omega)
  rw [hout.items_eq, hpage.items]
  obtain ⟨q, rfl⟩ := hout
  refine ⟨fun o ho => ?_, ?_, hpage.folded, hcount⟩
  · obtain ⟨info, hinfo, rfl⟩ := List.mem_map.mp ho
    obtain ⟨e, he, hkey⟩ := hpage.found info hinfo
    exact listedBy_of_entry hrep.toContents holds he hkey
  · refine Eq.trans ?_ hpage.keys
    simp only [listOutput, List.map_map, Function.comp_def, listedObject]

/-- The whole bucket, in pages of one item. -/
def wholeBucket : ListObjectsV2Input := ⟨"abc", none, none, none, none, none⟩

theorem pages_list_written_overwrite : ∃ fuel outs w',
    readPages sampleEnv sampleCrates fuel (fun _ => some 1) wholeBucket
      (runService sampleEnv sampleCrates (World.empty OsName) ((0, .start) :: overwrite)).2 =
        (some outs, w') ∧
    "k" ∈ outs.flatMap ListObjectsV2Output.items := by
  have hown : OwnNames sampleEnv := .of_all fun _ => rfl
  have hk : KeysFit sampleEnv overwrite := fun _ _ _ _ _ _ _ => rfl
  have there : (runAlone sampleEnv (handle sampleCrates (.headBucket "abc"))
      (runService sampleEnv sampleCrates (World.empty OsName) ((0, .start) :: overwrite)).2).1 =
        .ok .done := by
    decide +kernel
  have written : (lastUpload "abc" "k" (runService sampleEnv sampleCrates (World.empty OsName)
      ((0, .start) :: overwrite)).1).isSome = true := by
    decide +kernel
  generalize hrun : runService sampleEnv sampleCrates (World.empty OsName)
    ((0, .start) :: overwrite) = run at there written
  obtain ⟨log, w⟩ := run
  have budgets : ∀ _ : Nat, 1 ≤ pageSize (some 1) := fun _ => by decide
  have query : wholeBucket.continuationToken = none := rfl
  obtain ⟨live, fuel, outs, w', -, hlive, hread, hitems, -⟩ :=
    pages_list_written hown 0 hk hrun query there budgets
  refine ⟨fuel, outs, w', hread, ?_⟩
  have listed : "k" ∈ live := (hlive "k").mpr written
  rw [hitems]
  simp [beyond, reference, wholeBucket, itemOf, foldOf, delimiterOf, listParams, listed]

end Pages

end Aks3.Api
