import Aks3.Api.Verified

/-!
# The whole service

The handlers of the bucket requests, of `delete_object` and of `list_objects_v2`, and the service as
one function from an S3 request to a program of the engine (`handle`). Every handler asks the engine
at most one thing and puts its answer in S3's words: `handle_run` says which request that is
(`S3Op.request`) and what becomes of the answer (`S3Op.reply`).
-/

set_option autoImplicit false

namespace Aks3.Api

open Lib Engine

/-! ## Requests and responses -/

/-- The owner every bucket is reported with. -/
structure Owner where
  displayName : String
  id : String
  deriving DecidableEq, Repr

def OWNER_ID : String := "aks3-root"
def OWNER_DISPLAY_NAME : String := "aks3"

structure CreateBucketOutput where
  location : String
  deriving DecidableEq, Repr

/-- A bucket of a `ListBuckets`. -/
structure ListedBucket where
  name : String
  creationDate : Nat
  deriving DecidableEq, Repr

structure ListBucketsOutput where
  buckets : List ListedBucket
  owner : Owner
  deriving DecidableEq, Repr

/-- The input of a `ListObjectsV2`. The budget is a signed number on the wire. -/
structure ListObjectsV2Input where
  bucket : String
  pfx : Option String
  delimiter : Option String
  continuationToken : Option String
  startAfter : Option String
  maxKeys : Option Int
  deriving DecidableEq, Repr

/-- An object of a `ListObjectsV2`. -/
structure ListedObject where
  key : String
  size : Nat
  eTag : String
  lastModified : Nat
  deriving DecidableEq, Repr

structure ListObjectsV2Output where
  name : String
  pfx : Option String
  delimiter : Option String
  maxKeys : Int
  keyCount : Int
  continuationToken : Option String
  startAfter : Option String
  isTruncated : Bool
  nextContinuationToken : Option String
  contents : List ListedObject
  commonPrefixes : List String
  deriving DecidableEq, Repr

/-! ## The values of a response -/

/-- The most keys one page of a listing carries. -/
def MAX_KEYS_PER_PAGE : Int := 1000

/-- The page budget a listing request asks for, made usable. -/
def pageSize (requested : Option Int) : Int :=
  let n := requested.getD MAX_KEYS_PER_PAGE
  if n < 0 then 0 else if n > MAX_KEYS_PER_PAGE then MAX_KEYS_PER_PAGE else n

/-- A number of keys as the wire's 32-bit one. -/
def wireCount (n : Nat) : Int := if n < 2 ^ 31 then n else MAX_KEYS_PER_PAGE

def listedObject (o : ObjectInfo) : ListedObject :=
  ⟨o.key, wireLength o.size, o.etag, epochMsToSystemtime o.mtimeEpochMs⟩

def listedBucket (b : BucketInfo) : ListedBucket := ⟨b.name, epochMsToSystemtime b.createdEpochMs⟩

/-- The query as the engine takes it. -/
def listParams (input : ListObjectsV2Input) : ListParams where
  pfx := input.pfx
  delimiter := input.delimiter
  continuationToken := input.continuationToken
  startAfter := input.startAfter
  maxKeys := (pageSize input.maxKeys).toNat

/-- The page, with the query repeated beside it. -/
def listOutput (input : ListObjectsV2Input) (page : ListResult) : ListObjectsV2Output where
  name := input.bucket
  pfx := input.pfx
  delimiter := input.delimiter
  maxKeys := pageSize input.maxKeys
  keyCount := wireCount (page.objects.length + page.commonPrefixes.length)
  continuationToken := input.continuationToken
  startAfter := input.startAfter
  isTruncated := page.isTruncated
  nextContinuationToken := page.nextContinuationToken
  contents := page.objects.map listedObject
  commonPrefixes := page.commonPrefixes

/-! ## The handlers -/

/-- An engine call whose failure is answered with the S3 error for it. -/
def asked {α : Type} (x : EngineM α) : ExceptT S3Error EngineProg α := ExceptT.adapt mapEngineErr x

def createBucket (C : Crates) (bucket : String) :
    ExceptT S3Error EngineProg CreateBucketOutput := do
  asked (Engine.createBucket C bucket)
  pure ⟨"/" ++ bucket⟩

/-- An absent bucket is answered by the status alone. -/
def headBucket (bucket : String) : ExceptT S3Error EngineProg Unit := do
  if ← asked (bucketExists bucket) then pure () else throw ⟨.noSuchBucket, none⟩

def deleteBucket (bucket : String) : ExceptT S3Error EngineProg Unit :=
  asked (Engine.deleteBucket bucket)

def listBuckets (C : Crates) : ExceptT S3Error EngineProg ListBucketsOutput := do
  let buckets ← asked (Engine.listBuckets C)
  pure ⟨buckets.map listedBucket, ⟨OWNER_DISPLAY_NAME, OWNER_ID⟩⟩

def deleteObject (bucket key : String) : ExceptT S3Error EngineProg Unit :=
  asked (Engine.deleteObject bucket key)

def listObjectsV2 (C : Crates) (input : ListObjectsV2Input) :
    ExceptT S3Error EngineProg ListObjectsV2Output := do
  let page ← asked (Engine.listObjectsV2 C input.bucket (listParams input))
  pure (listOutput input page)

/-! ## The service -/

/-- A request that `s3s` hands to the service. -/
inductive S3Op where
  | createBucket (bucket : String)
  | headBucket (bucket : String)
  | deleteBucket (bucket : String)
  | listBuckets
  | putObject (req : S3Request PutObjectInput)
  | getObject (req : S3Request GetObjectInput)
  | headObject (req : S3Request HeadObjectInput)
  | deleteObject (bucket key : String)
  | listObjectsV2 (input : ListObjectsV2Input)

/-- The key a request is about, if it is about one. -/
def S3Op.key : S3Op → Option String
  | .putObject req => some req.input.key
  | .getObject req => some req.input.key
  | .headObject req => some req.input.key
  | .deleteObject _ k => some k
  | _ => none

deriving instance DecidableEq for GetObjectOutput
deriving instance DecidableEq for HeadObjectOutput

/-- The response of a request that succeeded. -/
inductive S3Answer where
  | created (out : CreateBucketOutput)
  | done
  | buckets (out : ListBucketsOutput)
  | stored (out : PutObjectOutput)
  | object (out : GetObjectOutput)
  | head (out : HeadObjectOutput)
  | page (out : ListObjectsV2Output)
  deriving DecidableEq

abbrev S3Reply := Except S3Error S3Answer

/-- A response whose body has been read to its end. -/
def GetObjectOutput.drained (out : GetObjectOutput) : GetObjectOutput :=
  { out with body := [collect out.body] }

/-- The program of a request. The body of a `GET` is read to its end. -/
def handle (C : Crates) : S3Op → EngineProg S3Reply
  | .createBucket b => (do pure (.created (← createBucket C b)) : ExceptT _ _ _).run
  | .headBucket b => (do headBucket b; pure .done : ExceptT _ _ _).run
  | .deleteBucket b => (do deleteBucket b; pure .done : ExceptT _ _ _).run
  | .listBuckets => (do pure (.buckets (← listBuckets C)) : ExceptT _ _ _).run
  | .putObject req => (do pure (.stored (← putObject C req)) : ExceptT _ _ _).run
  | .getObject req => (do pure (.object (← getObject C C.steady req).drained) : ExceptT _ _ _).run
  | .headObject req => (do pure (.head (← headObject C req)) : ExceptT _ _ _).run
  | .deleteObject b k => (do deleteObject b k; pure .done : ExceptT _ _ _).run
  | .listObjectsV2 input => (do pure (.page (← listObjectsV2 C input)) : ExceptT _ _ _).run

/-! ## What the engine is asked, and what becomes of its answer -/

/-- The request a handler makes of the engine, unless it refuses the client's. -/
def S3Op.request (H : Hashes) : S3Op → Except S3Error Req
  | .createBucket b => .ok (.createBucket b)
  | .headBucket b => .ok (.bucketExists b)
  | .deleteBucket b => .ok (.deleteBucket b)
  | .listBuckets => .ok .listBuckets
  | .putObject req => do
    rejectContradictoryAwsChunked req.headers
    match req.input.body with
    | none => .error ⟨.incompleteBody, none⟩
    | some body => .ok (.putObject req.input.bucket req.input.key (engineStream H req.checksum body)
        (putOpts req.input req.checksum))
  | .getObject req =>
    .ok (.getObject req.input.bucket req.input.key (req.input.range.map toByteRange))
  | .headObject req => .ok (.headObject req.input.bucket req.input.key)
  | .deleteObject b k => .ok (.deleteObject b k)
  | .listObjectsV2 input => .ok (.listObjectsV2 input.bucket (listParams input))

/-- A stored checksum is of the whole object, so a ranged read leaves it off. -/
def getOutput (input : GetObjectInput) (info : ObjectInfo) (offset len : Nat) (body : ByteStream) :
    GetObjectOutput where
  toChecksumFields := fieldsFor (if (input.range.map toByteRange).isNone &&
    checksumModeEnabled input.checksumMode then info.checksum else none)
  body := body
  acceptRanges := ACCEPT_RANGES
  contentLength := wireLength len
  contentRange := (input.range.map toByteRange).map fun _ => contentRange offset len info.size
  contentType := info.contentType
  eTag := info.etag
  lastModified := epochMsToSystemtime info.mtimeEpochMs
  metadata := info.userMetadata

def headOutput (input : HeadObjectInput) (info : ObjectInfo) : HeadObjectOutput where
  toChecksumFields :=
    fieldsFor (if checksumModeEnabled input.checksumMode then info.checksum else none)
  acceptRanges := ACCEPT_RANGES
  contentLength := wireLength info.size
  contentType := info.contentType
  eTag := info.etag
  lastModified := epochMsToSystemtime info.mtimeEpochMs
  metadata := info.userMetadata

/-- The response a handler makes of an answer of the engine's. -/
def S3Op.shape : S3Op → Answer → S3Reply
  | .createBucket b, _ => .ok (.created ⟨"/" ++ b⟩)
  | .headBucket _, .found true => .ok .done
  | .headBucket _, _ => .error ⟨.noSuchBucket, none⟩
  | .listBuckets, .buckets l =>
    .ok (.buckets ⟨l.map listedBucket, ⟨OWNER_DISPLAY_NAME, OWNER_ID⟩⟩)
  | .putObject _, .info info => .ok (.stored ⟨fieldsFor info.checksum, info.etag⟩)
  | .getObject req, .object info offset len body =>
    .ok (.object (getOutput req.input info offset len [body]))
  | .headObject req, .info info => .ok (.head (headOutput req.input info))
  | .listObjectsV2 input, .page page => .ok (.page (listOutput input page))
  | _, _ => .ok .done

/-- The response to an answer or a failure of the engine's. -/
def S3Op.reply (op : S3Op) : Resp → S3Reply
  | .ok answer => op.shape answer
  | .error e =>
    match op with
    | .putObject _ => .error (putError e)
    | _ => .error (mapEngineErr e)

section Runs

variable {env : Env OsName} {C : Crates} {w : World OsName}

theorem run_answer {α : Type} {x : EngineM α} {k : α → EngineM Answer} {f : α → Answer}
    (hk : ∀ a, (k a).run = pure (.ok (f a))) : runAlone env (x >>= k).run w =
      ((x.run.run (engineExec env) w).1.map f, (x.run.run (engineExec env) w).2) := by
  rw [runAlone, ExceptT.run_bind, Prog.run_bind]
  cases (x.run.run (engineExec env) w).1 with
  | error e => rfl
  | ok a =>
      dsimp only
      rw [hk]
      rfl

/-- A handler that asks the engine for `x` and shapes what it gets, be it a failure. -/
theorem run_lifted {α : Type} {x : EngineM α} {k : α → EngineM Answer} {f : α → Answer}
    {g : Except EngineError α → ExceptT S3Error EngineProg S3Answer} (op : S3Op)
    (hk : ∀ a, (k a).run = pure (.ok (f a))) (hg : ∀ r, (g r).run = pure (op.reply (r.map f))) :
    runAlone env (ExceptT.lift x.run >>= g).run w =
      (op.reply (runAlone env (x >>= k).run w).1, (runAlone env (x >>= k).run w).2) := by
  rw [run_answer hk, runAlone, Prog.run_bind_lift rfl, hg]
  rfl

/-- A handler that passes a failure on by `map_engine_err`. -/
theorem run_asked {α : Type} {x : EngineM α} {k : α → EngineM Answer} {f : α → Answer}
    {g : α → ExceptT S3Error EngineProg S3Answer} (op : S3Op)
    (hk : ∀ a, (k a).run = pure (.ok (f a)))
    (hg : ∀ a, (g a).run = pure (op.shape (f a)))
    (he : ∀ e, op.reply (.error e) = .error (mapEngineErr e)) :
    runAlone env (asked x >>= g).run w =
      (op.reply (runAlone env (x >>= k).run w).1, (runAlone env (x >>= k).run w).2) := by
  rw [run_answer hk, runAlone, ExceptT.run_bind, Prog.run_bind, asked, Prog.run_adapt]
  cases (x.run.run (engineExec env) w).1 with
  | error e => exact Prod.ext (he e).symm rfl
  | ok a =>
      change (g a).run.run (engineExec env) _ = _
      rw [hg]
      rfl

/-- What a handler does, by what the engine does. -/
theorem handle_run (op : S3Op) : runAlone env (handle C op) w =
    match op.request C.toHashes with
    | .error e => (.error e, w)
    | .ok r => (op.reply (runAlone env (serve C r) w).1, (runAlone env (serve C r) w).2) := by
  cases op with
  | createBucket b =>
      rw [handle, createBucket, bind_assoc]
      exact run_asked (.createBucket b) (fun _ => rfl) (fun _ => rfl) fun _ => rfl
  | headBucket b =>
      rw [handle, headBucket, bind_assoc]
      refine run_asked (.headBucket b) (fun _ => rfl) (fun found => ?_) fun _ => rfl
      cases found <;> rfl
  | deleteBucket b =>
      exact run_asked (.deleteBucket b) (fun _ => rfl) (fun _ => rfl) fun _ => rfl
  | listBuckets =>
      rw [handle, listBuckets, bind_assoc]
      exact run_asked .listBuckets (fun _ => rfl) (fun _ => rfl) fun _ => rfl
  | putObject req =>
      rw [handle, putObject, S3Op.request, bind_assoc]
      cases rejectContradictoryAwsChunked req.headers with
      | error e => rfl
      | ok u =>
          cases req.input.body with
          | none => rfl
          | some body =>
              change runAlone env ((ExceptT.lift _ >>= _) >>= _).run w = _
              rw [bind_assoc]
              refine run_lifted (.putObject req) (fun _ => rfl) fun r => ?_
              cases r <;> rfl
  | getObject req =>
      rw [handle, getObject, bind_assoc]
      refine run_lifted (.getObject req) (fun _ => rfl) fun r => ?_
      cases r <;> rfl
  | headObject req =>
      rw [handle, headObject, bind_assoc]
      refine run_lifted (.headObject req) (fun _ => rfl) fun r => ?_
      cases r <;> rfl
  | deleteObject b k =>
      exact run_asked (.deleteObject b k) (fun _ => rfl) (fun _ => rfl) fun _ => rfl
  | listObjectsV2 input =>
      rw [handle, listObjectsV2, bind_assoc]
      exact run_asked (.listObjectsV2 input) (fun _ => rfl) (fun _ => rfl) fun _ => rfl

end Runs

end Aks3.Api
