import Aks3.Api.Checksum
import Aks3.Engine.Rejected

/-!
# The handlers of the object requests

`put_object`, `get_object` and `head_object` of the S3 service, as programs that run
the engine's. Of a response every field the handler sets is kept.
-/

set_option autoImplicit false

namespace Aks3.Api

open Lib Engine

/-! ## Requests and responses -/

structure S3Request (α : Type) where
  input : α
  headers : HeaderMap
  /-- The handle to the trailing headers, by what it reads once the body has ended. -/
  trailingHeaders : Option (Option HeaderMap)

structure PutObjectOutput extends ChecksumFields where
  eTag : String
  deriving DecidableEq, Repr

/-- An HTTP `Range` as `s3s` parses it. -/
inductive DtoRange where
  | int (first : Nat) (last : Option Nat)
  | suffix (length : Nat)
  deriving DecidableEq, Repr

structure GetObjectInput where
  bucket : String
  key : String
  range : Option DtoRange
  checksumMode : Option String

structure GetObjectOutput extends ChecksumFields where
  body : ByteStream
  acceptRanges : String
  contentLength : Nat
  contentRange : Option String
  contentType : String
  eTag : String
  /-- Milliseconds since the epoch. -/
  lastModified : Nat
  metadata : UserMetadata

structure HeadObjectInput where
  bucket : String
  key : String
  checksumMode : Option String

structure HeadObjectOutput extends ChecksumFields where
  acceptRanges : String
  contentLength : Nat
  contentType : String
  eTag : String
  lastModified : Nat
  metadata : UserMetadata

/-! ## The values of a response -/

def ACCEPT_RANGES : String := "bytes"

/-- 9999-12-31T23:59:59Z, the last instant an S3 timestamp can express. -/
def MAX_TIMESTAMP_MS : Nat := 253402300799000

/-- The engine's epoch milliseconds, saturating. -/
def epochMsToSystemtime (ms : Nat) : Nat := min ms MAX_TIMESTAMP_MS

/-- The client's `Range` as the engine's, form for form. -/
def toByteRange : DtoRange → ByteRange
  | .int first (some last) => .fromTo first last
  | .int first none => .from first
  | .suffix length => .suffix length

/-- The `Content-Range` of a partial read. -/
def contentRange (offset len size : Nat) : String :=
  let last := min (offset + len) (2 ^ 64 - 1) - 1
  "bytes " ++ toString offset ++ "-" ++ toString last ++ "/" ++ toString size

/-- A byte count as the wire's signed one. -/
def wireLength (len : Nat) : Nat := if len < 2 ^ 63 then len else 2 ^ 63 - 1

/-- Whether a read asked for its stored checksum with `ChecksumMode=ENABLED`. -/
def checksumModeEnabled (mode : Option String) : Bool :=
  mode.any fun m => eqIgnoreAsciiCase (utf8 m) (utf8 "ENABLED")

/-! ## The handlers -/

/-- `io::Error::other` of an error of the body. -/
def bodyError (text : String) : IoError := ⟨.other, text, none⟩

/-- The body as the engine takes it. -/
def engineBody (body : Polls String) : Polls IoError :=
  body.map fun poll => poll.map fun item => item.mapError bodyError

def putOpts (input : PutObjectInput) (checksum : Option PutChecksum) : PutOpts :=
  ⟨input.contentType, input.metadata.getD .empty, checksum.map PutChecksum.algorithm⟩

/-- What the engine reads: the body through the verifier, if there is a checksum to check. -/
def engineStream (H : Hashes) (checksum : Option PutChecksum) (body : Polls String) : ByteStream :=
  match checksum with
  | some checksum => (VerifyingStream.new (engineBody body) checksum).drain H
  | none => items (engineBody body)

def putObject (C : Crates) (req : S3Request PutObjectInput) :
    ExceptT S3Error EngineProg PutObjectOutput := do
  ExceptT.mk (pure (rejectContradictoryAwsChunked req.headers))
  let checksum := detect req.input req.headers req.trailingHeaders
  match req.input.body with
  | none => throw ⟨.incompleteBody, none⟩
  | some body => do
    match ← ExceptT.lift (Engine.putObject C req.input.bucket req.input.key
        (engineStream C.toHashes checksum body) (putOpts req.input checksum)).run with
    | .ok info => pure { toChecksumFields := fieldsFor info.checksum, eTag := info.etag }
    | .error err => throw (putError err)

/-- The body of the response is what the operating system's answers to its reads make it. -/
def getObject (C : Crates) (reads : ReadAnswers) (req : S3Request GetObjectInput) :
    ExceptT S3Error EngineProg GetObjectOutput := do
  let input := req.input
  let range := input.range.map toByteRange
  -- The stored checksum is of the whole object, so a partial read leaves it off.
  let wantChecksum := range.isNone && checksumModeEnabled input.checksumMode
  match ← ExceptT.lift (Engine.getObject C input.bucket input.key range).run with
  | .error err => throw (mapEngineErr err)
  | .ok (info, offset, len, body) =>
    let out : GetObjectOutput :=
      { toChecksumFields := fieldsFor (if wantChecksum then info.checksum else none)
        body := body reads
        acceptRanges := ACCEPT_RANGES
        contentLength := wireLength len
        contentRange := range.map fun _ => contentRange offset len info.size
        contentType := info.contentType
        eTag := info.etag
        lastModified := epochMsToSystemtime info.mtimeEpochMs
        metadata := info.userMetadata }
    pure out

def headObject (C : Crates) (req : S3Request HeadObjectInput) :
    ExceptT S3Error EngineProg HeadObjectOutput := do
  let input := req.input
  let wantChecksum := checksumModeEnabled input.checksumMode
  match ← ExceptT.lift (Engine.headObject C input.bucket input.key).run with
  | .error err => throw (mapEngineErr err)
  | .ok info =>
    let out : HeadObjectOutput :=
      { toChecksumFields := fieldsFor (if wantChecksum then info.checksum else none)
        acceptRanges := ACCEPT_RANGES
        contentLength := wireLength info.size
        contentType := info.contentType
        eTag := info.etag
        lastModified := epochMsToSystemtime info.mtimeEpochMs
        metadata := info.userMetadata }
    pure out

end Aks3.Api
