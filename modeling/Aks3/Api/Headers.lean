import Aks3.Engine.Layer

/-!
# Request headers and S3 errors

What the handlers see of a request's headers, and the errors they answer with.
A header map holds its names in lower case, as the `http` crate does; a value is
bytes, and a text only if every byte is visible ASCII, a blank or a tab.
-/

set_option autoImplicit false

namespace Aks3.Api

open Lib Engine

/-! ## Headers -/

/-- `http::HeaderMap`: every line of the header, names in lower case. -/
structure HeaderMap where
  lines : List (Bytes × Bytes)
  deriving DecidableEq, Repr

namespace HeaderMap

/-- The first value of a name. -/
def get (headers : HeaderMap) (name : Bytes) : Option Bytes :=
  (headers.lines.find? fun line => line.1 = name).map Prod.snd

/-- Every value of a name. -/
def getAll (headers : HeaderMap) (name : Bytes) : List Bytes :=
  (headers.lines.filter fun line => line.1 = name).map Prod.snd

def containsKey (headers : HeaderMap) (name : Bytes) : Bool := (headers.get name).isSome

theorem get_mem_getAll {headers : HeaderMap} {name value : Bytes}
    (h : headers.get name = some value) : value ∈ headers.getAll name := by
  obtain ⟨line, hline, rfl⟩ := Option.map_eq_some_iff.mp h
  have hname := List.find?_some hline
  exact List.mem_map.mpr
    ⟨line, List.mem_filter.mpr ⟨List.mem_of_find?_eq_some hline, hname⟩, rfl⟩

theorem get_cons (line : Bytes × Bytes) (lines : List (Bytes × Bytes)) (name : Bytes) :
    get ⟨line :: lines⟩ name = if line.1 = name then some line.2 else get ⟨lines⟩ name := by
  by_cases h : line.1 = name <;> simp [get, h]

theorem getAll_cons (line : Bytes × Bytes) (lines : List (Bytes × Bytes)) (name : Bytes) :
    getAll ⟨line :: lines⟩ name =
      if line.1 = name then line.2 :: getAll ⟨lines⟩ name else getAll ⟨lines⟩ name := by
  by_cases h : line.1 = name <;> simp [getAll, h]

theorem length_getAll (map : HeaderMap) (name : Bytes) :
    (map.getAll name).length = (map.lines.map Prod.fst).count name := by
  rw [getAll, List.length_map, List.count, List.countP_map, List.countP_eq_length_filter]
  simp only [Function.comp_def, beq_eq_decide]

theorem isSome_get (map : HeaderMap) (name : Bytes) :
    (map.get name).isSome = decide (name ∈ map.lines.map Prod.fst) := by
  rw [get, Option.isSome_map, Bool.eq_iff_iff, List.find?_isSome, decide_eq_true_eq]
  simp only [decide_eq_true_eq, List.mem_map]

end HeaderMap

/-- `HeaderValue::to_str`. -/
def toStr (value : Bytes) : Option Bytes :=
  if value.all fun b => b = 0x09 || (0x20 ≤ b && b < 0x7F) then some value else none

theorem toStr_eq_some {value text : Bytes} (h : toStr value = some text) : text = value := by
  unfold toStr at h
  split at h
  · exact (Option.some.inj h).symm
  · cases h

/-- The bytes a header name may have. -/
def isTokenByte (b : UInt8) : Bool :=
  (0x30 ≤ b && b ≤ 0x39) || (0x41 ≤ b && b ≤ 0x5A) || (0x61 ≤ b && b ≤ 0x7A) ||
    (utf8 "!#$%&'*+-.^_`|~").contains b

/-- `HeaderName::from_bytes`. -/
def headerName (token : Bytes) : Option Bytes :=
  if token ≠ [] ∧ token.all isTokenByte then some (token.map asciiLower) else none

/-! ## Errors -/

inductive S3ErrorCode where
  | noSuchBucket
  | bucketAlreadyOwnedByYou
  | bucketNotEmpty
  | invalidBucketName
  | noSuchKey
  | invalidRange
  | keyTooLongError
  | serviceUnavailable
  | internalError
  | badDigest
  | invalidRequest
  | incompleteBody
  deriving DecidableEq, Repr

structure S3Error where
  code : S3ErrorCode
  message : Option String
  deriving DecidableEq, Repr

/-- Translate an engine failure into the S3 error a client should see. -/
def mapEngineErr : EngineError → S3Error
  | .noSuchBucket => ⟨.noSuchBucket, some "The specified bucket does not exist"⟩
  | .bucketAlreadyExists => ⟨.bucketAlreadyOwnedByYou,
      some "Your previous request to create the named bucket succeeded and you already own it"⟩
  | .bucketNotEmpty => ⟨.bucketNotEmpty, some "The bucket you tried to delete is not empty"⟩
  | .invalidBucketName => ⟨.invalidBucketName, some "The specified bucket is not valid"⟩
  | .noSuchKey => ⟨.noSuchKey, some "The specified key does not exist"⟩
  | .invalidRange => ⟨.invalidRange, some "The requested range is not satisfiable"⟩
  | .keyTooLong => ⟨.keyTooLongError, some "Your key is too long"⟩
  | .storageFull => ⟨.serviceUnavailable,
      some "The server is out of storage capacity to complete the request; retry later"⟩
  | .io _ => ⟨.internalError, none⟩

/-! ## aws-chunked framing -/

def CONTENT_ENCODING : Bytes := utf8 "content-encoding"
def X_AMZ_DECODED_CONTENT_LENGTH : Bytes := utf8 "x-amz-decoded-content-length"
def X_AMZ_CONTENT_SHA256 : Bytes := utf8 "x-amz-content-sha256"

/-- The `x-amz-content-sha256` values that put a body in aws-chunked framing. -/
def STREAMING_SENTINELS : List Bytes :=
  [utf8 "STREAMING-AWS4-HMAC-SHA256-PAYLOAD", utf8 "STREAMING-AWS4-HMAC-SHA256-PAYLOAD-TRAILER",
    utf8 "STREAMING-UNSIGNED-PAYLOAD-TRAILER", utf8 "STREAMING-AWS4-ECDSA-P256-SHA256-PAYLOAD",
    utf8 "STREAMING-AWS4-ECDSA-P256-SHA256-PAYLOAD-TRAILER"]

/-- Whether a `Content-Encoding` names `aws-chunked` among its tokens. -/
def declaresAwsChunked (value : Bytes) : Bool :=
  (value.splitOn 0x2C).any fun token => eqIgnoreAsciiCase (trimAscii token) (utf8 "aws-chunked")

/-- Refuse a `PUT` that announces aws-chunked framing without a sentinel that has it
decoded. -/
def rejectContradictoryAwsChunked (headers : HeaderMap) : Except S3Error Unit :=
  let announcesChunked := ((headers.get CONTENT_ENCODING).bind toStr).any declaresAwsChunked
  let hasDecodedLength := headers.containsKey X_AMZ_DECODED_CONTENT_LENGTH
  if !announcesChunked && !hasDecodedLength then .ok ()
  else
    let isStreaming := ((headers.get X_AMZ_CONTENT_SHA256).bind toStr).any fun sentinel =>
      STREAMING_SENTINELS.any fun streaming => eqIgnoreAsciiCase sentinel streaming
    if isStreaming then .ok ()
    else .error ⟨.invalidRequest, some <|
      "Content-Encoding: aws-chunked or x-amz-decoded-content-length declares " ++
      "aws-chunked framing, but x-amz-content-sha256 is not a streaming payload " ++
      "sentinel, so the framing would be stored as the object's bytes"⟩

end Aks3.Api
