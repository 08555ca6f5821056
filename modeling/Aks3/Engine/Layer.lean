import Aks3.Engine.Checksum
import Aks3.Lib.Fs

/-!
# The storage contract: its values and its failures

What crosses the boundary between the front end and the engine: the parts of a
request that are not the body, what an answer says about an object or a bucket,
and the failures the front end tells apart. A filesystem error becomes one of
those by its kind.
-/

set_option autoImplicit false

namespace Aks3.Engine

open Lib

inductive EngineError where
  | noSuchBucket
  | bucketAlreadyExists
  | bucketNotEmpty
  | invalidBucketName
  | noSuchKey
  | invalidRange
  | keyTooLong
  | storageFull
  | io (e : IoError)
  deriving DecidableEq, Repr

/-- `impl From<std::io::Error> for EngineError`. -/
def EngineError.ofIo (e : IoError) : EngineError :=
  match e.kind with
  | .invalidFilename => .keyTooLong
  | .storageFull => .storageFull
  | _ => .io e

/-- A `BTreeMap<String, String>`: pairs in ascending order of their keys. -/
abbrev UserMetadata :=
  { l : List (String × String) // (l.map fun e => utf8 e.1).Pairwise (· < ·) }

def UserMetadata.empty : UserMetadata := ⟨[], by simp⟩

/-- An object body in motion: chunks of bytes, or the error that stopped them. -/
abbrev ByteStream := List (Except IoError Bytes)

structure BucketInfo where
  name : String
  createdEpochMs : Nat
  deriving DecidableEq, Repr

/-- Everything a `HEAD`, a `GET` or a listing entry says about one object. -/
structure ObjectInfo where
  key : String
  size : Nat
  etag : String
  contentType : String
  mtimeEpochMs : Nat
  userMetadata : UserMetadata
  checksum : Option StoredChecksum
  deriving DecidableEq, Repr

/-- The parts of a `PUT` that are not the body. -/
structure PutOpts where
  contentType : Option String
  userMetadata : UserMetadata
  checksumAlgorithm : Option ChecksumAlgorithm
  deriving DecidableEq, Repr

/-- A resolved HTTP `Range` header, with inclusive bounds. -/
inductive ByteRange where
  | fromTo (first last : Nat)
  | from (first : Nat)
  | suffix (n : Nat)
  deriving DecidableEq, Repr

structure ListParams where
  pfx : Option String
  delimiter : Option String
  continuationToken : Option String
  startAfter : Option String
  maxKeys : Nat
  deriving DecidableEq, Repr

/-- One page of a listing. -/
structure ListResult where
  objects : List ObjectInfo
  commonPrefixes : List String
  isTruncated : Bool
  nextContinuationToken : Option String
  deriving DecidableEq, Repr

/-- `ListResult::default()`. -/
def ListResult.default : ListResult := ⟨[], [], false, none⟩

end Aks3.Engine
