import Aks3.Engine.Listing
import Mathlib.Data.Finmap
import Mathlib.Data.Finset.Sort

/-!
# What the engine is for: a map of maps

The store a client sees: a finite map from bucket names to buckets, a bucket
being the time it was made and a finite map from keys to objects. An object is
what was put: the bytes, the options and the time of the `PUT`; everything a
`HEAD` or a listing says of it is computed from these. There is no filesystem
here, and no encoding of names.

`Store.apply` answers one request and gives the store after it.
-/

set_option autoImplicit false

namespace Aks3.Engine

open Lib

/-- An object as it was put. -/
structure Object where
  bytes : Bytes
  opts : PutOpts
  mtimeEpochMs : Nat
  deriving DecidableEq

/-- What the API says of the object under a key. -/
def Object.info (C : Crates) (key : String) (o : Object) : ObjectInfo where
  key := key
  size := o.bytes.length
  etag := hexLower (C.md5 o.bytes)
  contentType := (o.opts.contentType.filter (· ≠ "")).getD DEFAULT_CONTENT_TYPE
  mtimeEpochMs := o.mtimeEpochMs
  userMetadata := o.opts.userMetadata
  checksum := o.opts.checksumAlgorithm.map fun a => a.of C.toHashes o.bytes

/-- A bucket: when it was made, and its objects by key. -/
structure Bucket where
  createdEpochMs : Nat
  objects : Finmap fun _ : String => Object

abbrev Store := Finmap fun _ : String => Bucket

/-- The members of a set of texts in the order of their bytes. -/
def ascending (s : Finset String) : List String := s.sort strLe

theorem mem_ascending {s : Finset String} {x : String} : x ∈ ascending s ↔ x ∈ s :=
  Finset.mem_sort strLe

theorem pairwise_ascending (s : Finset String) :
    (ascending s).Pairwise fun x y => utf8 x < utf8 y :=
  ((s.pairwise_sort strLe).and (s.sort_nodup strLe)).imp fun h =>
    lt_of_le_of_ne h.1 (utf8_inj.not.mpr h.2)

namespace Store

/-- The object under a key of a bucket. -/
def object (S : Store) (b k : String) : Option Object :=
  (S.lookup b).bind fun B => B.objects.lookup k

/-- A request that needs its bucket. -/
def inBucket (S : Store) (b : String) (f : Bucket → Resp × Store) : Resp × Store :=
  if isValidBucketName b = true then
    match S.lookup b with
    | none => (.error .noSuchBucket, S)
    | some B => f B
  else (.error .invalidBucketName, S)

/-- What a `GET` answers with an object. -/
def get (C : Crates) (k : String) (range : Option ByteRange) : Option Object → Resp
  | none => .error .noSuchKey
  | some o =>
    match resolveRange range o.bytes.length with
    | .error e => .error e
    | .ok (offset, len) =>
      .ok (.object (o.info C k) offset len (.ok ((o.bytes.drop offset).take len)))

/-- What a `HEAD` answers with an object. -/
def head (C : Crates) (k : String) : Option Object → Resp
  | none => .error .noSuchKey
  | some o => .ok (.info (o.info C k))

/-- A page of the listing of a bucket. -/
def list (C : Crates) (B : Bucket) (p : ListParams) : ListResult :=
  page (ascending B.objects.keys)
    (fun k => ((B.objects.lookup k).getD ⟨[], ⟨none, .empty, none⟩, 0⟩).info C k) p

/-- The buckets, in the order of their names. -/
def buckets (S : Store) : List BucketInfo :=
  (ascending S.keys).map fun b => ⟨b, ((S.lookup b).getD ⟨0, ∅⟩).createdEpochMs⟩

/-- Answer one request that comes at time `now`. -/
def apply (C : Crates) (now : Nat) (S : Store) : Req → Resp × Store
  | .openEngine => (.ok .unit, S)
  | .createBucket b =>
    if isValidBucketName b = true then
      if b ∈ S then (.error .bucketAlreadyExists, S)
      else (.ok .unit, S.insert b ⟨now, ∅⟩)
    else (.error .invalidBucketName, S)
  | .deleteBucket b => S.inBucket b fun B =>
    if B.objects = ∅ then (.ok .unit, S.erase b) else (.error .bucketNotEmpty, S)
  | .bucketExists b =>
    if isValidBucketName b = true then (.ok (.found (b ∈ S)), S)
    else (.error .invalidBucketName, S)
  | .listBuckets => (.ok (.buckets S.buckets), S)
  | .putObject b k body opts => S.inBucket b fun B =>
    match collect body with
    | .error e => (.error (.ofIo e), S)
    | .ok bytes =>
      (.ok (.info (Object.info C k ⟨bytes, opts, now⟩)),
        S.insert b { B with objects := B.objects.insert k ⟨bytes, opts, now⟩ })
  | .getObject b k range => S.inBucket b fun B => (get C k range (B.objects.lookup k), S)
  | .headObject b k => S.inBucket b fun B => (head C k (B.objects.lookup k), S)
  | .deleteObject b k => S.inBucket b fun B =>
    (.ok .unit, S.insert b { B with objects := B.objects.erase k })
  | .listObjectsV2 b p => S.inBucket b fun B => (.ok (.page (list C B p)), S)

/-- The answers to requests that come one after another, each with its time. -/
def applyAll (C : Crates) : Store → List (Nat × Req) → List Resp × Store
  | S, [] => ([], S)
  | S, (now, r) :: reqs =>
    let (resp, S') := S.apply C now r
    let (resps, S'') := applyAll C S' reqs
    (resp :: resps, S'')

end Store

end Aks3.Engine
