import Aks3.Api.Headers
import Aks3.Engine.FsEngine

/-!
# Checksums a client asks to be verified

`detect` picks the checksum of a request that is checked against the body,
`VerifyingStream` checks it while the body streams to the engine, and `put_error`
tells a failed check from the failures of the engine.

A body is a script of polls: `none` is a poll that returns `Pending`, and after the
script every poll returns the end. What the engine sees of a stream is the items
its polls return (`VerifyingStream.drain`).
-/

set_option autoImplicit false

namespace Aks3.Api

open Lib Engine

/-! ## What a request asks for -/

/-- The request header that names which trailing header carries the checksum. -/
def X_AMZ_TRAILER : Bytes := utf8 "x-amz-trailer"

/-- What the name of a checksum header or trailer starts with. -/
def CHECKSUM_TRAILER_LEAD : Bytes := utf8 "x-amz-checksum-"

/-- What the polls of a body return, `none` for `Pending`. -/
abbrev Polls (ε : Type) := List (Option (Except ε Bytes))

/-- The part of a `PutObject` request the handler reads. A `HashMap` of metadata is
collected into a sorted map, so it is one here. -/
structure PutObjectInput where
  bucket : String
  key : String
  /-- The body, an error of it being its text. -/
  body : Option (Polls String)
  contentType : Option String
  metadata : Option UserMetadata
  checksumCrc32 : Option String
  checksumCrc32c : Option String
  checksumSha1 : Option String
  checksumSha256 : Option String
  checksumCrc64nvme : Option String

/-- Where the expected value is read from. A trailer is read once the body has ended,
from the trailing headers there are then, if any. -/
inductive Expected where
  | immediate (value : String)
  | trailer (handle : Option HeaderMap) (name : Bytes)
  deriving DecidableEq, Repr

/-- The value the client sent, if it arrived. -/
def Expected.resolve : Expected → Option String
  | .immediate value => some value
  | .trailer handle name => ((handle.bind fun map => map.get name).bind toStr).bind fromUtf8

/-- A checksum a `PutObject` asks to be verified. -/
structure PutChecksum where
  algorithm : ChecksumAlgorithm
  expected : Expected
  deriving DecidableEq, Repr

/-- The typed checksum fields of a request, in the order they are looked at. -/
def headerForm (input : PutObjectInput) : List (ChecksumAlgorithm × Option String) :=
  [(.crc32, input.checksumCrc32), (.crc32c, input.checksumCrc32c), (.sha1, input.checksumSha1),
    (.sha256, input.checksumSha256), (.crc64Nvme, input.checksumCrc64nvme)]

/-- The checksum trailer a token of `x-amz-trailer` names, if it names one. -/
def trailerOf (handle : Option HeaderMap) (token : Bytes) : Option PutChecksum :=
  let token := trimAscii token
  (stripLead CHECKSUM_TRAILER_LEAD token).bind fun algoName =>
    (ChecksumAlgorithm.fromName algoName).bind fun algorithm =>
      (headerName token).map fun name => ⟨algorithm, .trailer handle name⟩

/-- The checksum, if any, that a `PutObject` has verified: the first header field, or
else the first checksum trailer the first `x-amz-trailer` line names. -/
def detect (input : PutObjectInput) (headers : HeaderMap) (trailing : Option (Option HeaderMap)) :
    Option PutChecksum :=
  match (headerForm input).findSome? fun f => f.2.map fun value =>
    (⟨f.1, .immediate value⟩ : PutChecksum) with
  | some checksum => some checksum
  | none =>
    trailing.bind fun handle =>
      ((headers.get X_AMZ_TRAILER).bind toStr).bind fun declared =>
        (declared.splitOn 0x2C).findSome? (trailerOf handle)

/-! ## A check that fails -/

inductive ChecksumError where
  | mismatch (algorithm : ChecksumAlgorithm)
  | missingTrailer (algorithm : ChecksumAlgorithm)
  deriving DecidableEq, Repr

namespace ChecksumError

def algorithm : ChecksumError → ChecksumAlgorithm
  | .mismatch a | .missingTrailer a => a

def display : ChecksumError → String
  | .mismatch a => a.asStr ++ " checksum mismatch"
  | .missingTrailer a => a.asStr ++ " checksum trailer declared but not sent"

/-- The errors there are, in the order they are numbered when they are boxed. -/
def all : List ChecksumError :=
  [.mismatch .crc32, .mismatch .crc32c, .mismatch .sha1, .mismatch .sha256, .mismatch .crc64Nvme,
    .missingTrailer .crc32, .missingTrailer .crc32c, .missingTrailer .sha1,
    .missingTrailer .sha256, .missingTrailer .crc64Nvme]

/-- `io::Error::other` of a checksum error. -/
def toIo (e : ChecksumError) : IoError := ⟨.other, e.display, some (all.idxOf e)⟩

/-- `downcast_ref`: the checksum error an I/O error boxes. -/
def ofIo (e : IoError) : Option ChecksumError := e.boxed.bind fun n => all[n]?

@[simp] theorem ofIo_toIo (e : ChecksumError) : ofIo e.toIo = some e := by
  cases e with
  | mismatch a => cases a <;> rfl
  | missingTrailer a => cases a <;> rfl

end ChecksumError

/-- The outcome of a verification once the body has been consumed. -/
def evaluate (algorithm : ChecksumAlgorithm) (computed expected : Option String) :
    Option ChecksumError :=
  match computed, expected with
  | some computed, some expected =>
    if computed ≠ expected then some (.mismatch algorithm) else none
  | some _, none => some (.missingTrailer algorithm)
  | none, _ => none

/-! ## A body that is checked as it passes -/

inductive Poll (α : Type) where
  | pending
  | ready (a : α)
  deriving DecidableEq, Repr

/-- The items a reader gets that polls a body to its end. -/
def items {ε : Type} : Polls ε → List (Except ε Bytes)
  | [] => []
  | none :: rest => items rest
  | some item :: rest => item :: items rest

/-- Poll a body. -/
def pollBody : Polls IoError → Poll (Option (Except IoError Bytes)) × Polls IoError
  | [] => (.ready none, [])
  | none :: rest => (.pending, rest)
  | some item :: rest => (.ready (some item), rest)

structure VerifyingStream where
  inner : Polls IoError
  algorithm : ChecksumAlgorithm
  /-- `some` until the body ends and it is finalized. -/
  checksummer : Option Checksummer
  /-- `some` until the body ends and it is resolved. -/
  expected : Option Expected
  /-- Set once the last item has been produced. -/
  finished : Bool
  deriving DecidableEq, Repr

namespace VerifyingStream

def new (inner : Polls IoError) (checksum : PutChecksum) : VerifyingStream :=
  ⟨inner, checksum.algorithm, some checksum.algorithm.hasher, some checksum.expected, false⟩

def pollNext (H : Hashes) (this : VerifyingStream) :
    Poll (Option (Except IoError Bytes)) × VerifyingStream :=
  if this.finished then (.ready none, this)
  else
    match pollBody this.inner with
    | (.pending, inner) => (.pending, { this with inner })
    | (.ready (some (.ok chunk)), inner) =>
      (.ready (some (.ok chunk)),
        { this with inner, checksummer := this.checksummer.map (·.update chunk) })
    | (.ready (some (.error e)), inner) =>
      (.ready (some (.error e)), { this with inner, finished := true })
    | (.ready none, inner) =>
      let computed := this.checksummer.map (·.finalizeBase64 H)
      let expected := this.expected.bind Expected.resolve
      let this := { this with inner, checksummer := none, expected := none, finished := true }
      match evaluate this.algorithm computed expected with
      | some err => (.ready (some (.error err.toIo)), this)
      | none => (.ready none, this)

/-- How much a stream has left to return. -/
def left (this : VerifyingStream) : Nat := this.inner.length + if this.finished then 0 else 1

/-- Every poll that does not return the end leaves less. -/
theorem left_pollNext {H : Hashes} {this next : VerifyingStream}
    {p : Poll (Option (Except IoError Bytes))} (h : this.pollNext H = (p, next))
    (hp : p ≠ .ready none) : next.left < this.left := by
  unfold pollNext at h
  split at h
  · cases h
    exact absurd rfl hp
  rename_i hfin
  cases hi : this.inner with
  | nil =>
      rw [hi] at h
      simp only [pollBody] at h
      split at h
      · cases h
        simp [left, hi, hfin]
      · cases h
        exact absurd rfl hp
  | cons x rest =>
      rw [hi] at h
      cases x with
      | none =>
          cases h
          simp [left, hi]
      | some item =>
          cases item with
          | ok chunk =>
              cases h
              simp [left, hi]
          | error e =>
              cases h
              simp [left, hi, hfin]

/-- The items a reader gets that polls the stream to its end. -/
def drain (H : Hashes) (this : VerifyingStream) : ByteStream :=
  match _h : this.pollNext H with
  | (.pending, next) => drain H next
  | (.ready none, _) => []
  | (.ready (some item), next) => item :: drain H next
termination_by this.left
decreasing_by
  · exact left_pollNext _h (by simp)
  · exact left_pollNext _h (by simp)

/-! ### What a reader gets -/

variable {H : Hashes} {s next : VerifyingStream}

theorem drain_pending (h : s.pollNext H = (.pending, next)) : s.drain H = next.drain H := by
  rw [drain]
  split <;> simp_all

theorem drain_end (h : s.pollNext H = (.ready none, next)) : s.drain H = [] := by
  rw [drain]
  split <;> simp_all

theorem drain_item {item : Except IoError Bytes} (h : s.pollNext H = (.ready (some item), next)) :
    s.drain H = item :: next.drain H := by
  rw [drain]
  split <;> simp_all

/-- The bytes of a body, if the checksum computed over them is the one expected. -/
def checked (a : ChecksumAlgorithm) (computed : String) (expected : Option String)
    (bytes : Bytes) : Except IoError Bytes :=
  match evaluate a (some computed) expected with
  | some err => .error err.toIo
  | none => .ok bytes

/-- However a body is split and delayed, a reader gets its bytes exactly if they pass the
check. The induction is over the polls to come, the running checksum holding those that
were. -/
theorem collect_drain (inner : Polls IoError) (a : ChecksumAlgorithm) (x : Expected) :
    ∀ c : Checksummer, collect (drain H ⟨inner, a, some c, some x, false⟩) =
      (collect (items inner)).bind fun bytes =>
        checked a ((c.update bytes).finalizeBase64 H) x.resolve bytes := by
  induction inner with
  | nil =>
      intro c
      have hpoll : pollNext H ⟨[], a, some c, some x, false⟩ =
          match evaluate a (some (c.finalizeBase64 H)) x.resolve with
          | some err => (.ready (some (.error err.toIo)), ⟨[], a, none, none, true⟩)
          | none => (.ready none, ⟨[], a, none, none, true⟩) := rfl
      simp only [items, collect, Except.bind, Checksummer.update_nil, checked]
      cases he : evaluate a (some (c.finalizeBase64 H)) x.resolve with
      | none =>
          rw [he] at hpoll
          rw [drain_end hpoll, collect]
      | some err =>
          rw [he] at hpoll
          rw [drain_item hpoll, collect]
  | cons poll rest ih =>
      intro c
      cases poll with
      | none =>
          rw [drain_pending (by rfl), ih, items]
      | some item =>
          cases item with
          | error e =>
              rw [drain_item (by rfl)]
              rfl
          | ok chunk =>
              rw [drain_item (by rfl), collect, Option.map_some, ih, items, collect]
              cases collect (items rest) with
              | error e => rfl
              | ok bytes =>
                  simp only [Except.map, Except.bind, checked, Checksummer.update_append]
                  cases evaluate a (some (((c.update chunk).update bytes).finalizeBase64 H))
                    x.resolve <;> rfl

/-- What a reader of a whole verified body gets. -/
theorem collect_drain_new (inner : Polls IoError) (c : PutChecksum) :
    collect ((new inner c).drain H) = (collect (items inner)).bind fun bytes =>
      checked c.algorithm (c.algorithm.of H bytes).value c.expected.resolve bytes :=
  collect_drain inner c.algorithm c.expected c.algorithm.hasher

end VerifyingStream

/-! ## What goes back -/

/-- Turn a failed `PutObject` into the S3 error a client should see. -/
def putError (err : EngineError) : S3Error :=
  match err with
  | .io io =>
    match ChecksumError.ofIo io with
    | some checksumErr =>
      let algorithm := checksumErr.algorithm.asStr
      match checksumErr with
      | .mismatch _ => ⟨.badDigest, some ("The " ++ algorithm ++
          " checksum you specified did not match the checksum of the object received.")⟩
      | .missingTrailer _ => ⟨.invalidRequest, some ("A " ++ algorithm ++
          " checksum trailer was declared with x-amz-trailer but no trailing checksum was sent.")⟩
    | none => mapEngineErr err
  | _ => mapEngineErr err

/-- The response checksum headers. -/
structure ChecksumFields where
  crc32 : Option String
  crc32c : Option String
  sha1 : Option String
  sha256 : Option String
  crc64nvme : Option String
  checksumType : Option String
  deriving DecidableEq, Repr

/-- The response fields for a stored checksum, or all absent. -/
def fieldsFor (stored : Option StoredChecksum) : ChecksumFields :=
  match stored with
  | none => ⟨none, none, none, none, none, none⟩
  | some stored =>
    let fields : ChecksumFields := ⟨none, none, none, none, none, some "FULL_OBJECT"⟩
    match stored.algorithm with
    | .crc32 => { fields with crc32 := some stored.value }
    | .crc32c => { fields with crc32c := some stored.value }
    | .sha1 => { fields with sha1 := some stored.value }
    | .sha256 => { fields with sha256 := some stored.value }
    | .crc64Nvme => { fields with crc64nvme := some stored.value }

end Aks3.Api
