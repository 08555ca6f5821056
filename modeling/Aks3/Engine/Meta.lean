import Aks3.Engine.Layer
import Aks3.Engine.Paths

/-!
# The per-object version manifest

Every key has one manifest with one entry per version, newest first. An
overwrite without versioning replaces the entry with the reserved id, so such a
manifest has one entry. A manifest is stored as JSON; `Json` is what the code
relies on of `serde_json`: a stored value reads back as itself.
-/

set_option autoImplicit false

namespace Aks3.Engine

open Lib

/-- Version id of an object stored without versioning. -/
def NULL_VERSION_ID : String := "null"

/-- Layout version stamped on manifests this build writes. -/
def MANIFEST_FORMAT : Nat := 2

/-- Layout version stamped on a data directory. -/
def DISK_FORMAT : Nat := 1

/-- One version of one object. -/
structure VersionEntry where
  versionId : String
  etag : String
  size : Nat
  contentType : String
  userMetadata : UserMetadata
  mtimeEpochMs : Nat
  deleteMarker : Bool
  checksum : Option StoredChecksum
  deriving DecidableEq, Repr

/-- Every version of one object, newest first. -/
structure VersionManifest where
  format : Nat
  versions : List VersionEntry
  deriving DecidableEq, Repr

namespace VersionManifest

/-- The version an unqualified read resolves to. -/
def latest (m : VersionManifest) : Option VersionEntry := m.versions.head?

/-- Insert `e` as the latest version, replacing any entry with its version id. -/
def upsert (m : VersionManifest) (e : VersionEntry) : VersionManifest :=
  { m with versions := e :: m.versions.filter fun v => v.versionId ≠ e.versionId }

/-- Drop the entry with `versionId`, returning it. -/
def remove (m : VersionManifest) (versionId : String) :
    Option VersionEntry × VersionManifest :=
  match m.versions.findIdx? fun v => v.versionId = versionId with
  | none => (none, m)
  | some i => (m.versions[i]?, { m with versions := m.versions.eraseIdx i })

end VersionManifest

/-- An empty manifest for a key that has never been written. -/
def newManifest : VersionManifest := ⟨MANIFEST_FORMAT, []⟩

/-- Contents of a bucket's `.bucket.meta`. -/
structure BucketMeta where
  createdEpochMs : Nat
  deriving DecidableEq, Repr

/-- Contents of `.aks3/format.json`. -/
structure DiskFormat where
  format : Nat
  deriving DecidableEq, Repr

/-- JSON for one type: what is written reads back. -/
structure Json (α : Type) where
  toVec : α → Bytes
  fromSlice : Bytes → Except String α
  fromSlice_toVec : ∀ a, fromSlice (toVec a) = .ok a

attribute [simp] Json.fromSlice_toVec

/-- The crates and the parts of the standard library the engine calls. -/
structure Crates extends Hashes where
  manifestJson : Json VersionManifest
  bucketMetaJson : Json BucketMeta
  diskFormatJson : Json DiskFormat
  /-- How a path prints. -/
  display : Path OsName → String
  /-- How much the operating system returns at most of a read at an offset. -/
  shortRead : Nat → Nat

/-- Parse the bytes of a manifest, refusing a format newer than this build's. -/
def parseManifest (C : Crates) (path : Path OsName) (bytes : Bytes) :
    Except IoError VersionManifest :=
  match C.manifestJson.fromSlice bytes with
  | .error e => .error ⟨.invalidData, e, none⟩
  | .ok m =>
    if m.format > MANIFEST_FORMAT then
      .error ⟨.invalidData, "manifest format " ++ toString m.format ++ " at " ++ C.display path ++
        " is newer than the supported format " ++ toString MANIFEST_FORMAT, none⟩
    else .ok m

theorem parseManifest_toVec (C : Crates) (path : Path OsName) {m : VersionManifest}
    (h : m.format ≤ MANIFEST_FORMAT) :
    parseManifest C path (C.manifestJson.toVec m) = .ok m := by
  simp [parseManifest, Nat.not_lt.mpr h]

/-- `entry` as the API layer sees it. -/
def objectInfo (key : String) (entry : VersionEntry) : ObjectInfo :=
  ⟨key, entry.size, entry.etag, entry.contentType, entry.mtimeEpochMs, entry.userMetadata,
    entry.checksum⟩

end Aks3.Engine
