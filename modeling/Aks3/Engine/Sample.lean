import Aks3.Engine.Reads
import Mathlib.Tactic.DeriveEncodable

/-!
# Sample surroundings

The crates and the machine are parameters of the model. This is one choice of
them, for runs on given requests: `serde_json` and `md5` as they are on the values
of those runs, and anything lawful on others. The values are the bodies `a` and
`b`, stored at time 0 without options.
-/

set_option autoImplicit false

namespace Aks3.Engine

open Lib

/-! ## JSON with given texts -/

/-- A value is written as zeros, as many as its number. -/
def Json.unary (α : Type) [Encodable α] : Json α where
  toVec a := List.replicate (Encodable.encode a) 0
  fromSlice bytes :=
    match Encodable.decode bytes.length with
    | some a => .ok a
    | none => .error "expected value at line 1 column 1"
  fromSlice_toVec := by
    intro a
    simp

/-- One value is written as a text of its own. -/
def Json.patch {α : Type} [DecidableEq α] (j : Json α) (a : α) (text : Bytes)
    (h : ∀ x, j.toVec x ≠ text) : Json α where
  toVec x := if x = a then text else j.toVec x
  fromSlice bytes := if bytes = text then .ok a else j.fromSlice bytes
  fromSlice_toVec := by
    intro x
    by_cases hx : x = a
    · rw [if_pos hx, if_pos rfl, hx]
    · rw [if_neg hx, if_neg (h x), j.fromSlice_toVec]

theorem Json.unary_ne {α : Type} [Encodable α] {text : Bytes} (h : text.any (· ≠ 0)) (x : α) :
    (Json.unary α).toVec x ≠ text := by
  rintro rfl
  obtain ⟨c, hmem, hc⟩ := List.any_eq_true.mp h
  exact of_decide_eq_true hc (List.eq_of_mem_replicate hmem)

theorem Json.patch_ne {α : Type} [DecidableEq α] {j : Json α} {a : α} {text text' : Bytes}
    {h : ∀ x, j.toVec x ≠ text} (h' : ∀ x, j.toVec x ≠ text') (hne : text ≠ text') (x : α) :
    (j.patch a text h).toVec x ≠ text' := by
  simp only [patch]
  split
  · exact hne
  · exact h' x

instance encodableChar : Encodable Char :=
  Encodable.ofLeftInjection Char.toNat (fun n => some (Char.ofNat n)) (by simp)

instance encodableText : Encodable String :=
  Encodable.ofLeftInverse String.toList String.ofList (by simp)

deriving instance Encodable for ChecksumAlgorithm
deriving instance Encodable for StoredChecksum
deriving instance Encodable for VersionEntry
deriving instance Encodable for VersionManifest
deriving instance Encodable for BucketMeta
deriving instance Encodable for DiskFormat

/-! ## The crates -/

/-- The MD5 of the two bodies. -/
def sampleMd5 (bytes : Bytes) : Bytes :=
  if bytes = utf8 "a" then
    [0x0c, 0xc1, 0x75, 0xb9, 0xc0, 0xf1, 0xb6, 0xa8, 0x31, 0xc3, 0x99, 0xe2, 0x69, 0x77, 0x26, 0x61]
  else if bytes = utf8 "b" then
    [0x92, 0xeb, 0x5f, 0xfe, 0xe6, 0xae, 0x2f, 0xec, 0x3a, 0xd7, 0x1c, 0x77, 0x75, 0x31, 0x57, 0x8f]
  else []

/-- The options of a `PUT` that gives none. -/
def noOpts : PutOpts := ⟨none, .empty, none⟩

/-- The manifest of a one-byte body of the given MD5. -/
def sampleManifest (etag : String) : VersionManifest :=
  ⟨MANIFEST_FORMAT, [⟨NULL_VERSION_ID, etag, 1, DEFAULT_CONTENT_TYPE, .empty, 0, false, none⟩]⟩

/-- The text `serde_json` writes of it. -/
def sampleText (etag : String) : Bytes :=
  utf8 ("\x7b\"format\":2,\"versions\":[\x7b\"version_id\":\"null\",\"etag\":\"" ++ etag ++
    "\",\"size\":1,\"content_type\":\"application/octet-stream\",\"user_metadata\":\x7b\x7d," ++
    "\"mtime_epoch_ms\":0,\"delete_marker\":false\x7d]\x7d")

def etagA : String := "0cc175b9c0f1b6a831c399e269772661"
def etagB : String := "92eb5ffee6ae2fec3ad71c777531578f"

def sampleManifestJson : Json VersionManifest :=
  ((Json.unary _).patch (sampleManifest etagA) (sampleText etagA) (Json.unary_ne (by decide))).patch
    (sampleManifest etagB) (sampleText etagB)
    (Json.patch_ne (Json.unary_ne (by decide)) (by decide))

def sampleCrates : Crates where
  md5 := sampleMd5
  crc32 _ := 0
  sha1 _ := []
  sha256 _ := []
  base64 _ := ""
  manifestJson := sampleManifestJson
  bucketMetaJson := (Json.unary _).patch ⟨0⟩ (utf8 "\x7b\"created_epoch_ms\":0\x7d")
    (Json.unary_ne (by decide))
  diskFormatJson := (Json.unary _).patch ⟨1⟩ (utf8 "\x7b\"format\":1\x7d")
    (Json.unary_ne (by decide))
  -- The data directory is the root, and the names that occur are ASCII.
  display p := String.ofList (p.reverse.flatMap fun n => '/' :: n.map fun b => Char.ofNat b.toNat)
  shortRead _ := READ_CHUNK

/-! ## The machine -/

/-- A machine that accepts every name and every signed offset, lists a directory in the
order its entries are kept in, and draws names one after another. -/
def sampleEnv : Env OsName where
  fits _ := true
  seeks offset := offset < 2 ^ 63
  order _ l := l
  order_perm _ l := .refl l
  uuid n := String.ofList (List.replicate n 'x')
  uuid_injective := by
    intro m n h
    simpa using congrArg (fun s => s.toList.length) h
  modified _ _ := 0
  slack _ := 0

/-! ## A tree with one object -/

/-- The manifest of a body of `size` bytes. -/
def sizedManifest (size : Nat) : VersionManifest :=
  ⟨MANIFEST_FORMAT, [⟨NULL_VERSION_ID, etagA, size, DEFAULT_CONTENT_TYPE, .empty, 0, false, none⟩]⟩

/-- The text `serde_json` writes of it. -/
def sizedText (size : Nat) : Bytes :=
  utf8 ("\x7b\"format\":2,\"versions\":[\x7b\"version_id\":\"null\",\"etag\":\"" ++ etagA ++
    "\",\"size\":") ++ (utf8 (toString size) ++
    utf8 (",\"content_type\":\"application/octet-stream\",\"user_metadata\":\x7b\x7d," ++
      "\"mtime_epoch_ms\":0,\"delete_marker\":false\x7d]\x7d"))

theorem sizedText_any (size : Nat) : (sizedText size).any (· ≠ 0) := by
  rw [sizedText, List.any_append, Bool.or_eq_true]
  exact .inl (by decide)

/-- The sample crates where that manifest is written as it is. -/
def sizedCrates (size : Nat) : Crates :=
  { sampleCrates with
    manifestJson := (Json.unary _).patch (sizedManifest size) (sizedText size)
      (Json.unary_ne (sizedText_any size)) }

/-- The places of a tree with one object `k` in one bucket `aaa`. -/
def samplePlaces : List Place :=
  [.data "aaa" "k", .manifest "aaa" "k", .object "aaa" "k", .objects "aaa", .bucket "aaa", .buckets]

/-- The tree with one object, its manifest and its data file as given. -/
def objectTree (manifest data : Bytes) : FileTree OsName where
  nodes := ⟨[⟨(Place.data "aaa" "k").path, .file 6 data⟩,
    ⟨(Place.manifest "aaa" "k").path, .file 5 manifest⟩,
    ⟨(Place.object "aaa" "k").path, .dir 4⟩, ⟨(Place.objects "aaa").path, .dir 3⟩,
    ⟨(Place.bucket "aaa").path, .dir 2⟩, ⟨Place.buckets.path, .dir 1⟩], by
      change (samplePlaces.map Place.path).Nodup
      decide⟩
  rootless := rfl
  closed := by
    intro n p h hp
    have mem : n :: p ∈ samplePlaces.map Place.path :=
      AList.lookup_isSome.mp (Option.isSome_iff_ne_none.mpr h)
    simp only [samplePlaces, List.map_cons, List.map_nil, List.mem_cons, List.not_mem_nil,
      or_false] at mem
    rcases mem with mem | mem | mem | mem | mem | mem <;> obtain ⟨-, rfl⟩ := List.cons.inj mem
    · exact ⟨4, rfl⟩
    · exact ⟨4, rfl⟩
    · exact ⟨3, rfl⟩
    · exact ⟨2, rfl⟩
    · exact ⟨1, rfl⟩
    · exact absurd rfl hp

/-- The engine could have laid the tree out. -/
theorem shaped_objectTree (manifest data : Bytes) :
    Shaped sampleEnv.fits (objectTree manifest data) where
  place := by
    intro p x h hp
    obtain ⟨n, q, rfl⟩ := List.exists_cons_of_ne_nil hp
    have present : (objectTree manifest data).nodes.lookup (n :: q) ≠ none := by
      rw [← FileTree.find_cons, h]
      exact Option.some_ne_none x
    have mem : n :: q ∈ samplePlaces.map Place.path :=
      AList.lookup_isSome.mp (Option.isSome_iff_ne_none.mpr present)
    obtain ⟨pl, hpl, hpath⟩ := List.mem_map.mp mem
    refine ⟨pl, hpath.symm, ?_⟩
    rw [← hpath] at h
    simp only [samplePlaces, List.mem_cons, List.not_mem_nil, or_false] at hpl
    rcases hpl with rfl | rfl | rfl | rfl | rfl | rfl <;> cases h <;> rfl
  fit := fun _ _ _ _ => rfl

/-- A machine whose disk holds the tree with one object of `size` bytes, by its manifest. -/
def objectWorld (size : Nat) (data : Bytes) : World OsName :=
  { World.empty OsName with
    fs := { (Fs.empty : Fs OsName) with
      tree := objectTree ((sizedCrates size).manifestJson.toVec (sizedManifest size)) data
      nextIno := 7 } }

theorem dataAt_objectWorld (size : Nat) (data : Bytes) :
    (objectWorld size data).tree.fileAt (Place.data "aaa" "k").path = some data := rfl

theorem entryAt_objectWorld (size : Nat) (data : Bytes) :
    entryAt (sizedCrates size) (objectWorld size data).tree "aaa" "k" =
      .ok ⟨NULL_VERSION_ID, etagA, size, DEFAULT_CONTENT_TYPE, .empty, 0, false, none⟩ := by
  have file : (objectWorld size data).tree.fileAt (Place.manifest "aaa" "k").path =
      some ((sizedCrates size).manifestJson.toVec (sizedManifest size)) := rfl
  rw [entryAt, manifestAt, file]
  dsimp only
  rw [parseManifest_toVec _ _ (le_refl MANIFEST_FORMAT)]
  rfl

end Aks3.Engine
