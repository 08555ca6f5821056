import Aks3.Engine.FsEngine
import Aks3.Lib.FsSpec

/-!
# The places of a data directory

Every path the engine uses is the path of a `Place`: a directory of the layout,
a staged file, a bucket's own file, or the directory, the manifest or the data
file of a key. Different places have different paths (`Place.path_injective`):
a bucket's files do not collide with its object tree, and the files of a key
carry reserved names, which no component of a key encodes to. Facts about paths
are therefore facts about constructors.

`Shaped` says that nothing but places is in a tree, directories and files each
where they belong.
-/

set_option autoImplicit false

namespace Aks3.Engine

open Lib

inductive Place where
  | aks3
  | tmp
  | staged (name : OsName)
  | format
  | buckets
  | bucket (b : String)
  | bucketMeta (b : String)
  | objects (b : String)
  | object (b k : String)
  | manifest (b k : String)
  | data (b k : String)
  deriving DecidableEq, Repr

namespace Place

def path : Place → Path OsName
  | .aks3 => [AKS3_DIR]
  | .tmp => tmpDir
  | .staged n => n :: tmpDir
  | .format => formatPath
  | .buckets => bucketsDir
  | .bucket b => bucketDir b
  | .bucketMeta b => bucketMetaPath (bucketDir b)
  | .objects b => objectsDir (bucketDir b)
  | .object b k => objectDir (bucketDir b) k
  | .manifest b k => metaPath (objectDir (bucketDir b) k)
  | .data b k => dataPath (objectDir (bucketDir b) k) NULL_VERSION_ID

def kind : Place → Kind
  | .aks3 | .tmp | .buckets | .bucket _ | .objects _ | .object _ _ => .dir
  | .staged _ | .format | .bucketMeta _ | .manifest _ _ | .data _ _ => .file

/-! ## Different places have different paths -/

/-- The place a path of the object tree is, the names below `objects/` given
last first. -/
def ofRel (b : String) (rel : Path OsName) : Option Place :=
  match rel with
  | [] => some (.objects b)
  | n :: up =>
    if n = utf8 META_FILE then (relPathToKey up).toOption.map (.manifest b)
    else if n = utf8 (dataFileName NULL_VERSION_ID) then (relPathToKey up).toOption.map (.data b)
    else (relPathToKey rel).toOption.map (.object b)

/-- The place of a path, if it is one. -/
def ofPath (p : Path OsName) : Option Place :=
  match p.reverse with
  | [] => none
  | top :: rest =>
    if top = AKS3_DIR then
      match rest with
      | [] => some .aks3
      | [n] => if n = TMP_DIR then some .tmp else some .format
      | _ :: n :: _ => some (.staged n)
    else
      match rest with
      | [] => some .buckets
      | [b] => (fromUtf8 b).map .bucket
      | b :: n :: below =>
        if n = BUCKET_META_FILE then (fromUtf8 b).map .bucketMeta
        else (fromUtf8 b).bind fun b => ofRel b below.reverse

theorem ofPath_objects (b : String) (rel : Path OsName) :
    ofPath (rel ++ objectsDir (bucketDir b)) = ofRel b rel := by
  have hr : (rel ++ objectsDir (bucketDir b)).reverse =
      BUCKETS_DIR :: utf8 b :: OBJECTS_DIR :: rel.reverse := by
    simp [objectsDir, bucketDir, bucketsDir]
  have htop : BUCKETS_DIR ≠ AKS3_DIR := by decide
  have hname : OBJECTS_DIR ≠ BUCKET_META_FILE := by decide
  simp only [ofPath, hr, if_neg htop, if_neg hname, fromUtf8_utf8, Option.bind_some,
    List.reverse_reverse]

theorem ofRel_key (b k : String) : ofRel b (keyToRelPath k) = some (.object b k) := by
  cases hk : keyToRelPath k with
  | nil => exact absurd hk (keyToRelPath_ne_nil k)
  | cons n rel =>
      have hn : n ∈ keyToRelPath k := by simp [hk]
      obtain ⟨c, -, hc⟩ := mem_keyToRelPath hn
      have hmeta : n ≠ utf8 META_FILE := by
        rw [hc]
        exact encodeComponent_ne_of_reserved reserved_metaFile
      have hdata : n ≠ utf8 (dataFileName NULL_VERSION_ID) := by
        rw [hc]
        exact encodeComponent_ne_of_reserved (reserved_dataFileName _)
      simp only [ofRel, if_neg hmeta, if_neg hdata, ← hk, relPathToKey_keyToRelPath]
      rfl

theorem metaFile_ne_dataFile : utf8 (dataFileName NULL_VERSION_ID) ≠ utf8 META_FILE := by decide

/-- **The path of a place says which place it is.** -/
theorem ofPath_path (pl : Place) : ofPath pl.path = some pl := by
  cases pl with
  | aks3 => decide
  | tmp => decide
  | staged n => rfl
  | format => decide
  | buckets => decide
  | bucket b =>
      have htop : BUCKETS_DIR ≠ AKS3_DIR := by decide
      simp [ofPath, path, bucketDir, bucketsDir, htop, fromUtf8_utf8]
  | bucketMeta b =>
      have htop : BUCKETS_DIR ≠ AKS3_DIR := by decide
      simp [ofPath, path, bucketMetaPath, bucketDir, bucketsDir, htop, fromUtf8_utf8]
  | objects b => exact ofPath_objects b []
  | object b k =>
      rw [path, objectDir, ofPath_objects]
      exact ofRel_key b k
  | manifest b k =>
      rw [path, metaPath, objectDir, ← List.cons_append, ofPath_objects, ofRel, if_pos rfl,
        relPathToKey_keyToRelPath]
      rfl
  | data b k =>
      rw [path, dataPath, objectDir, ← List.cons_append, ofPath_objects, ofRel,
        if_neg metaFile_ne_dataFile, if_pos rfl, relPathToKey_keyToRelPath]
      rfl

/-- **A path belongs to one place.** -/
theorem path_injective : Function.Injective path := by
  intro x y h
  have hx := ofPath_path x
  rw [h, ofPath_path] at hx
  exact (Option.some.inj hx).symm

@[simp] theorem path_inj {x y : Place} : x.path = y.path ↔ x = y := path_injective.eq_iff

/-- Only a staged file has a staged file's path. -/
@[simp] theorem path_eq_staged {pl : Place} {n : OsName} :
    pl.path = n :: tmpDir ↔ pl = .staged n :=
  path_inj (y := .staged n)

@[simp] theorem staged_eq_path {pl : Place} {n : OsName} :
    n :: tmpDir = pl.path ↔ pl = .staged n :=
  eq_comm.trans path_eq_staged

theorem path_ne_nil (pl : Place) : pl.path ≠ [] := by
  intro h
  have hp := ofPath_path pl
  rw [h] at hp
  cases hp

/-- What is inside a bucket's object tree belongs to a key. -/
theorem of_objects {b : String} {rel : Path OsName} {pl : Place} (hne : rel ≠ [])
    (h : rel ++ objectsDir (bucketDir b) = pl.path) :
    ∃ k, pl = .object b k ∨ pl = .manifest b k ∨ pl = .data b k := by
  have hof := ofPath_path pl
  rw [← h, ofPath_objects] at hof
  cases rel with
  | nil => exact absurd rfl hne
  | cons n up =>
      rw [ofRel] at hof
      split at hof
      · obtain ⟨k, -, hk⟩ := Option.map_eq_some_iff.mp hof
        exact ⟨k, .inr (.inl hk.symm)⟩
      · split at hof
        · obtain ⟨k, -, hk⟩ := Option.map_eq_some_iff.mp hof
          exact ⟨k, .inr (.inr hk.symm)⟩
        · obtain ⟨k, -, hk⟩ := Option.map_eq_some_iff.mp hof
          exact ⟨k, .inl hk.symm⟩

/-! ## The directories above a place -/

theorem objectDir_tail (b k : String) : (objectDir (bucketDir b) k).tail = (Place.objects b).path ∨
    ∃ k', (objectDir (bucketDir b) k).tail = (Place.object b k').path := by
  cases hk : keyToRelPath k with
  | nil => exact absurd hk (keyToRelPath_ne_nil k)
  | cons n rel =>
      rw [objectDir, hk, List.cons_append, List.tail_cons]
      rcases keyToRelPath_tail hk with rfl | ⟨k', rfl⟩
      · exact .inl rfl
      · exact .inr ⟨k', rfl⟩

/-- What a place is in is the root or a directory of the layout. -/
theorem tail_path (pl : Place) :
    pl.path.tail = [] ∨ ∃ up : Place, up.kind = .dir ∧ pl.path.tail = up.path := by
  cases pl with
  | aks3 => exact .inl rfl
  | tmp => exact .inr ⟨.aks3, rfl, rfl⟩
  | staged n => exact .inr ⟨.tmp, rfl, rfl⟩
  | format => exact .inr ⟨.aks3, rfl, rfl⟩
  | buckets => exact .inl rfl
  | bucket b => exact .inr ⟨.buckets, rfl, rfl⟩
  | bucketMeta b => exact .inr ⟨.bucket b, rfl, rfl⟩
  | objects b => exact .inr ⟨.bucket b, rfl, rfl⟩
  | object b k =>
      rcases objectDir_tail b k with h | ⟨k', h⟩
      · exact .inr ⟨.objects b, rfl, h⟩
      · exact .inr ⟨.object b k', rfl, h⟩
  | manifest b k => exact .inr ⟨.object b k, rfl, rfl⟩
  | data b k => exact .inr ⟨.object b k, rfl, rfl⟩

theorem suffix_path {q : Path OsName} (pl : Place) (hk : pl.kind = .dir) (hq : q <:+ pl.path) :
    q = [] ∨ ∃ up : Place, up.kind = .dir ∧ q = up.path := by
  cases hp : pl.path with
  | nil => exact absurd hp pl.path_ne_nil
  | cons c up =>
      rw [hp] at hq
      rcases List.suffix_cons_iff.mp hq with rfl | hq
      · exact .inr ⟨pl, hk, hp.symm⟩
      · rcases tail_path pl with ht | ⟨above, ha, ht⟩
        · rw [hp, List.tail_cons] at ht
          rw [ht] at hq
          exact .inl (List.suffix_nil.mp hq)
        · rw [hp, List.tail_cons] at ht
          rw [ht] at hq
          have hlt : above.path.length < pl.path.length := by
            rw [hp, ← ht]
            exact Nat.lt_succ_self _
          exact suffix_path above ha hq
termination_by pl.path.length

/-- The directories above a key are those of its bucket. -/
theorem suffix_object {pl : Place} {b k : String} (h : pl.path <:+ (Place.object b k).path) :
    pl = .buckets ∨ pl = .bucket b ∨ pl = .objects b ∨ ∃ k', pl = .object b k' := by
  have hobj : (Place.objects b).path <:+ (Place.object b k).path := List.suffix_append _ _
  rcases List.suffix_or_suffix_of_suffix h hobj with hup | ⟨rel, hrel⟩
  · rcases List.suffix_cons_iff.mp hup with hp | hup
    · exact .inr (.inr (.inl ((path_inj (y := .objects b)).mp hp)))
    rcases List.suffix_cons_iff.mp hup with hp | hup
    · exact .inr (.inl ((path_inj (y := .bucket b)).mp hp))
    rcases List.suffix_cons_iff.mp hup with hp | hup
    · exact .inl ((path_inj (y := .buckets)).mp hp)
    · exact absurd (List.suffix_nil.mp hup) pl.path_ne_nil
  · by_cases hne : rel = []
    · rw [hne, List.nil_append] at hrel
      exact .inr (.inr (.inl (path_injective hrel.symm)))
    obtain ⟨k', hk'⟩ := of_objects hne hrel
    rcases suffix_path (.object b k) rfl h with hnil | ⟨up, hup, hp⟩
    · exact absurd hnil pl.path_ne_nil
    · rw [path_inj] at hp
      subst hp
      rcases hk' with rfl | rfl | rfl
      · exact .inr (.inr (.inr ⟨k', rfl⟩))
      · cases hup
      · cases hup

/-- The bucket a place belongs to. -/
def bucketOf : Place → Option String
  | .bucket b | .bucketMeta b | .objects b | .object b _ | .manifest b _ | .data b _ => some b
  | .aks3 | .tmp | .staged _ | .format | .buckets => none

theorem bucketDir_suffix {b b' : String} (rel : Path OsName) :
    bucketDir b <:+ rel ++ bucketDir b' ↔ b' = b := by
  constructor
  · intro h
    have heq : bucketDir b = bucketDir b' := by
      rcases List.suffix_or_suffix_of_suffix h (List.suffix_append rel _) with hs | hs
      · exact hs.eq_of_length rfl
      · exact (hs.eq_of_length rfl).symm
    exact Place.bucket.inj ((path_inj (x := .bucket b') (y := .bucket b)).mp heq.symm)
  · rintro rfl
    exact List.suffix_append rel _

theorem path_of_bucketOf {pl : Place} {b : String} (h : pl.bucketOf = some b) :
    ∃ rel, pl.path = rel ++ bucketDir b := by
  cases pl with
  | bucket b' => cases h; exact ⟨[], rfl⟩
  | bucketMeta b' => cases h; exact ⟨[BUCKET_META_FILE], rfl⟩
  | objects b' => cases h; exact ⟨[OBJECTS_DIR], rfl⟩
  | object b' k =>
      cases h
      exact ⟨keyToRelPath k ++ [OBJECTS_DIR], by simp [path, objectDir, objectsDir]⟩
  | manifest b' k =>
      cases h
      exact ⟨utf8 META_FILE :: keyToRelPath k ++ [OBJECTS_DIR],
        by simp [path, metaPath, objectDir, objectsDir]⟩
  | data b' k =>
      cases h
      exact ⟨utf8 (dataFileName NULL_VERSION_ID) :: keyToRelPath k ++ [OBJECTS_DIR],
        by simp [path, dataPath, objectDir, objectsDir]⟩
  | _ => cases h

/-- What is below a bucket's directory belongs to that bucket. -/
theorem bucket_suffix {b : String} (pl : Place) :
    (Place.bucket b).path <:+ pl.path ↔ pl.bucketOf = some b := by
  cases hb : pl.bucketOf with
  | some b' =>
      obtain ⟨rel, hrel⟩ := path_of_bucketOf hb
      rw [hrel, Option.some_inj]
      exact bucketDir_suffix rel
  | none =>
      simp only [reduceCtorEq, iff_false]
      rintro ⟨rel, hrel⟩
      have hlast : pl.path.getLast? = some BUCKETS_DIR := by
        rw [← hrel]
        simp [path, bucketDir, bucketsDir]
      have hlen : 2 ≤ pl.path.length := by
        rw [← hrel]
        simp [path, bucketDir, bucketsDir]
      have htop : AKS3_DIR ≠ BUCKETS_DIR := by decide
      cases pl with
      | buckets => exact absurd hlen (by decide)
      | aks3 | tmp | staged n | format =>
          simp [path, tmpDir, formatPath, htop] at hlast
      | _ => cases hb

end Place

/-! ## The files of different keys -/

/-- The manifest of a key, or the data file of one of its versions. -/
def objectFile (dir : Path OsName) (key : String) : Option String → Path OsName
  | none => metaPath (objectDir dir key)
  | some versionId => dataPath (objectDir dir key) versionId

theorem objectFile_eq (dir : Path OsName) (key : String) (f : Option String) :
    ∃ name, Reserved name ∧
      objectFile dir key f = (utf8 name :: keyToRelPath key) ++ objectsDir dir := by
  cases f with
  | none => exact ⟨META_FILE, reserved_metaFile, rfl⟩
  | some v => exact ⟨dataFileName v, reserved_dataFileName v, rfl⟩

/-- A file of one key is on the way to a file of another only if both are the same. -/
theorem objectFile_antichain {dir : Path OsName} {k k' : String} {f f' : Option String}
    (h : objectFile dir k f <:+ objectFile dir k' f') :
    k = k' ∧ objectFile dir k f = objectFile dir k' f' := by
  obtain ⟨name, hname, hf⟩ := objectFile_eq dir k f
  obtain ⟨name', -, hf'⟩ := objectFile_eq dir k' f'
  rw [hf, hf', List.suffix_append_self_iff] at h
  rcases List.suffix_cons_iff.mp h with heq | hsuf
  · rw [hf, hf', heq]
    exact ⟨keyToRelPath_injective (List.cons.inj heq).2, rfl⟩
  · -- A name of the engine's own is not a component of a key.
    have hmem : utf8 name ∈ keyToRelPath k' := hsuf.subset List.mem_cons_self
    obtain ⟨c, -, hc⟩ := mem_keyToRelPath hmem
    exact absurd hc.symm (encodeComponent_ne_of_reserved hname)

/-- **Keys are paths of plain names, one for each component, and the files of all keys
can be in one tree:** decoding gives the key back, and no file of a key is a file of
another key or a directory on the way to one. -/
theorem keys_isolated :
    (∀ k : String, relPathToKey (keyToRelPath k) = .ok k ∧
      (keyToRelPath k).length = k.toList.count '/' + 1 ∧ ∀ n ∈ keyToRelPath k, PlainName n) ∧
    ∀ (dir : Path OsName) (k k' : String) (f f' : Option String),
      objectFile dir k f <:+ objectFile dir k' f' →
        k = k' ∧ objectFile dir k f = objectFile dir k' f' := by
  refine ⟨fun k => ⟨relPathToKey_keyToRelPath k, ?_, fun n hn => ?_⟩,
    fun dir k k' f f' => objectFile_antichain⟩
  · rw [keyToRelPath, List.length_reverse, List.length_map, length_components]
  · obtain ⟨c, hc, rfl⟩ := mem_keyToRelPath hn
    exact plainName_encodeComponent hc

/-! ## Trees that hold nothing else -/

/-- Every node is a place, directories and files each where they belong, and has a
path the filesystem accepts. -/
structure Shaped (fits : OsName → Bool) (t : FileTree OsName) : Prop where
  place : ∀ p x, t.find p = some x → p ≠ [] → ∃ pl : Place, p = pl.path ∧ x.kind = pl.kind
  fit : ∀ p, t.find p ≠ none → Fit fits p

namespace Shaped

variable {fits : OsName → Bool} {t : FileTree OsName}

theorem kind_eq (h : Shaped fits t) {pl : Place} {x : Node} (hx : t.find pl.path = some x) :
    x.kind = pl.kind := by
  obtain ⟨pl', hpl, hk⟩ := h.place _ _ hx pl.path_ne_nil
  rw [hk, Place.path_injective hpl]

/-- Nothing but directories is on the way to a directory of the layout. -/
theorem clear (h : Shaped fits t) (pl : Place) (hk : pl.kind = .dir) : t.Clear pl.path := by
  intro q hq i d hf
  rcases Place.suffix_path pl hk hq with rfl | ⟨up, hup, rfl⟩
  · simp at hf
  · have := h.kind_eq hf
    rw [hup] at this
    cases this

theorem clear_tail (h : Shaped fits t) (pl : Place) : t.Clear pl.path.tail := by
  rcases Place.tail_path pl with ht | ⟨up, hup, ht⟩
  · rw [ht]
    intro q hq i d hf
    rw [List.suffix_nil.mp hq] at hf
    simp at hf
  · rw [ht]
    exact h.clear up hup

theorem not_isDir (h : Shaped fits t) (pl : Place) (hk : pl.kind = .file) : ¬ t.IsDir pl.path := by
  rintro ⟨i, hi⟩
  have := h.kind_eq hi
  rw [hk] at this
  cases this

theorem fileAt_dir (h : Shaped fits t) (pl : Place) (hk : pl.kind = .dir) :
    t.fileAt pl.path = none := by
  cases hf : t.fileAt pl.path with
  | none => rfl
  | some d =>
      obtain ⟨i, hi⟩ := FileTree.fileAt_eq_some.mp hf
      have := h.kind_eq hi
      rw [hk] at this
      cases this

/-- A directory of the layout that is not there is not anything else either. -/
theorem find_none_of_dir (h : Shaped fits t) (pl : Place) (hk : pl.kind = .dir)
    (hd : ¬ t.IsDir pl.path) : t.find pl.path = none :=
  FileTree.find_eq_none.mpr ⟨h.fileAt_dir pl hk, hd⟩

theorem find_none_of_file (h : Shaped fits t) (pl : Place) (hk : pl.kind = .file)
    (hf : t.fileAt pl.path = none) : t.find pl.path = none :=
  FileTree.find_eq_none.mpr ⟨hf, h.not_isDir pl hk⟩

end Shaped

end Aks3.Engine
