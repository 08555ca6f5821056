import Aks3.Engine.Buckets
import Aks3.Engine.Store

/-!
# The trees that hold a store

`Rep C fits X S t` says that the tree `t` holds the store `S`: a directory for every
bucket, a manifest of one version and a data file for every object, and no
directory in an object tree that leads neither to an object nor to one of the
directories `X`, which rejected uploads may have left. The part below `buckets/`
is `Contents`: what a reader finds in it is what the store has, and a restart
touches nothing of it.

The changes a request makes, in files and directories, lead from the tree of a
store to the tree of the next. Deleting is the one that needs an argument: the
pruning stops at a directory with something left in it, and what is left there
leads to another object (`Deleted.leads`).
-/

set_option autoImplicit false

namespace Aks3.Engine

open Lib

/-! ## The store a tree holds -/

/-- The version an object is stored as. -/
def Object.entry (C : Crates) (o : Object) : VersionEntry :=
  bodyEntry C o.opts o.bytes o.mtimeEpochMs

/-- The manifest of a key that has an object. -/
def Object.manifest (C : Crates) (o : Object) : VersionManifest := ⟨MANIFEST_FORMAT, [o.entry C]⟩

theorem objectInfo_entry (C : Crates) (k : String) (o : Object) :
    objectInfo k (o.entry C) = o.info C k := rfl

/-- The buckets and objects of a tree are those of a store. -/
structure Contents (C : Crates) (X : Set (Path OsName)) (S : Store) (t : FileTree OsName) :
    Prop where
  valid : ∀ b ∈ S, isValidBucketName b = true
  bucket : ∀ b, t.IsDir (Place.bucket b).path ↔ b ∈ S
  created : ∀ b B, S.lookup b = some B →
    t.fileAt (Place.bucketMeta b).path = some (C.bucketMetaJson.toVec ⟨B.createdEpochMs⟩)
  manifest : ∀ b k, t.fileAt (Place.manifest b k).path =
    (S.object b k).map fun o => C.manifestJson.toVec (o.manifest C)
  data : ∀ b k, t.fileAt (Place.data b k).path = (S.object b k).map Object.bytes
  tight : ∀ b k, t.IsDir (Place.object b k).path → (∃ q ∈ X, (Place.object b k).path <:+ q) ∨
    ∃ k', (S.object b k').isSome = true ∧ (Place.object b k).path <:+ (Place.object b k').path

/-- A data directory between two requests, holding a store. -/
structure Rep (C : Crates) (fits : OsName → Bool) (X : Set (Path OsName)) (S : Store)
    (t : FileTree OsName) : Prop extends Ready fits t, Contents C X S t where
  format : t.fileAt Place.format.path = some (C.diskFormatJson.toVec ⟨DISK_FORMAT⟩)

/-! ## Objects after a change of the store -/

namespace Store

variable {S : Store} {b b' k k' : String} {B : Bucket}

theorem object_of_lookup (h : S.lookup b = some B) : S.object b k = B.objects.lookup k := by
  rw [object, h, Option.bind_some]

theorem object_of_notMem (h : b ∉ S) : S.object b k = none := by
  rw [object, Finmap.lookup_eq_none.mpr h, Option.bind_none]

theorem object_insert : object (S.insert b B) b' k =
    if b' = b then B.objects.lookup k else S.object b' k := by
  rw [object]
  split
  · rename_i h
    rw [h, Finmap.lookup_insert, Option.bind_some]
  · rename_i h
    rw [Finmap.lookup_insert_of_ne S h, object]

/-- A new bucket has no objects, as before it had none. -/
theorem object_create (h : b ∉ S) (now : Nat) :
    object (S.insert b ⟨now, ∅⟩) b' k = S.object b' k := by
  rw [object_insert]
  split
  · rename_i hb
    rw [hb, object_of_notMem h, Finmap.lookup_empty]
  · rfl

/-- Removing a bucket without objects removes no object. -/
theorem object_erase (h : S.lookup b = some B) (he : B.objects = ∅) :
    object (S.erase b) b' k = S.object b' k := by
  by_cases hb : b' = b
  · rw [hb, object_of_lookup h, he, Finmap.lookup_empty, object, Finmap.lookup_erase,
      Option.bind_none]
  · rw [object, Finmap.lookup_erase_ne hb, object]

theorem object_put (h : S.lookup b = some B) (o : Object) :
    object (S.insert b { B with objects := B.objects.insert k o }) b' k' =
      if b' = b ∧ k' = k then some o else S.object b' k' := by
  rw [object_insert]
  by_cases hb : b' = b
  · subst hb
    rw [if_pos rfl, object_of_lookup h]
    by_cases hk : k' = k
    · rw [hk, if_pos ⟨rfl, rfl⟩, Finmap.lookup_insert]
    · rw [if_neg fun hx => hk hx.2, Finmap.lookup_insert_of_ne _ hk]
  · rw [if_neg hb, if_neg fun hx => hb hx.1]

theorem object_delete (h : S.lookup b = some B) :
    object (S.insert b { B with objects := B.objects.erase k }) b' k' =
      if b' = b ∧ k' = k then none else S.object b' k' := by
  rw [object_insert]
  by_cases hb : b' = b
  · subst hb
    rw [if_pos rfl, object_of_lookup h]
    by_cases hk : k' = k
    · rw [hk, if_pos ⟨rfl, rfl⟩, Finmap.lookup_erase]
    · rw [if_neg fun hx => hk hx.2, Finmap.lookup_erase_ne hk]
  · rw [if_neg hb, if_neg fun hx => hb hx.1]

theorem mem_update (h : S.lookup b = some B) {B' : Bucket} : b' ∈ S.insert b B' ↔ b' ∈ S := by
  rw [Finmap.mem_insert, or_iff_right_iff_imp]
  rintro rfl
  exact Finmap.mem_of_lookup_eq_some h

/-- Changing the objects of a bucket leaves the time each bucket was made. -/
theorem lookup_update (h : S.lookup b = some B) {os : Finmap fun _ : String => Object}
    {B' : Bucket} (h' : (S.insert b { B with objects := os }).lookup b' = some B') :
    ∃ B₀, S.lookup b' = some B₀ ∧ B'.createdEpochMs = B₀.createdEpochMs := by
  by_cases hb : b' = b
  · rw [hb, Finmap.lookup_insert] at h'
    cases h'
    exact ⟨B, hb ▸ h, rfl⟩
  · rw [Finmap.lookup_insert_of_ne S hb] at h'
    exact ⟨B', h', rfl⟩

end Store

/-! ## What is read from the tree of a store -/

namespace Contents

variable {C : Crates} {fits : OsName → Bool} {X : Set (Path OsName)} {S : Store}
  {t : FileTree OsName} {b k : String} {B : Bucket}

theorem manifestAt_eq (h : Contents C X S t) (b k : String) :
    manifestAt C t b k = .ok ((S.object b k).map (Object.manifest C)) := by
  rw [manifestAt, h.manifest]
  cases S.object b k with
  | none => rfl
  | some o =>
      simp only [Option.map_some]
      rw [parseManifest_toVec C _ (m := o.manifest C) le_rfl]
      rfl

theorem entryAt_eq (h : Contents C X S t) (b k : String) : entryAt C t b k =
    match S.object b k with
    | none => .error .noSuchKey
    | some o => .ok (o.entry C) := by
  rw [entryAt, h.manifestAt_eq]
  cases S.object b k <;> rfl

theorem liveAt_eq (h : Contents C X S t) (b k : String) :
    liveAt C t b k = (S.object b k).map (Object.entry C) := by
  rw [liveAt, h.entryAt_eq]
  cases S.object b k <;> rfl

theorem legible (h : Contents C X S t) (b : String) : Legible C t b := fun k =>
  ⟨_, h.manifestAt_eq b k⟩

theorem liveKeys_eq (h : Contents C X S t) (hB : S.lookup b = some B) :
    liveKeys C t b = ascending B.objects.keys := by
  refine eq_of_ascending (liveKeys_ascending C t b) (pairwise_ascending _) fun k => ?_
  rw [mem_liveKeys, h.liveAt_eq, Option.isSome_map, Store.object_of_lookup hB, mem_ascending,
    Finmap.mem_keys, Finmap.lookup_isSome]

theorem createdAt_eq (h : Contents C X S t) (hB : S.lookup b = some B) :
    createdAt C t b = some B.createdEpochMs := by
  rw [createdAt, h.created b B hB, Option.bind_some, Json.fromSlice_toVec]
  rfl

/-- A key that has one of its two files has an object. -/
theorem live_of_file (h : Contents C X S t) {pl : Place} (hpl : pl = .manifest b k ∨ pl = .data b k)
    (hf : t.fileAt pl.path ≠ none) : (S.object b k).isSome = true := by
  rcases hpl with rfl | rfl
  · rwa [h.manifest, Ne, Option.map_eq_none_iff, ← Ne, ← Option.isSome_iff_ne_none] at hf
  · rwa [h.data, Ne, Option.map_eq_none_iff, ← Ne, ← Option.isSome_iff_ne_none] at hf

theorem isDir_of_live (h : Contents C X S t) (hk : (S.object b k).isSome = true) :
    t.IsDir (Place.object b k).path := by
  have hf : t.fileAt (Place.manifest b k).path ≠ none := by
    rwa [h.manifest, Ne, Option.map_eq_none_iff, ← Ne, ← Option.isSome_iff_ne_none]
  exact FileTree.isDir_of_fileAt hf

/-- The tree of a bucket that has objects is not empty. -/
theorem occupied_of_live (h : Contents C X S t) (hk : (S.object b k).isSome = true) :
    Occupied t b := by
  obtain ⟨rel, n, hrel⟩ :=
    (List.eq_nil_or_concat (keyToRelPath k)).resolve_left (keyToRelPath_ne_nil k)
  have hd : t.IsDir (n :: (Place.objects b).path) := by
    refine FileTree.isDir_of_suffix (h.isDir_of_live hk) ⟨rel, ?_⟩
    rw [Place.path, Place.path, objectDir, hrel, List.concat_eq_append, List.append_assoc]
    rfl
  exact FileTree.hasChild_eq_true.mpr
    ⟨n, fun hnone => absurd hd (FileTree.find_eq_none.mp hnone).2⟩

/-- What is in the tree of a bucket leads to an object or was left by an upload. -/
theorem live_of_occupied (h : Contents C X S t) (hs : Shaped fits t) (ho : Occupied t b) :
    (∃ q ∈ X, (Place.objects b).path <:+ q) ∨ ∃ k, (S.object b k).isSome = true := by
  obtain ⟨n, hn⟩ := FileTree.hasChild_eq_true.mp ho
  obtain ⟨x, hx⟩ := Option.ne_none_iff_exists'.mp hn
  obtain ⟨pl, hpl, hk⟩ := hs.place _ x hx (List.cons_ne_nil _ _)
  obtain ⟨k, hof⟩ := Place.of_objects (List.cons_ne_nil n []) hpl
  rw [hpl] at hx
  cases x with
  | file i d =>
      have hf : t.fileAt pl.path ≠ none := by
        rw [FileTree.fileAt_eq_some.mpr ⟨i, hx⟩]
        exact Option.some_ne_none d
      refine .inr ⟨k, h.live_of_file (hof.resolve_left ?_) hf⟩
      rintro rfl
      cases hk
  | dir i =>
      obtain rfl : pl = .object b k := by
        rcases hof with rfl | rfl | rfl
        · rfl
        · cases hk
        · cases hk
      rcases h.tight b k ⟨i, hx⟩ with ⟨q, hq, hsuf⟩ | ⟨k', hk', -⟩
      · exact .inl ⟨q, hq, (List.suffix_append _ _).trans hsuf⟩
      · exact .inr ⟨k', hk'⟩

theorem objects_ne_empty (hB : S.lookup b = some B) :
    B.objects ≠ ∅ ↔ ∃ k, (S.object b k).isSome = true := by
  simp only [Store.object_of_lookup hB]
  constructor
  · intro hne
    by_contra hno
    refine hne (Finmap.ext_lookup fun k => ?_)
    rw [Finmap.lookup_empty, ← Option.not_isSome_iff_eq_none]
    exact fun hk => hno ⟨k, hk⟩
  · rintro ⟨k, hk⟩ he
    simp [he] at hk

/-- The tree of a bucket is empty exactly when the bucket has no objects. -/
theorem occupied_iff (h : Contents C X S t) (hs : Shaped fits t) (hB : S.lookup b = some B)
    (hX : ∀ q ∈ X, ¬ (Place.objects b).path <:+ q) : Occupied t b ↔ B.objects ≠ ∅ := by
  rw [objects_ne_empty hB]
  constructor
  · intro ho
    rcases h.live_of_occupied hs ho with ⟨q, hq, hsuf⟩ | hlive
    · exact absurd hsuf (hX q hq)
    · exact hlive
  · rintro ⟨k, hk⟩
    exact h.occupied_of_live hk

end Contents

/-! ## Trees after a request -/

section Trees

variable {C : Crates} {fits : OsName → Bool} {X : Set (Path OsName)} {S : Store}
  {t t' : FileTree OsName} {b k : String} {B : Bucket}

theorem Ready.of_view (h : Ready fits t)
    (hfile : ∀ q, t'.fileAt q ≠ none → t.fileAt q ≠ none ∨ ∃ pl : Place,
      (pl.kind = .file ∧ ∀ n, pl ≠ .staged n) ∧ q = pl.path ∧ Fit fits pl.path)
    (hdir : ∀ q, t'.IsDir q → t.IsDir q ∨ q = [] ∨
      ∃ pl : Place, pl.kind = .dir ∧ q = pl.path ∧ Fit fits pl.path)
    (htmp : t'.IsDir tmpDir) (hbuckets : t'.IsDir bucketsDir) : Ready fits t' where
  shaped := h.shaped.of_view
    (fun q hq => (hfile q hq).imp_right fun ⟨pl, hpl, hp⟩ => ⟨pl, hpl.1, hp⟩) hdir
  tmp := htmp
  buckets := hbuckets
  empty := by
    intro n
    by_contra hn
    rcases hfile _ hn with hold | ⟨pl, hpl, hp, -⟩
    · exact hold (h.empty n)
    · exact hpl.2 n (Place.staged_eq_path.mp hp)

theorem Ready.of_same (h : Ready fits t) (hfile : ∀ q, t'.fileAt q = t.fileAt q)
    (hdir : ∀ q, t'.IsDir q ↔ t.IsDir q) : Ready fits t' :=
  h.of_view (fun q hq => .inl (hfile q ▸ hq)) (fun q hq => .inl ((hdir q).mp hq))
    ((hdir _).mpr h.tmp) ((hdir _).mpr h.buckets)

/-- The layout after the two files of a key were written. -/
theorem Ready.put (h : Ready fits t) (hst : Storable fits b k) {m d : Bytes}
    (hfile : ∀ q, t'.fileAt q = if q = (Place.manifest b k).path then some m
      else if q = (Place.data b k).path then some d else t.fileAt q)
    (hdir : ∀ q, t'.IsDir q ↔ t.IsDir q ∨ q <:+ (Place.object b k).path) : Ready fits t' :=
  h.of_view
    (fun q hq => by
      rw [hfile] at hq
      split at hq
      · exact .inr ⟨.manifest b k, ⟨rfl, by simp⟩, ‹_›, hst.manifest⟩
      split at hq
      · exact .inr ⟨.data b k, ⟨rfl, by simp⟩, ‹_›, hst.data⟩
      · exact .inl hq)
    (fun q hq => ((hdir q).mp hq).imp_right (Place.suffix_fit (.object b k) rfl hst.object))
    ((hdir _).mpr (.inl h.tmp)) ((hdir _).mpr (.inl h.buckets))

theorem Rep.of_same (h : Rep C fits X S t) (hfile : ∀ q, t'.fileAt q = t.fileAt q)
    (hdir : ∀ q, t'.IsDir q ↔ t.IsDir q) :
    Rep C fits X S t' where
  toReady := h.toReady.of_same hfile hdir
  valid := h.valid
  bucket := fun b => (hdir _).trans (h.bucket b)
  created := fun b B hB => (hfile _).trans (h.created b B hB)
  manifest := fun b k => (hfile _).trans (h.manifest b k)
  data := fun b k => (hfile _).trans (h.data b k)
  tight := fun b k hd => h.tight b k ((hdir _).mp hd)
  format := (hfile _).trans h.format

/-- The tree after a bucket was made. -/
theorem Rep.create (h : Rep C fits X S t) (hf : Fit fits (Place.bucketMeta b).path)
    (hv : isValidBucketName b = true) (hb : b ∉ S) {now : Nat}
    (hfile : ∀ q, t'.fileAt q = if q = (Place.bucketMeta b).path then
      some (C.bucketMetaJson.toVec ⟨now⟩) else t.fileAt q)
    (hdir : ∀ q, t'.IsDir q ↔ t.IsDir q ∨ q = (Place.bucket b).path) :
    Rep C fits X (S.insert b ⟨now, ∅⟩) t' where
  toReady := h.toReady.of_view
    (fun q hq => by
      rw [hfile] at hq
      split at hq
      · exact .inr ⟨.bucketMeta b, ⟨rfl, by simp⟩, ‹_›, hf⟩
      · exact .inl hq)
    (fun q hq => ((hdir q).mp hq).imp_right fun hq => .inr ⟨.bucket b, rfl, hq, hf.tail⟩)
    ((hdir _).mpr (.inl h.tmp)) ((hdir _).mpr (.inl h.buckets))
  valid := by
    intro b' hb'
    rcases Finmap.mem_insert.mp hb' with rfl | hb'
    · exact hv
    · exact h.valid b' hb'
  bucket := by
    intro b'
    rw [hdir, Place.path_inj, Place.bucket.injEq, h.bucket, Finmap.mem_insert, or_comm]
  created := by
    intro b' B' hB'
    rw [hfile]
    by_cases hbb : b' = b
    · rw [hbb, Finmap.lookup_insert] at hB'
      cases hB'
      rw [hbb, if_pos rfl]
    · rw [Finmap.lookup_insert_of_ne S hbb] at hB'
      rw [if_neg (by simp [hbb]), h.created b' B' hB']
  manifest := fun b' k => by
    rw [hfile, if_neg (by simp), h.manifest, Store.object_create hb]
  data := fun b' k => by
    rw [hfile, if_neg (by simp), h.data, Store.object_create hb]
  tight := by
    intro b' k hd
    simp only [Store.object_create hb]
    exact h.tight b' k (((hdir _).mp hd).resolve_right (by simp))
  format := by
    rw [hfile, if_neg (by simp), h.format]

/-- The tree after an object was put. -/
theorem Rep.put (h : Rep C fits X S t) (hst : Storable fits b k) (hB : S.lookup b = some B)
    (o : Object)
    (hfile : ∀ q, t'.fileAt q =
      if q = (Place.manifest b k).path then some (C.manifestJson.toVec (o.manifest C))
      else if q = (Place.data b k).path then some o.bytes else t.fileAt q)
    (hdir : ∀ q, t'.IsDir q ↔ t.IsDir q ∨ q <:+ (Place.object b k).path) :
    Rep C fits X (S.insert b { B with objects := B.objects.insert k o }) t' where
  toReady := h.toReady.put hst hfile hdir
  valid := fun b' hb' => h.valid b' ((Store.mem_update hB).mp hb')
  bucket := by
    intro b'
    rw [Store.mem_update hB, hdir, h.bucket, or_iff_left_iff_imp]
    intro hs
    obtain rfl : b' = b := by simpa using Place.suffix_object hs
    exact Finmap.mem_of_lookup_eq_some hB
  created := by
    intro b' B' hB'
    rw [hfile, if_neg (by simp), if_neg (by simp)]
    obtain ⟨B₀, hB₀, hms⟩ := Store.lookup_update hB hB'
    rw [hms, h.created b' B₀ hB₀]
  manifest := by
    intro b' k'
    rw [hfile, Store.object_put hB]
    by_cases hbk : b' = b ∧ k' = k
    · rw [if_pos (by simp [hbk.1, hbk.2]), if_pos hbk, Option.map_some]
    · rw [if_neg (by simpa using hbk), if_neg (by simp), if_neg hbk, h.manifest]
  data := by
    intro b' k'
    rw [hfile, if_neg (by simp), Store.object_put hB]
    by_cases hbk : b' = b ∧ k' = k
    · rw [if_pos (by simp [hbk.1, hbk.2]), if_pos hbk, Option.map_some]
    · rw [if_neg (by simpa using hbk), if_neg hbk, h.data]
  tight := by
    intro b' k' hd
    rcases (hdir _).mp hd with hold | hnew
    · refine (h.tight b' k' hold).imp_right fun ⟨k₁, hk₁, hs⟩ => ⟨k₁, ?_, hs⟩
      rw [Store.object_put hB]
      split
      · rfl
      · exact hk₁
    · obtain rfl : b' = b := by simpa using Place.suffix_object hnew
      refine .inr ⟨k, ?_, hnew⟩
      rw [Store.object_put hB, if_pos ⟨rfl, rfl⟩]
      rfl
  format := by
    rw [hfile, if_neg (by simp), if_neg (by simp), h.format]

/-- What a delete leaves of the way to its key leads to other objects. -/
theorem Deleted.leads {w w' : World OsName} {rest : Path OsName} {b' k' : String}
    (hdel : Deleted w w' b k rest) (h : Rep C fits X S w.tree) (hs' : Shaped fits w'.tree)
    (hd : w'.tree.IsDir (Place.object b' k').path) :
    (∃ q ∈ X, (Place.object b' k').path <:+ q) ∨ ∃ k₁, ¬ (b' = b ∧ k₁ = k) ∧
    (S.object b' k₁).isSome = true ∧
      (Place.object b' k').path <:+ (Place.object b' k₁).path := by
  obtain ⟨hold, hkept⟩ := (hdel.dir _).mp hd
  rcases h.tight b' k' hold with hleft | ⟨k₁, hk₁, hs₁⟩
  · exact .inl hleft
  by_cases hbk : b' = b ∧ k₁ = k
  swap
  · exact .inr ⟨k₁, hbk, hk₁, hs₁⟩
  obtain ⟨rfl, rfl⟩ := hbk
  -- The directory is on the way to the deleted key, so it is one the pruning stopped above.
  have hup : (Place.object b' k').path <:+ rest := by
    rcases List.suffix_or_suffix_of_suffix hs₁ hdel.below with hle | hle
    · exact hle
    · have heq : (Place.object b' k').path = rest := by
        by_contra hne
        exact hkept ⟨hs₁, hle, hne⟩
      rw [heq]
  have hrest : w'.tree.IsDir rest :=
    (hdel.dir _).mpr ⟨FileTree.isDir_of_suffix (h.isDir_of_live hk₁) hdel.below,
      fun hc => hc.2.2 rfl⟩
  have hne : rest ≠ (Place.objects b').path := by
    rintro rfl
    have := hup.length_le
    have := List.length_pos_iff.mpr (keyToRelPath_ne_nil k')
    simp only [Place.path, objectDir, List.length_append] at *
    omega
  obtain ⟨n, hn⟩ := FileTree.hasChild_eq_true.mp (hdel.child hne hrest)
  obtain ⟨x, hx⟩ := Option.ne_none_iff_exists'.mp hn
  obtain ⟨pl, hpl, hkind⟩ := hs'.place _ x hx (List.cons_ne_nil _ _)
  obtain ⟨rel, rfl⟩ := hdel.above
  obtain ⟨kc, hof⟩ := Place.of_objects (List.cons_ne_nil n rel) hpl
  cases x with
  | file i d =>
      -- A file there belongs to another key, and that key's directory is where it stopped.
      have hf : w'.tree.fileAt pl.path ≠ none := by
        rw [← hpl, FileTree.fileAt_eq_some.mpr ⟨i, hx⟩]
        exact Option.some_ne_none d
      rw [hdel.file] at hf
      split at hf
      · exact absurd rfl hf
      rename_i hother
      have hof : pl = .manifest b' kc ∨ pl = .data b' kc :=
        hof.resolve_left (by rintro rfl; cases hkind)
      refine .inr ⟨kc, ?_, h.live_of_file hof hf, ?_⟩
      · rintro ⟨-, rfl⟩
        simp only [Place.path_inj] at hother
        exact hother hof
      · have hat : rel ++ (Place.objects b').path = (Place.object b' kc).path := by
          rcases hof with rfl | rfl <;> exact (List.cons.inj hpl).2
        rwa [hat] at hup
  | dir i =>
      obtain rfl : pl = .object b' kc := by
        rcases hof with rfl | rfl | rfl
        · rfl
        · cases hkind
        · cases hkind
      obtain ⟨hcold, hckept⟩ := (hdel.dir _).mp ⟨i, hx⟩
      have hdown : (Place.object b' k').path <:+ (Place.object b' kc).path :=
        hup.trans (hpl ▸ List.suffix_cons _ _)
      rcases h.tight b' kc (hpl ▸ hcold) with ⟨q, hq, hsq⟩ | ⟨kd, hkd, hsd⟩
      · exact .inl ⟨q, hq, hdown.trans hsq⟩
      · refine .inr ⟨kd, ?_, hkd, hdown.trans hsd⟩
        rintro ⟨-, rfl⟩
        exact hckept ⟨hpl ▸ hsd, List.suffix_cons _ _, by simp⟩

/-- The tree after an object was deleted. -/
theorem Rep.delete {w w' : World OsName} (h : Rep C fits X S w.tree)
    (hB : S.lookup b = some B) {rest : Path OsName} (hdel : Deleted w w' b k rest) :
    Rep C fits X (S.insert b { B with objects := B.objects.erase k }) w'.tree := by
  have hready : Ready fits w'.tree := by
    have hlong : ∀ q : Path OsName, q.length < 3 → w.tree.IsDir q → w'.tree.IsDir q := by
      intro q hq hd
      refine (hdel.dir q).mpr ⟨hd, fun hc => ?_⟩
      have := (hdel.above.trans hc.2.1).length_le
      simp only [Place.path, objectsDir, bucketDir, bucketsDir, List.length_cons,
        List.length_nil] at this
      omega
    refine h.toReady.of_view (fun q hq => .inl ?_) (fun q hq => .inl ((hdel.dir q).mp hq).1)
      (hlong _ (by decide) h.tmp) (hlong _ (by decide) h.buckets)
    rw [hdel.file] at hq
    split at hq
    · exact absurd rfl hq
    · exact hq
  refine
    { hready with
      valid := fun b' hb' => h.valid b' ((Store.mem_update hB).mp hb')
      bucket := fun b' => ?_
      created := fun b' B' hB' => ?_
      manifest := fun b' k' => ?_
      data := fun b' k' => ?_
      tight := fun b' k' hd => ?_
      format := ?_ }
  · rw [Store.mem_update hB, hdel.dir, h.bucket, and_iff_left_iff_imp]
    intro _ hc
    have := (hdel.above.trans hc.2.1).length_le
    simp [Place.path, objectsDir, bucketDir, bucketsDir] at this
  · rw [hdel.file, if_neg (by simp)]
    obtain ⟨B₀, hB₀, hms⟩ := Store.lookup_update hB hB'
    rw [hms, h.created b' B₀ hB₀]
  · rw [hdel.file, Store.object_delete hB]
    by_cases hbk : b' = b ∧ k' = k
    · rw [if_pos (by simp [hbk.1, hbk.2]), if_pos hbk, Option.map_none]
    · rw [if_neg (by simpa using hbk), if_neg hbk, h.manifest]
  · rw [hdel.file, Store.object_delete hB]
    by_cases hbk : b' = b ∧ k' = k
    · rw [if_pos (by simp [hbk.1, hbk.2]), if_pos hbk, Option.map_none]
    · rw [if_neg (by simpa using hbk), if_neg hbk, h.data]
  · refine (hdel.leads h hready.shaped hd).imp_right ?_
    rintro ⟨k₁, hne, hk₁, hs⟩
    refine ⟨k₁, ?_, hs⟩
    rwa [Store.object_delete hB, if_neg hne]
  · rw [hdel.file, if_neg (by simp), h.format]

/-- The tree after a bucket without objects was removed. -/
theorem Rep.drop (h : Rep C fits X S t) (hB : S.lookup b = some B) (he : B.objects = ∅)
    (hfind : ∀ q, t'.find q = if (Place.bucket b).path <:+ q then none else t.find q) :
    Rep C fits X (S.erase b) t' := by
  have hview : ∀ q, t'.fileAt q = if (Place.bucket b).path <:+ q then none else t.fileAt q := by
    intro q
    rw [FileTree.fileAt, FileTree.fileAt, hfind]
    by_cases hq : (Place.bucket b).path <:+ q
    · rw [if_pos hq, if_pos hq]
    · rw [if_neg hq, if_neg hq]
  have hfile : ∀ pl : Place,
      t'.fileAt pl.path = if pl.bucketOf = some b then none else t.fileAt pl.path := by
    intro pl
    simp only [hview, Place.bucket_suffix]
  have hdir : ∀ pl : Place, t'.IsDir pl.path ↔ t.IsDir pl.path ∧ pl.bucketOf ≠ some b := by
    intro pl
    rw [FileTree.IsDir, hfind, Ne, ← Place.bucket_suffix]
    split
    · simp [*]
    · simp [FileTree.IsDir, *]
  have hready : Ready fits t' := by
    refine h.toReady.of_view (fun q hq => .inl ?_) (fun q hq => .inl ?_)
      ((hdir .tmp).mpr ⟨h.tmp, by simp [Place.bucketOf]⟩)
      ((hdir .buckets).mpr ⟨h.buckets, by simp [Place.bucketOf]⟩)
    · rw [hview] at hq
      split at hq
      · exact absurd rfl hq
      · exact hq
    · rw [FileTree.IsDir, hfind] at hq
      split at hq
      · simp at hq
      · exact hq
  refine
    { hready with
      valid := fun b' hb' => h.valid b' (Finmap.mem_erase.mp hb').2
      bucket := fun b' => ?_
      created := fun b' B' hB' => ?_
      manifest := fun b' k' => ?_
      data := fun b' k' => ?_
      tight := fun b' k' hd => ?_
      format := ?_ }
  · rw [hdir, h.bucket, Finmap.mem_erase, Place.bucketOf, Ne, Option.some_inj, and_comm]
  · have hbb : b' ≠ b := by
      rintro rfl
      rw [Finmap.lookup_erase] at hB'
      cases hB'
    rw [Finmap.lookup_erase_ne hbb] at hB'
    rw [hfile, if_neg (by simpa [Place.bucketOf] using hbb), h.created b' B' hB']
  · rw [hfile, Store.object_erase hB he, h.manifest]
    split
    · rename_i hbb
      rw [Option.some_inj.mp hbb, Store.object_of_lookup hB, he]
      rfl
    · rfl
  · rw [hfile, Store.object_erase hB he, h.data]
    split
    · rename_i hbb
      rw [Option.some_inj.mp hbb, Store.object_of_lookup hB, he]
      rfl
    · rfl
  · simp only [Store.object_erase hB he]
    exact h.tight b' k' ((hdir _).mp hd).1
  · rw [hfile, if_neg (by simp [Place.bucketOf]), h.format]

/-- Buckets and objects are those of the store after a restart, whatever else changes. -/
theorem Contents.of_open (h : Contents C X S t)
    (hfile : ∀ q, q ≠ formatPath → (∀ n, q ≠ n :: tmpDir) → t'.fileAt q = t.fileAt q)
    (hdir : ∀ q, t'.IsDir q ↔ t.IsDir q ∨ q <:+ tmpDir ∨ q <:+ bucketsDir) : Contents C X S t' := by
  have hfile' : ∀ pl : Place, pl.bucketOf ≠ none → t'.fileAt pl.path = t.fileAt pl.path := by
    intro pl hpl
    refine hfile _ (fun hp => ?_) fun n hp => ?_
    · rw [(Place.path_inj (y := .format)).mp hp] at hpl
      exact hpl rfl
    · rw [Place.path_eq_staged.mp hp] at hpl
      exact hpl rfl
  have hdir' : ∀ pl : Place, pl.bucketOf ≠ none → (t'.IsDir pl.path ↔ t.IsDir pl.path) := by
    intro pl hpl
    obtain ⟨b, hb⟩ := Option.ne_none_iff_exists'.mp hpl
    have hs := (Place.bucket_suffix pl).mpr hb
    rw [hdir, or_iff_left]
    rintro (ht | ht)
    · exact absurd ((Place.bucket_suffix .tmp).mp (hs.trans ht)) (by simp [Place.bucketOf])
    · exact absurd ((Place.bucket_suffix .buckets).mp (hs.trans ht)) (by simp [Place.bucketOf])
  constructor
  · exact h.valid
  · exact fun b => (hdir' _ (by simp [Place.bucketOf])).trans (h.bucket b)
  · exact fun b B hB => (hfile' _ (by simp [Place.bucketOf])).trans (h.created b B hB)
  · exact fun b k => (hfile' _ (by simp [Place.bucketOf])).trans (h.manifest b k)
  · exact fun b k => (hfile' _ (by simp [Place.bucketOf])).trans (h.data b k)
  · exact fun b k hd => h.tight b k ((hdir' _ (by simp [Place.bucketOf])).mp hd)

end Trees

end Aks3.Engine
