import Aks3.Engine.WalkSpec
import Aks3.Engine.Sample

/-!
# The walk on trees the engine did not write

Below `objects/` there may be anything: stray files, links, directories of any name.
Which of the files are symbolic links is told apart from the tree: to the walk a link
is a file, since it only asks whether an entry is a directory.

The keys one expects are those whose own directory is there and holds a manifest file.
The walk returns these exactly when every directory that it comes to and that has an
entry of the manifest's name has only canonical names on its way and a file for that
entry (`sortedKeys_exact_iff`). The decoder accepts more names than the encoder writes:
a directory `%41` is found as the key `A` (`sortedKeys_stray`).
-/

set_option autoImplicit false

namespace Aks3.Engine

open Lib

variable {env : Env OsName} {w : World OsName} {b : String}

/-- A file that is not a symbolic link. -/
def RegularFile (t : FileTree OsName) (links : Set (Path OsName)) (p : Path OsName) : Prop :=
  t.fileAt p ≠ none ∧ p ∉ links

/-- The key's own directory is there and holds a manifest file. -/
def HoldsManifest (t : FileTree OsName) (links : Set (Path OsName)) (b k : String) : Prop :=
  t.IsDir (Place.object b k).path ∧ RegularFile t links (Place.manifest b k).path

/-- The list is the one of the keys that are there, ascending and without duplicates. -/
def ListsKeys (t : FileTree OsName) (links : Set (Path OsName)) (b : String)
    (keys : List String) : Prop :=
  keys.Pairwise (fun x y => utf8 x < utf8 y) ∧ ∀ k, k ∈ keys ↔ HoldsManifest t links b k

/-- The name the encoder writes for some component. -/
def CanonicalName (n : OsName) : Prop := ∃ c, '/' ∉ c.toList ∧ n = utf8 (encodeComponent c)

/-- A name the walk follows: it is a text, not reserved, and decodes. -/
structure FollowedName (n : OsName) : Prop where
  decodes : ∃ name c, fromUtf8 n = some name ∧ decodeComponent name = .ok c
  own : ∀ name, fromUtf8 n = some name → ¬ Reserved name

/-- Directories that hold an entry of the manifest's name, and that the walk comes to, are
such that the engine could have written them. -/
def OnlyWritten (t : FileTree OsName) (links : Set (Path OsName)) (b : String) : Prop :=
  ∀ rel, rel ≠ [] → t.IsDir (rel ++ objectsDir (bucketDir b)) → (∀ n ∈ rel, FollowedName n) →
    t.find (utf8 META_FILE :: (rel ++ objectsDir (bucketDir b))) ≠ none →
      (∀ n ∈ rel, CanonicalName n) ∧
        RegularFile t links (utf8 META_FILE :: (rel ++ objectsDir (bucketDir b)))

theorem descends_iff {n : OsName} : Descends n ↔ FollowedName n := by
  constructor
  · rintro ⟨d, h⟩
    unfold childOf at h
    cases hn : fromUtf8 n with
    | none => simp [hn] at h
    | some name =>
        simp only [hn] at h
        split at h
        · cases h
        · split at h
          · cases h
          · next own =>
            cases hd : decodeComponent name with
            | error e => simp [hd] at h
            | ok c =>
                exact ⟨⟨name, c, hn, hd⟩, fun name' h' => Option.some.inj (hn.symm.trans h') ▸ own⟩
  · rintro ⟨⟨name, c, hn, hd⟩, own⟩
    have hr := own name hn
    have hmeta : name ≠ META_FILE := fun he => hr (he ▸ reserved_metaFile)
    exact ⟨c, by simp [childOf, hn, hmeta, hr, hd]⟩

/-- A path of names that are followed is a key's, as text. -/
theorem exists_key_of_follows {rel : Path OsName}
    (hdot : ∀ n ∈ rel, n ≠ utf8 "." ∧ n ≠ utf8 "..") (h : ∀ n ∈ rel, FollowedName n) :
    ∃ k, relPathToKey rel = .ok k := by
  suffices hall : ∀ names : List OsName, (∀ n ∈ names, n ∈ rel) →
      ∃ parts, names.mapM decodeName = .ok parts by
    obtain ⟨parts, hparts⟩ := hall rel.reverse fun n hn => List.mem_reverse.mp hn
    exact ⟨_, by rw [relPathToKey, hparts]; rfl⟩
  intro names
  induction names with
  | nil => exact fun _ => ⟨[], rfl⟩
  | cons n names ih =>
      intro hn
      obtain ⟨parts, hparts⟩ := ih fun m hm => hn m (List.mem_cons_of_mem _ hm)
      obtain ⟨name, c, hname, hc⟩ := (h n (hn n List.mem_cons_self)).decodes
      have hd := hdot n (hn n List.mem_cons_self)
      have hdecode : decodeName n = .ok c := by
        simp only [decodeName, hd.1, hd.2, or_self, if_false, hname]
        exact hc
      exact ⟨c :: parts, by rw [List.mapM_cons, hdecode, hparts]; rfl⟩

/-- A path of canonical names is the path of the key it stands for. -/
theorem eq_keyToRelPath {rel : Path OsName} {k : String} (hne : rel ≠ [])
    (h : ∀ n ∈ rel, CanonicalName n) (hk : relPathToKey rel = .ok k) : rel = keyToRelPath k := by
  have hcs : ∃ cs : List String, (∀ c ∈ cs, '/' ∉ c.toList) ∧
      rel.reverse = cs.map fun c => utf8 (encodeComponent c) := by
    have h' : ∀ n ∈ rel.reverse, CanonicalName n := fun n hn => h n (List.mem_reverse.mp hn)
    generalize rel.reverse = names at h'
    induction names with
    | nil => exact ⟨[], by simp, rfl⟩
    | cons n names ih =>
        obtain ⟨c, hc, rfl⟩ := h' n List.mem_cons_self
        obtain ⟨cs, hcs, rfl⟩ := ih fun m hm => h' m (List.mem_cons_of_mem _ hm)
        exact ⟨c :: cs, by simpa using ⟨hc, hcs⟩, rfl⟩
  obtain ⟨cs, hcs, hrel⟩ := hcs
  have hne' : cs ≠ [] := by
    rintro rfl
    exact hne (List.reverse_eq_nil_iff.mp hrel)
  obtain ⟨key, hkey⟩ := exists_components hne' hcs
  have hpath : rel = keyToRelPath key := by
    rw [keyToRelPath, hkey, ← hrel, List.reverse_reverse]
  rw [hpath, relPathToKey_keyToRelPath] at hk
  rw [hpath, Except.ok.inj hk]

/-- **What the walk returns on any tree.** Names `.` and `..` are no entries of a directory, and
every name that is there is one the filesystem accepts. -/
theorem sortedKeys_exact_iff (links : Set (Path OsName))
    (hfit : ∀ p, w.tree.find p ≠ none → Fit env.fits p)
    (hdot : ∀ n p, w.tree.find (n :: p) ≠ none → n ≠ utf8 "." ∧ n ≠ utf8 "..")
    (hc : w.tree.Clear (Place.objects b).path) (hf : Fit env.fits (Place.objects b).path) :
    ∃ keys w', (Engine.sortedKeys (Place.objects b).path).run (World.exec env) w = (.ok keys, w') ∧
      (ListsKeys w.tree links b keys ↔ OnlyWritten w.tree links b) := by
  obtain ⟨rels, w', hrun, -, hnd, hrels⟩ := sortedKeys_visits hfit hc hf
  refine ⟨_, w', hrun, ?_⟩
  have hholds : ∀ k, HoldsManifest w.tree links b k → HasManifest w.tree b k := fun k h =>
    FileTree.find_ne_none_of_fileAt h.2.1
  constructor
  · rintro ⟨ascending, hmem⟩ rel hne hdir hfollow hmeta
    have hvisit : Visits w.tree b rel := ⟨hdir, fun n hn => descends_iff.mpr (hfollow n hn)⟩
    have hnames : ∀ n ∈ rel, n ≠ utf8 "." ∧ n ≠ utf8 ".." := by
      intro n hn
      obtain ⟨up, down, rfl⟩ := List.append_of_mem hn
      refine hdot n (down ++ objectsDir (bucketDir b)) ?_
      have hsuf : n :: (down ++ objectsDir (bucketDir b)) <:+
          (up ++ n :: down) ++ objectsDir (bucketDir b) := ⟨up, by simp⟩
      obtain ⟨i, hi⟩ := FileTree.isDir_of_suffix hdir hsuf
      rw [hi]
      exact Option.some_ne_none _
    obtain ⟨k, hk⟩ := exists_key_of_follows hnames hfollow
    have hkey : k ∈ keyAt w.tree b rel := mem_keyAt.mpr ⟨hne, hmeta, hk⟩
    have hin := List.mem_flatMap.mpr ⟨rel, (hrels rel).mpr hvisit, hkey⟩
    have hheld := (hmem k).mp ((List.mem_insertionSort _).mpr hin)
    obtain ⟨hown, hownKey⟩ := (hholds k hheld).visits
    -- The key is in the list once, so its own directory is this one.
    have hnodup : (rels.flatMap (keyAt w.tree b)).Nodup :=
      (List.perm_insertionSort _ _).nodup_iff.mp (nodup_of_ascending ascending)
    have hsame : rel = keyToRelPath k := by
      by_contra hdiff
      have : Std.Symm (Function.onFun List.Disjoint (keyAt w.tree b)) := ⟨fun _ _ h => h.symm⟩
      exact (List.nodup_flatMap.mp hnodup).2.forall ((hrels rel).mpr hvisit)
        ((hrels _).mpr hown) hdiff hkey hownKey
    rw [hsame]
    exact ⟨fun n hn => mem_keyToRelPath hn, hheld.2⟩
  · intro honly
    have hcanonical : Canonical w.tree b := by
      intro rel k hvisit hk
      obtain ⟨hne, hmeta, hkey⟩ := mem_keyAt.mp hk
      exact eq_keyToRelPath hne
        (honly rel hne hvisit.1 (fun n hn => descends_iff.mp (hvisit.2 n hn)) hmeta).1 hkey
    obtain ⟨ascending, hmem⟩ := hcanonical.keys hnd hrels
    refine ⟨ascending, fun k => (hmem k).trans ⟨fun hk => ?_, hholds k⟩⟩
    have hown := hk.visits.1
    exact ⟨hown.1, (honly _ (keyToRelPath_ne_nil k) hown.1
      (fun n hn => descends_iff.mp (hown.2 n hn)) hk).2⟩

/-- The one manifest in the tree of the object `k` is the engine's. -/
theorem onlyWritten_objectWorld (size : Nat) (data : Bytes) :
    OnlyWritten (objectWorld size data).tree ∅ "aaa" := by
  intro rel _ _ _ present
  have mem : utf8 META_FILE :: (rel ++ objectsDir (bucketDir "aaa")) ∈
      samplePlaces.map Place.path :=
    AList.lookup_isSome.mp (Option.isSome_iff_ne_none.mpr present)
  have only : ∀ q ∈ samplePlaces.map Place.path, q.head? = some (utf8 META_FILE) →
      q = (Place.manifest "aaa" "k").path := by decide
  have here : utf8 META_FILE :: (rel ++ objectsDir (bucketDir "aaa")) =
      utf8 META_FILE :: ([utf8 "k"] ++ objectsDir (bucketDir "aaa")) := only _ mem rfl
  obtain rfl := List.append_cancel_right (List.cons.inj here).2
  refine ⟨fun n hn => ?_, nofun, id⟩
  rw [List.mem_singleton.mp hn]
  exact ⟨"k", by decide, rfl⟩

/-- The keys that are listed of that tree are those that are there. -/
theorem sortedKeys_exact_object :
    ∃ keys w', (Engine.sortedKeys (Place.objects "aaa").path).run (World.exec sampleEnv)
        (objectWorld 1 (utf8 "a")) = (.ok keys, w') ∧
      ListsKeys (objectWorld 1 (utf8 "a")).tree ∅ "aaa" keys := by
  have plain : ∀ q ∈ samplePlaces.map Place.path, ∀ m ∈ q, m ≠ utf8 "." ∧ m ≠ utf8 ".." := by
    decide
  have dots : ∀ n p, (objectWorld 1 (utf8 "a")).tree.find (n :: p) ≠ none →
      n ≠ utf8 "." ∧ n ≠ utf8 ".." := by
    intro n p present
    have mem : n :: p ∈ samplePlaces.map Place.path :=
      AList.lookup_isSome.mp (Option.isSome_iff_ne_none.mpr present)
    exact plain _ mem n List.mem_cons_self
  have fit : ∀ p, (objectWorld 1 (utf8 "a")).tree.find p ≠ none → Fit sampleEnv.fits p :=
    fun _ _ _ _ => rfl
  obtain ⟨keys, w', run, exact_⟩ := sortedKeys_exact_iff ∅ fit dots
    ((shaped_objectTree _ _).clear (.objects "aaa") rfl) fun _ _ => rfl
  exact ⟨keys, w', run, exact_.mpr (onlyWritten_objectWorld 1 (utf8 "a"))⟩

/-- The bucket `aaa` with one directory `%41` that holds a manifest. -/
def strayTree : FileTree OsName where
  nodes := ⟨[⟨utf8 META_FILE :: utf8 "%41" :: (Place.objects "aaa").path, .file 5 []⟩,
    ⟨utf8 "%41" :: (Place.objects "aaa").path, .dir 4⟩, ⟨(Place.objects "aaa").path, .dir 3⟩,
    ⟨(Place.bucket "aaa").path, .dir 2⟩, ⟨Place.buckets.path, .dir 1⟩], by
      rw [List.NodupKeys]
      decide⟩
  rootless := rfl
  closed := by
    intro n p h hp
    have mem := AList.lookup_isSome.mp (Option.isSome_iff_ne_none.mpr h)
    rw [AList.mem_keys] at mem
    simp only [AList.keys, List.keys, List.map_cons, List.map_nil, List.mem_cons,
      List.not_mem_nil, or_false] at mem
    rcases mem with mem | mem | mem | mem | mem <;> obtain ⟨-, rfl⟩ := List.cons.inj mem
    · exact ⟨4, rfl⟩
    · exact ⟨3, rfl⟩
    · exact ⟨2, rfl⟩
    · exact ⟨1, rfl⟩
    · exact absurd rfl hp

/-- The walk finds the key `A` there, which has no directory of its own. -/
theorem sortedKeys_stray :
    ((Engine.sortedKeys (Place.objects "aaa").path).run (World.exec sampleEnv)
        { World.empty OsName with fs := { (Fs.empty : Fs OsName) with tree := strayTree } }).1 =
      .ok ["A"] ∧ ¬ ListsKeys strayTree ∅ "aaa" ["A"] := by
  refine ⟨by decide +kernel, fun h => ?_⟩
  have missing : ¬ strayTree.IsDir (Place.object "aaa" "A").path := by decide +kernel
  exact missing ((h.2 "A").mp (List.mem_singleton_self _)).1

end Aks3.Engine
