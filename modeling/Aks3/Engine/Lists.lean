import Aks3.Engine.WalkSpec

/-!
# The methods that list

A listing of a bucket, run alone, is the page of the reference listing of its
live keys (`listObjectsV2_run`), and the listing of the buckets is the sorted
list of the directories below `buckets/` (`listBuckets_run`). Both hold in every
tree of the layout's shape in which every manifest can be read; tombstones and
orphaned data files may lie around.
-/

set_option autoImplicit false

namespace Aks3.Engine

open Lib

/-! ## The live keys of a bucket -/

/-- The live version of a key, if it has one. -/
def liveAt (C : Crates) (t : FileTree OsName) (b k : String) : Option VersionEntry :=
  (entryAt C t b k).toOption

/-- The key of bucket `b` whose manifest is at `p`, if any. -/
def manifestKey (b : String) (p : Path OsName) : Option String :=
  match Place.ofPath p with
  | some (.manifest b' k) => if b' = b ∧ (Place.manifest b' k).path = p then some k else none
  | _ => none

/-- The live keys of a bucket, in byte order. -/
def liveKeys (C : Crates) (t : FileTree OsName) (b : String) : List String :=
  ((t.nodes.keys.filterMap (manifestKey b)).filter fun k => (liveAt C t b k).isSome).dedup
    |>.insertionSort strLe

/-- Every manifest of a bucket can be read. -/
def Legible (C : Crates) (t : FileTree OsName) (b : String) : Prop :=
  ∀ k, ∃ m, manifestAt C t b k = .ok m

variable {env : Env OsName} {C : Crates} {w : World OsName} {b k : String}

theorem manifestKey_eq_some {p : Path OsName} :
    manifestKey b p = some k ↔ p = (Place.manifest b k).path := by
  unfold manifestKey
  constructor
  · intro h
    split at h
    · split at h
      · rename_i heq
        cases h
        rw [← heq.1, heq.2]
      · cases h
    · cases h
  · rintro rfl
    rw [Place.ofPath_path]
    simp

theorem hasManifest_of_live {t : FileTree OsName} {e : VersionEntry}
    (h : liveAt C t b k = some e) : HasManifest t b k := by
  intro hnone
  have hfile : t.fileAt (Place.manifest b k).path = none := (FileTree.find_eq_none.mp hnone).1
  simp [liveAt, entryAt, manifestAt, hfile, liveOf, Except.toOption] at h

theorem mem_liveKeys {t : FileTree OsName} : k ∈ liveKeys C t b ↔ (liveAt C t b k).isSome := by
  simp only [liveKeys, List.mem_insertionSort, List.mem_dedup, List.mem_filter, List.mem_filterMap,
    manifestKey_eq_some, exists_eq_right, and_iff_right_iff_imp]
  intro h
  obtain ⟨e, he⟩ := Option.isSome_iff_exists.mp h
  have hm := hasManifest_of_live he
  have hb : (Place.manifest b k).path ∈ t.below [] :=
    FileTree.mem_below.mpr ⟨Place.path_ne_nil _, hm, List.nil_suffix, Place.path_ne_nil _⟩
  exact List.mem_toFinset.mp (Finset.mem_filter.mp hb).1

theorem liveKeys_ascending (C : Crates) (t : FileTree OsName) (b : String) :
    (liveKeys C t b).Pairwise fun x y => utf8 x < utf8 y := by
  refine ascending_insertionSort id ?_
  rw [List.map_id]
  exact List.nodup_dedup _

theorem liveAt_of_manifest {t : FileTree OsName} {m : Option VersionManifest}
    (h : manifestAt C t b k = .ok m) : liveAt C t b k = liveOf m := by
  rw [liveAt, entryAt, h]
  cases hl : liveOf m <;> simp [hl, Except.toOption]

/-! ## Listing a bucket -/

theorem withLock_run {α : Type} (l : LockName) (m : Mode) (body : EngineProg α) :
    (withLock l m body).run (engineExec env) w = body.run (engineExec env) w := by
  rw [withLock]
  change (body >>= fun r => do
    prim (.lock l (.drop m))
    prim (.lock l .prune)
    pure r).run (engineExec env) w = _
  rw [Prog.run_bind]
  rfl

theorem locked_run {α : Type} {x : EngineM α} {r : Except EngineError α} {w' : World OsName}
    (l : LockName) (m : Mode) (h : x.run.run (engineExec env) w = (r, w')) :
    (ExceptT.mk (withLock l m x.run)).run.run (engineExec env) w = (r, w') :=
  (withLock_run l m x.run).trans h

/-- The loop of a listing, its manifest reads answered from the tree. -/
theorem listLoop_run (hs : Shaped env.fits w.tree) (hr : Legible C w.tree b) (maxKeys : Nat)
    (pfx : String) (delimiter start : Option String) : ∀ (keys : List String) (out : ListResult),
    (∀ k ∈ keys, HasManifest w.tree b k) →
    (listLoop C (bucketDir b) maxKeys pfx delimiter start keys out).run.run (engineExec env) w =
      (.ok (pageFold (liveAt C w.tree b) pfx delimiter start maxKeys keys out), w)
  | [], out, _ => rfl
  | key :: keys, out, hk => by
      have ih := fun out => listLoop_run hs hr maxKeys pfx delimiter start keys out
        fun k h => hk k (List.mem_cons_of_mem key h)
      obtain ⟨m, hm⟩ := hr key
      have hlist := listableVersion_run hs (hs.fit _ (hk key List.mem_cons_self)) hm
      rw [listLoop, pageFold, emit, liveAt_of_manifest hm]
      by_cases hp : utf8 pfx <+: utf8 key
      swap
      · rw [if_pos hp, if_pos hp]
        exact ih out
      rw [if_neg (not_not.mpr hp), if_neg (not_not.mpr hp)]
      have hcut : commonPrefixOf key (utf8 pfx).length = fun d => shortestCut pfx d key :=
        funext fun d => commonPrefixOf_eq hp d
      rw [hcut]
      delta itemOf foldOf
      generalize (delimiter.bind fun d => shortestCut pfx d key) = folded
      by_cases hst : (start.any fun s => strLe (folded.getD key) s) = true
      · rw [if_pos hst, if_pos hst]
        exact ih out
      rw [if_neg hst, if_neg hst]
      by_cases hl : folded.isSome ∧ out.commonPrefixes.getLast? = folded
      · rw [if_pos hl, if_pos hl]
        exact ih out
      rw [if_neg hl, if_neg hl, Prog.run_bind_ok hlist]
      cases liveOf m with
      | none => exact ih out
      | some e =>
          simp only [Option.map_some]
          delta ListResult.size
          by_cases hfull : out.objects.length + out.commonPrefixes.length = maxKeys
          · rw [if_pos hfull, if_pos hfull]
            rfl
          · rw [if_neg hfull, if_neg hfull, ListResult.push]
            cases folded with
            | none => exact ih _
            | some common => exact ih _

/-- The page `list_objects_v2` answers with. -/
theorem listLocked_run (hs : Shaped env.fits w.tree) (hr : Legible C w.tree b)
    (hv : isValidBucketName b = true) (hd : w.tree.IsDir (bucketDir b))
    (hf : Fit env.fits (Place.objects b).path) {info : String → ObjectInfo}
    (hinfo : ∀ k e, liveAt C w.tree b k = some e → info k = objectInfo k e) (p : ListParams) :
    ∃ w', (listLocked C b p).run.run (engineExec env) w =
      (.ok (page (liveKeys C w.tree b) info p), w') ∧ w.Ticked w' := by
  obtain ⟨w₁, hrun₁, ht₁⟩ := existingBucketDir_run hs hv hf.tail
  rw [if_pos hd] at hrun₁
  have htree₁ : w₁.tree = w.tree := by rw [World.tree, ht₁.fs]
  by_cases hmax : p.maxKeys = 0
  · refine ⟨w₁, ?_, ht₁⟩
    rw [listLocked, Prog.run_bind_ok hrun₁, if_pos hmax, page, if_pos hmax]
    rfl
  obtain ⟨keys, w₂, hrun₂, ht₂, hasc, hmem⟩ := sortedKeys_run (b := b) (w := w₁) (htree₁ ▸ hs) hf
  rw [htree₁] at hmem
  have ht := ht₁.trans ht₂
  have htree₂ : w₂.tree = w.tree := by rw [World.tree, ht.fs]
  refine ⟨w₂, ?_, ht⟩
  have hwalk : (liftIo (ExceptT.mk (await (.sortedKeys (objectsDir (bucketDir b)))))).run.run
      (engineExec env) w₁ = (.ok keys, w₂) :=
    liftIo_run (x := ExceptT.mk (await (.sortedKeys (objectsDir (bucketDir b))))) hrun₂
  have hloop := listLoop_run (w := w₂) (htree₂ ▸ hs) (htree₂ ▸ hr) p.maxKeys (p.pfx.getD "")
    (delimiterOf p) (startBound p) keys .default
    (fun k hk => by rw [htree₂]; exact (hmem k).mp hk)
  rw [htree₂] at hloop
  have hpage := pageFold_eq_page (p := p) hasc hinfo hmax
  -- the walk finds tombstones too, and the loop passes over them
  have hlive : (keys.filter fun k => (liveAt C w.tree b k).isSome) = liveKeys C w.tree b := by
    refine eq_of_ascending (hasc.filter _) (liveKeys_ascending C w.tree b) fun k => ?_
    rw [List.mem_filter, mem_liveKeys, hmem, and_iff_right_iff_imp]
    intro h
    obtain ⟨e, he⟩ := Option.isSome_iff_exists.mp h
    exact hasManifest_of_live he
  rw [hlive] at hpage
  rw [delimiterOf] at hloop hpage
  rw [listLocked, Prog.run_bind_ok hrun₁, if_neg hmax, Prog.run_bind_ok hwalk,
    Prog.run_bind_ok hloop, ← hpage]
  simp only
  split <;> rfl

theorem listObjectsV2_run (hs : Shaped env.fits w.tree) (hr : Legible C w.tree b)
    (hf : isValidBucketName b = true → Fit env.fits (Place.objects b).path)
    (info : String → ObjectInfo)
    (hinfo : ∀ k e, liveAt C w.tree b k = some e → info k = objectInfo k e) (p : ListParams) :
    ∃ w', runAlone env (serve C (.listObjectsV2 b p)) w =
      (inBucket w.tree b (.ok (.page (page (liveKeys C w.tree b) info p))), w') ∧ w.Ticked w' := by
  rw [runAlone, serve, inBucket]
  by_cases hv : isValidBucketName b = true
  swap
  · have hcheck : (checkedBucketDir b).run.run (engineExec env) w = _ :=
      checkedBucketDir_invalid (Bool.eq_false_iff.mpr hv)
    refine ⟨w, ?_, .refl w⟩
    rw [if_neg hv, listObjectsV2, bind_assoc, Prog.run_bind_error hcheck]
  have hf := hf hv
  rw [if_pos hv, listObjectsV2, bind_assoc]
  by_cases hd : w.tree.IsDir (bucketDir b)
  · obtain ⟨w', hrun, ht⟩ := listLocked_run hs hr hv hd hf hinfo p
    refine ⟨w', ?_, ht⟩
    rw [if_pos hd, Prog.run_bind_ok (checkedBucketDir_run hv),
      Prog.run_bind_ok (locked_run (.bucket b) .shared hrun)]
    rfl
  · obtain ⟨w', hrun, ht⟩ := existingBucketDir_run hs hv hf.tail
    rw [if_neg hd] at hrun
    refine ⟨w', ?_, ht⟩
    have hlist : (listLocked C b p).run.run (engineExec env) w = (.error .noSuchBucket, w') :=
      Prog.run_bind_error hrun
    rw [if_neg hd, Prog.run_bind_ok (checkedBucketDir_run hv),
      Prog.run_bind_error (locked_run (.bucket b) .shared hlist)]

/-! ## Listing the buckets -/

/-- When a bucket was created, as its own file says. -/
def createdAt (C : Crates) (t : FileTree OsName) (b : String) : Option Nat :=
  (t.fileAt (Place.bucketMeta b).path).bind fun bytes =>
    (C.bucketMetaJson.fromSlice bytes).toOption.map BucketMeta.createdEpochMs

theorem bucketCreatedMs_run (hs : Shaped env.fits w.tree) {ms : Nat}
    (hc : createdAt C w.tree b = some ms) :
    (bucketCreatedMs C (bucketDir b)).run (engineExec env) w = (ms, w) := by
  obtain ⟨bytes, hfile, hms⟩ := Option.bind_eq_some_iff.mp hc
  obtain ⟨m, hm, rfl⟩ := Option.map_eq_some_iff.mp hms
  obtain ⟨i, hi⟩ := FileTree.fileAt_eq_some.mp hfile
  have hfit := hs.fit _ (by rw [hi]; exact Option.some_ne_none _)
  have hread : (await (.read (bucketMetaPath (bucketDir b)))).run (engineExec env) w =
      (.ok bytes, w) := by
    have hread : w.fs.readFile env.fits _ = _ := Fs.readFile_ok hfit hfile
    refine (read_run _).trans ?_
    rw [Place.path] at hread
    rw [hread]
    rfl
  have hparse : C.bucketMetaJson.fromSlice bytes = .ok m := by
    cases hp : C.bucketMetaJson.fromSlice bytes with
    | error e => simp [hp, Except.toOption] at hm
    | ok m' => simp_all [Except.toOption]
  rw [bucketCreatedMs, Prog.run_bind, hread]
  simp only [hparse]
  rfl

theorem bucketInfos_run (hs : Shaped env.fits w.tree) {created : String → Nat} :
    ∀ names : List String, (∀ b ∈ names, createdAt C w.tree b = some (created b)) →
      (bucketInfos C names).run (engineExec env) w = (names.map fun b => ⟨b, created b⟩, w)
  | [], _ => rfl
  | name :: names, h => by
      have ih := bucketInfos_run hs names fun b hb => h b (List.mem_cons_of_mem name hb)
      rw [bucketInfos, Prog.run_bind, bucketCreatedMs_run hs (h name List.mem_cons_self)]
      simp only [Prog.run_bind, ih]
      rfl

theorem bucketEntry_eq_some {n : OsName} {kd : Kind} {b : String} :
    bucketEntry (n, kd) = some b ↔ n = utf8 b ∧ kd = .dir ∧ isValidBucketName b = true := by
  unfold bucketEntry
  cases hn : fromUtf8 n with
  | none =>
      simp only [reduceCtorEq, false_iff, not_and]
      rintro rfl
      simp at hn
  | some name =>
      rw [fromUtf8_eq_some] at hn
      subst hn
      simp only [utf8_inj]
      by_cases hv : isValidBucketName name = true
      · by_cases hk : kd = .dir
        · simp only [hv, hk, Bool.not_true, Bool.false_eq_true, if_false,
            if_true, Option.some.injEq,
            true_and]
          exact ⟨fun h => ⟨h, h ▸ hv⟩, fun h => h.1⟩
        · simp [hv, hk]
      · simp only [hv, Bool.not_false, if_true, reduceCtorEq, false_iff, not_and]
        rintro rfl _
        exact hv

/-- **The buckets are listed by name, each with the time it was created.** -/
theorem listBuckets_run (hs : Shaped env.fits w.tree) (hd : w.tree.IsDir bucketsDir)
    (created : String → Nat)
    (hc : ∀ b, w.tree.IsDir (bucketDir b) → createdAt C w.tree b = some (created b)) :
    ∃ l w', runAlone env (serve C .listBuckets) w = (.ok (.buckets l), w') ∧ w.Ticked w' ∧
      l.Pairwise (fun x y => utf8 x.name < utf8 y.name) ∧
      ∀ x, x ∈ l ↔ isValidBucketName x.name = true ∧ w.tree.IsDir (bucketDir x.name) ∧
        x.createdEpochMs = created x.name := by
  obtain ⟨i, hi⟩ := hd
  have hperm := env.order_perm w.tick (w.tree.children bucketsDir)
  generalize hent : env.order w.tick (w.tree.children bucketsDir) = entries at hperm
  have hmem : ∀ b, b ∈ entries.filterMap bucketEntry ↔
      isValidBucketName b = true ∧ w.tree.IsDir (bucketDir b) := by
    intro b
    simp only [List.mem_filterMap, Prod.exists, bucketEntry_eq_some]
    constructor
    · rintro ⟨n, kd, he, rfl, rfl, hv⟩
      obtain ⟨x, hx, hk⟩ := FileTree.mem_children.mp (hperm.mem_iff.mp he)
      obtain ⟨j, rfl⟩ := Node.kind_eq_dir.mp hk
      exact ⟨hv, j, hx⟩
    · rintro ⟨hv, j, hj⟩
      exact ⟨_, .dir, hperm.mem_iff.mpr (FileTree.mem_children.mpr ⟨_, hj, rfl⟩), rfl, rfl, hv⟩
  have hnodup : (entries.filterMap bucketEntry).Nodup := by
    have hnames := (hperm.map Prod.fst).nodup_iff.mpr (FileTree.nodup_children w.tree bucketsDir)
    refine List.Nodup.of_map utf8 (List.Nodup.sublist ?_ hnames)
    clear hmem hperm hent hnames
    induction entries with
    | nil => exact List.Sublist.slnil
    | cons e entries ih =>
        obtain ⟨n, kd⟩ := e
        rw [List.filterMap_cons]
        cases hb : bucketEntry (n, kd) with
        | none => exact ih.cons _
        | some b =>
            rw [List.map_cons, List.map_cons, (bucketEntry_eq_some.mp hb).1]
            exact ih.cons_cons _
  have hread : (liftIo (TokioFs.readDir bucketsDir)).run.run (engineExec env) w =
      (.ok entries, { w with tick := w.tick + 1 }) := by
    refine liftIo_run (r := .ok entries) ?_
    have hfit := hs.fit _ (by rw [hi]; exact Option.some_ne_none _)
    have hok : w.fs.readDir env.fits _ = _ := Fs.readDir_ok hfit ⟨i, hi⟩
    refine (StdFs.readDir_run (L := LockName) bucketsDir w).trans ?_
    rw [hok, ← hent]
    rfl
  have hinfos := bucketInfos_run (C := C) (w := { w with tick := w.tick + 1 }) hs
    (entries.filterMap bucketEntry) fun b hb => hc b ((hmem b).mp hb).2
  refine ⟨((entries.filterMap bucketEntry).map fun b => ⟨b, created b⟩).insertionSort
    fun a b => strLe a.name b.name, { w with tick := w.tick + 1 }, ?_, ⟨rfl, rfl⟩, ?_, ?_⟩
  · rw [runAlone, serve, listBuckets, bind_assoc, Prog.run_bind_ok hread, bind_assoc,
      Prog.run_bind_lift hinfos]
    rfl
  · refine ascending_insertionSort BucketInfo.name ?_
    rw [List.map_map]
    exact (List.map_id _).symm ▸ hnodup
  · intro x
    rw [List.mem_insertionSort, List.mem_map]
    constructor
    · rintro ⟨b, hb, rfl⟩
      exact ⟨((hmem b).mp hb).1, ((hmem b).mp hb).2, rfl⟩
    · rintro ⟨hv, hdir, hms⟩
      exact ⟨x.name, (hmem _).mpr ⟨hv, hdir⟩, by rw [← hms]⟩

end Aks3.Engine
