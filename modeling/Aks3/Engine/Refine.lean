import Aks3.Engine.Rep
import Aks3.Engine.Sample

/-!
# The engine, run alone, is the store

Every request on a tree that holds a store is answered as the store answers it,
and leaves a tree that holds the store after it (`serve_refines`). So does a whole
sequence of requests from an empty data directory, restarts included
(`serveAll_refines`).
-/

set_option autoImplicit false

namespace Aks3.Engine

open Lib

/-! ## Every request answers as the store does -/

theorem resolveRange_le {range : Option ByteRange} {size offset len : Nat}
    (h : resolveRange range size = .ok (offset, len)) : offset + len ≤ size := by
  unfold resolveRange at h
  split at h
  · cases h
    exact (Nat.zero_add size).le
  · split at h
    · cases h
    · split at h <;> split at h <;> cases h <;> omega

section Answers

variable {env : Env OsName} {C : Crates} {X : Set (Path OsName)} {S : Store}
  {w w' : World OsName} {t : FileTree OsName} {b k : String}

theorem Contents.readObject_eq (h : Contents C X S t) (b k : String) (range : Option ByteRange) :
    readObject env C t b k range = Store.get C k range (S.object b k) := by
  rw [readObject, h.entryAt_eq, h.data]
  cases S.object b k with
  | none => rfl
  | some o =>
      simp only [Store.get, Object.entry, bodyEntry]
      cases hr : resolveRange range o.bytes.length with
      | error e => rfl
      | ok ol =>
          obtain ⟨offset, len⟩ := ol
          have hle := resolveRange_le hr
          have hreach := env.reaches_of_le ((Nat.le_add_right offset len).trans hle)
          simp only [Option.map_some, hreach, if_true, sliceOf, if_pos (Or.inr hle)]
          rfl

theorem Contents.headOf_eq (h : Contents C X S t) (b k : String) :
    headOf C t b k = Store.head C k (S.object b k) := by
  rw [headOf, h.entryAt_eq]
  cases S.object b k <;> rfl

/-- A request that reads one bucket, in the tree and in the store. -/
theorem Contents.inBucket_eq (h : Contents C X S t) {r : Resp} {f : Bucket → Resp × Store}
    (hr : ∀ B, S.lookup b = some B → f B = (r, S)) : S.inBucket b f = (inBucket t b r, S) := by
  rw [Store.inBucket, inBucket]
  by_cases hv : isValidBucketName b = true
  swap
  · rw [if_neg hv, if_neg hv]
  rw [if_pos hv, if_pos hv]
  cases hB : S.lookup b with
  | none =>
      have hd : ¬ t.IsDir (bucketDir b) := (h.bucket b).not.mpr (Finmap.lookup_eq_none.mp hB)
      rw [if_neg hd]
  | some B =>
      have hd : t.IsDir (bucketDir b) := (h.bucket b).mpr (Finmap.mem_of_lookup_eq_some hB)
      rw [if_pos hd]
      exact hr B hB

/-- A request is answered as the store answers it and keeps the tree a store's. On
disk only the staging directory is left unsettled. -/
def Answered (env : Env OsName) (C : Crates) (X : Set (Path OsName)) (S : Store)
    (w : World OsName) (r : Req) : Prop :=
  ∃ w', runAlone env (serve C r) w = ((S.apply C w.clock r).1, w') ∧
    Rep C env.fits X (S.apply C w.clock r).2 w'.tree ∧ w.Keeps w' {tmpDir} ∅

theorem Rep.ticked (h : Rep C env.fits X S w.tree) (ht : w.Ticked w') :
    Rep C env.fits X S w'.tree := by
  rw [World.tree, ht.fs]
  exact h

theorem answered_read (h : Rep C env.fits X S w.tree) {r : Req} {resp : Resp}
    (hrun : runAlone env (serve C r) w = (resp, w')) (ht : w.Ticked w')
    (ha : S.apply C w.clock r = (resp, S)) : Answered env C X S w r := by
  refine ⟨w', ?_, ?_, ht.keeps.mono (Set.empty_subset _) le_rfl⟩
  · rw [hrun, ha]
  · rw [ha]
    exact h.ticked ht

theorem answered_listBuckets (h : Rep C env.fits X S w.tree) :
    Answered env C X S w .listBuckets := by
  obtain ⟨l, w', hrun, ht, hsort, hmem⟩ := listBuckets_run (C := C) h.shaped h.buckets
    (fun b => ((S.lookup b).getD ⟨0, ∅⟩).createdEpochMs) fun b hd => by
      obtain ⟨B, hB⟩ := Finmap.mem_iff.mp ((h.bucket b).mp hd)
      rw [hB, h.createdAt_eq hB, Option.getD_some]
  refine answered_read h hrun ht ?_
  have hnames : l.map BucketInfo.name = ascending S.keys := by
    refine eq_of_ascending (List.pairwise_map.mpr hsort) (pairwise_ascending _) fun b => ?_
    rw [mem_ascending, Finmap.mem_keys, List.mem_map]
    constructor
    · rintro ⟨x, hx, rfl⟩
      exact (h.bucket _).mp ((hmem x).mp hx).2.1
    · intro hb
      exact ⟨⟨b, ((S.lookup b).getD ⟨0, ∅⟩).createdEpochMs⟩,
        (hmem _).mpr ⟨h.valid b hb, (h.bucket b).mpr hb, rfl⟩, rfl⟩
  have hl : l = S.buckets := by
    rw [Store.buckets, ← hnames, List.map_map]
    refine l.map_id.symm.trans (List.map_congr_left fun x hx => ?_)
    obtain ⟨name, ms⟩ := x
    obtain ⟨-, -, hms⟩ := (hmem _).mp hx
    simp only [Function.comp_apply, id, ← hms]
  rw [Store.apply, hl]

section

variable (hown : OwnNames env)

include hown

theorem answered_createBucket (h : Rep C env.fits X S w.tree) (b : String) :
    Answered env C X S w (.createBucket b) := by
  by_cases hv : isValidBucketName b = true
  swap
  · have hrun : runAlone env (serve C (.createBucket b)) w = (.error .invalidBucketName, w) := by
      rw [runAlone, serve]
      exact Prog.run_bind_error
        (Prog.run_bind_error (checkedBucketDir_invalid (Bool.eq_false_of_not_eq_true hv)))
    exact answered_read h hrun (.refl w) (by rw [Store.apply, if_neg hv])
  by_cases hb : b ∈ S
  · exact answered_read h (createBucket_exists hown hv ((h.bucket b).mpr hb)) (.refl w)
      (by rw [Store.apply, if_pos hv, if_pos hb])
  · obtain ⟨w', hrun, hfile, hdir, hk⟩ :=
      createBucket_run (C := C) hown h.toReady hv ((h.bucket b).not.mpr hb)
    have ha : S.apply C w.clock (.createBucket b) = (.ok .unit, S.insert b ⟨w.clock, ∅⟩) := by
      rw [Store.apply, if_pos hv, if_neg hb]
    refine ⟨w', by rw [hrun, ha], ?_, hk⟩
    rw [ha]
    exact h.create (hown.bucketMeta_fit hv) hv hb hfile hdir

theorem answered_deleteBucket (h : Rep C env.fits X S w.tree) (b : String)
    (hX : ∀ q ∈ X, ¬ (Place.objects b).path <:+ q) :
    Answered env C X S w (.deleteBucket b) := by
  by_cases hv : isValidBucketName b = true
  swap
  · have hrun : runAlone env (serve C (.deleteBucket b)) w = (.error .invalidBucketName, w) := by
      rw [runAlone, serve]
      exact Prog.run_bind_error
        (Prog.run_bind_error (checkedBucketDir_invalid (Bool.eq_false_of_not_eq_true hv)))
    exact answered_read h hrun (.refl w) (by rw [Store.apply, Store.inBucket, if_neg hv])
  cases hB : S.lookup b with
  | none =>
      have hd : ¬ w.tree.IsDir (bucketDir b) :=
        (h.bucket b).not.mpr (Finmap.lookup_eq_none.mp hB)
      obtain ⟨w', hrun, ht⟩ := deleteBucket_missing (C := C) hown h.shaped hv hd
      exact answered_read h hrun ht (by rw [Store.apply, Store.inBucket, if_pos hv, hB])
  | some B =>
      have hd : w.tree.IsDir (bucketDir b) := (h.bucket b).mpr (Finmap.mem_of_lookup_eq_some hB)
      have ha : S.apply C w.clock (.deleteBucket b) =
          if B.objects = ∅ then (.ok .unit, S.erase b) else (.error .bucketNotEmpty, S) := by
        rw [Store.apply, Store.inBucket, if_pos hv, hB]
      have ho := h.occupied_iff h.shaped hB hX
      by_cases he : B.objects = ∅
      · rw [if_pos he] at ha
        obtain ⟨w', hrun, hfind, hk⟩ :=
          deleteBucket_run (C := C) hown h.shaped hv hd (fun hocc => ho.mp hocc he)
        exact ⟨w', by rw [hrun, ha], by rw [ha]; exact h.drop hB he hfind,
          hk.mono (Set.empty_subset _) le_rfl⟩
      · rw [if_neg he] at ha
        obtain ⟨w', hrun, ht⟩ := deleteBucket_occupied (C := C) hown h.shaped hv hd (ho.mpr he)
        exact answered_read h hrun ht ha

/-- A request that needs its bucket, when it has none. -/
theorem answered_refused {α : Type} (h : Rep C env.fits X S w.tree) {r : Req}
    {f : Bucket → Resp × Store} {g : Path OsName → EngineM α} {out : α → Answer}
    (hr : serve C r = (do pure (out (← existingBucketDir b >>= g)) : EngineM Answer).run)
    (ha : S.apply C w.clock r = S.inBucket b f)
    (hno : ¬ (isValidBucketName b = true ∧ b ∈ S)) : Answered env C X S w r := by
  obtain ⟨w', hrun, ht⟩ := noBucket_run hown h.shaped hr
    fun hc => hno ⟨hc.1, (h.bucket b).mp hc.2⟩
  refine answered_read h hrun ht ?_
  rw [ha, Store.inBucket]
  by_cases hv : isValidBucketName b = true
  · rw [if_pos hv, if_pos hv, Finmap.lookup_eq_none.mpr fun hb => hno ⟨hv, hb⟩]
  · rw [if_neg hv, if_neg hv]

theorem answered_putObject (h : Rep C env.fits X S w.tree) (b : String)
    (hk : Fit env.fits (keyToRelPath k)) (body : ByteStream) (opts : PutOpts) :
    Answered env C X S w (.putObject b k body opts) := by
  by_cases hb : isValidBucketName b = true ∧ b ∈ S
  swap
  · exact answered_refused hown h rfl rfl hb
  obtain ⟨B, hB⟩ := Finmap.mem_iff.mp hb.2
  have hd : w.tree.IsDir (bucketDir b) := (h.bucket b).mpr hb.2
  cases hc : collect body with
  | error e =>
      have ha : S.apply C w.clock (.putObject b k body opts) = (.error (.ofIo e), S) := by
        simp only [Store.apply, Store.inBucket, if_pos hb.1, hB, hc]
      obtain ⟨w', hrun, hfile, hdir, hk⟩ := putObject_broken (k := k) hown h.toReady hb.1 hd hc opts
      refine ⟨w', by rw [hrun, ha], ?_, hk⟩
      rw [ha]
      exact h.of_same hfile hdir
  | ok bytes =>
      have ha : S.apply C w.clock (.putObject b k body opts) =
          (.ok (.info (Object.info C k ⟨bytes, opts, w.clock⟩)),
            S.insert b { B with objects := B.objects.insert k ⟨bytes, opts, w.clock⟩ }) := by
        simp only [Store.apply, Store.inBucket, if_pos hb.1, hB, hc]
      obtain ⟨w', hrun, hfile, hdir, hkeeps⟩ :=
        putObject_run hown (hown.storable hb.1 hk) h.toReady hb.1 hd (h.manifestAt_eq b k) hc opts
      refine ⟨w', by rw [hrun, ha]; rfl, ?_, hkeeps⟩
      rw [ha]
      refine h.put (hown.storable hb.1 hk) hB ⟨bytes, opts, w.clock⟩ (fun q => ?_) hdir
      rw [hfile]
      -- An overwrite replaces the only version there is.
      have hm : (((S.object b k).map (Object.manifest C)).getD newManifest).upsert
          (bodyEntry C opts bytes w.clock) = Object.manifest C ⟨bytes, opts, w.clock⟩ := by
        cases S.object b k <;> rfl
      rw [hm]

theorem answered_deleteObject (h : Rep C env.fits X S w.tree) (b : String)
    (hk : Fit env.fits (keyToRelPath k)) :
    Answered env C X S w (.deleteObject b k) := by
  by_cases hb : isValidBucketName b = true ∧ b ∈ S
  swap
  · exact answered_refused hown h rfl rfl hb
  obtain ⟨B, hB⟩ := Finmap.mem_iff.mp hb.2
  have ha : S.apply C w.clock (.deleteObject b k) =
      (.ok .unit, S.insert b { B with objects := B.objects.erase k }) := by
    simp only [Store.apply, Store.inBucket, if_pos hb.1, hB]
  obtain ⟨w', rest, hrun, hdel⟩ :=
    deleteObject_run (C := C) (hown.storable hb.1 hk) h.shaped hb.1 ((h.bucket b).mpr hb.2)
  exact ⟨w', by rw [hrun, ha], by rw [ha]; exact h.delete hB hdel,
    hdel.keeps.mono (Set.empty_subset _) le_rfl⟩

/-- **Every request but a restart**, if its key can be stored and, when it removes a
bucket, no upload has left anything there. -/
theorem serve_answered (h : Rep C env.fits X S w.tree) {r : Req} (hr : r ≠ .openEngine)
    (hk : ∀ k, r.key = some k → Fit env.fits (keyToRelPath k))
    (hX : ∀ b, r = .deleteBucket b → ∀ q ∈ X, ¬ (Place.objects b).path <:+ q) :
    Answered env C X S w r := by
  cases r with
  | openEngine => exact absurd rfl hr
  | createBucket b => exact answered_createBucket hown h b
  | deleteBucket b => exact answered_deleteBucket hown h b (hX b rfl)
  | bucketExists b =>
      obtain ⟨w', hrun, ht⟩ := bucketExists_run (C := C) h.shaped (b := b) hown.bucket_fit
      refine answered_read h hrun ht ?_
      rw [Store.apply]
      split
      · exact congrArg (fun x => (Except.ok (Answer.found x), S))
          (decide_eq_decide.mpr (h.bucket b)).symm
      · rfl
  | listBuckets => exact answered_listBuckets h
  | putObject b k body opts => exact answered_putObject hown h b (hk k rfl) body opts
  | getObject b k range =>
      have hver : ∀ e, entryAt C w.tree b k = .ok e → e.versionId = NULL_VERSION_ID := by
        intro e he
        rw [h.entryAt_eq] at he
        cases ho : S.object b k with
        | none => simp [ho] at he
        | some o =>
            rw [ho] at he
            cases he
            rfl
      obtain ⟨w', hrun, ht⟩ := getObject_run (b := b) (k := k) h.shaped
        (fun hv => hown.storable hv (hk k rfl)) hver range
      refine answered_read h hrun ht ?_
      rw [h.readObject_eq]
      exact h.inBucket_eq fun B hB => by rw [Store.object_of_lookup hB]
  | headObject b k =>
      obtain ⟨w', hrun, ht⟩ := headObject_run (C := C) (b := b) (k := k) h.shaped
        fun hv => hown.storable hv (hk k rfl)
      refine answered_read h hrun ht ?_
      rw [h.headOf_eq]
      exact h.inBucket_eq fun B hB => by rw [Store.object_of_lookup hB]
  | deleteObject b k => exact answered_deleteObject hown h b (hk k rfl)
  | listObjectsV2 b p =>
      obtain ⟨w', hrun, ht⟩ := listObjectsV2_run h.shaped (h.legible b) hown.objects_fit
        (fun k => ((S.object b k).getD ⟨[], ⟨none, .empty, none⟩, 0⟩).info C k)
        (fun k e he => by
          rw [h.liveAt_eq] at he
          obtain ⟨o, ho, rfl⟩ := Option.map_eq_some_iff.mp he
          rw [ho, objectInfo_entry, Option.getD_some]) p
      refine answered_read h hrun ht ?_
      refine h.inBucket_eq fun B hB => ?_
      simp only [Store.list, h.liveKeys_eq hB, Store.object_of_lookup hB]

/-- Opening a directory whose buckets are those of a store, whatever is staged in it and
whether or not it is stamped yet. -/
theorem open_rep (hs : Shaped env.fits w.tree) (h : Contents C X S w.tree)
    (hst : w.tree.fileAt formatPath = none ∨
      w.tree.fileAt formatPath = some (C.diskFormatJson.toVec ⟨DISK_FORMAT⟩)) :
    ∃ w', runAlone env (serve C .openEngine) w = (.ok .unit, w') ∧ Rep C env.fits X S w'.tree ∧
      w.Keeps w' {[], [AKS3_DIR], tmpDir} ∅ ∧
      (w.tree.fileAt formatPath = none → w.fs.Wf → w'.fs.Settled [AKS3_DIR]) := by
  have hstamp : Stamped C w.tree := by
    intro bytes hbytes
    rcases hst with hst | hst
    · rw [hst] at hbytes
      cases hbytes
    · rw [hst] at hbytes
      cases hbytes
      exact ⟨⟨DISK_FORMAT⟩, by simp, le_rfl⟩
  obtain ⟨w', hrun, hready, hformat, hfile, hdir, hk, hset⟩ := openEngine_run hown hs hstamp
  refine ⟨w', hrun, { hready, h.of_open hfile hdir with format := ?_ }, hk, hset⟩
  rw [Place.path, hformat]
  rcases hst with hst | hst <;> rw [hst] <;> rfl

/-- **Every request is answered as the store answers it, and keeps the tree a store's.** -/
theorem serve_refines (h : Rep C env.fits ∅ S w.tree) (r : Req)
    (hk : ∀ k, r.key = some k → Fit env.fits (keyToRelPath k)) :
    ∃ w', runAlone env (serve C r) w = ((S.apply C w.clock r).1, w') ∧
      Rep C env.fits ∅ (S.apply C w.clock r).2 w'.tree := by
  by_cases hr : r = .openEngine
  · subst hr
    obtain ⟨w', hrun, hrep, -⟩ := open_rep hown h.shaped h.toContents (.inr h.format)
    exact ⟨w', hrun, hrep⟩
  · obtain ⟨w', hrun, hrep, -⟩ := serve_answered hown h hr hk (by simp)
    exact ⟨w', hrun, hrep⟩

end

end Answers

/-! ## Sequences of requests -/

/-- Requests that come one after another, each with the time it comes at: the
answers, and the machine after the last. -/
def serveAll (env : Env OsName) (C : Crates) :
    World OsName → List (Nat × Req) → List Resp × World OsName
  | w, [] => ([], w)
  | w, (now, r) :: reqs =>
    let (resp, w') := runAlone env (serve C r) { w with clock := now }
    let (resps, w'') := serveAll env C w' reqs
    (resp :: resps, w'')

variable {env : Env OsName} {C : Crates}

theorem serveAll_rep (hfit : ∀ n, env.fits n = true) (reqs : List (Nat × Req)) :
    ∀ {S : Store} {w : World OsName}, Rep C env.fits ∅ S w.tree →
      ∃ w', serveAll env C w reqs = ((S.applyAll C reqs).1, w') ∧
        Rep C env.fits ∅ (S.applyAll C reqs).2 w'.tree := by
  induction reqs with
  | nil => exact fun h => ⟨_, rfl, h⟩
  | cons x reqs ih =>
      obtain ⟨now, r⟩ := x
      intro S w h
      obtain ⟨w₁, hrun, h₁⟩ := serve_refines (w := { w with clock := now })
        (.of_all hfit) h r fun k _ n _ => hfit n
      obtain ⟨w₂, hrun₂, h₂⟩ := ih h₁
      refine ⟨w₂, ?_, h₂⟩
      rw [serveAll, hrun]
      simp only [hrun₂, Store.applyAll]

/-- An empty directory holds the empty store. -/
theorem contents_empty (C : Crates) :
    Contents C ∅ ∅ (FileTree.empty : FileTree OsName) := by
  have hdir : ∀ pl : Place, ¬ (FileTree.empty : FileTree OsName).IsDir pl.path := by
    rintro pl ⟨i, hi⟩
    cases hp : pl.path with
    | nil => exact pl.path_ne_nil hp
    | cons n p =>
        rw [hp] at hi
        cases hi
  have hfile : ∀ pl : Place, (FileTree.empty : FileTree OsName).fileAt pl.path = none := by
    intro pl
    cases hp : pl.path with
    | nil => exact absurd hp pl.path_ne_nil
    | cons n p => rfl
  constructor
  · exact fun b hb => absurd hb Finmap.notMem_empty
  · exact fun b => iff_of_false (hdir _) Finmap.notMem_empty
  · intro b B hB
    rw [Finmap.lookup_empty] at hB
    cases hB
  · exact fun b k => hfile _
  · exact fun b k => hfile _
  · exact fun b k hd => absurd hd (hdir _)

theorem shaped_empty (fits : OsName → Bool) : Shaped fits (FileTree.empty : FileTree OsName) where
  place := by
    intro p x hx hne
    cases p with
    | nil => exact absurd rfl hne
    | cons n p => cases hx
  fit := by
    intro p hp
    cases p with
    | nil => exact fun n hn => absurd hn List.not_mem_nil
    | cons n p => exact absurd rfl hp

/-- A data directory that was opened first holds the store of the requests since. -/
theorem serveAll_start (hfit : ∀ n, env.fits n = true) (start : Nat) (reqs : List (Nat × Req)) :
    ∃ w, serveAll env C (World.empty OsName) ((start, .openEngine) :: reqs) =
        (.ok .unit :: (Store.applyAll C ∅ reqs).1, w) ∧
      Rep C env.fits ∅ (Store.applyAll C ∅ reqs).2 w.tree := by
  obtain ⟨w, hrun, hrep, -⟩ := open_rep (w := { World.empty OsName with clock := start })
    (.of_all hfit) (shaped_empty env.fits) (contents_empty C) (.inl rfl)
  obtain ⟨w', hrun', hrep'⟩ := serveAll_rep hfit reqs hrep
  refine ⟨w', ?_, hrep'⟩
  rw [serveAll, hrun]
  simp only [hrun']

/-- **A sequence of requests from an empty data directory, restarts included, is
answered as the store answers it.** -/
theorem serveAll_refines (hfit : ∀ n, env.fits n = true) (start : Nat) (reqs : List (Nat × Req)) :
    (serveAll env C (World.empty OsName) ((start, .openEngine) :: reqs)).1 =
      (Store.applyAll C ∅ ((start, .openEngine) :: reqs)).1 := by
  obtain ⟨w, hrun, -⟩ := serveAll_start (C := C) hfit start reqs
  rw [hrun]
  rfl

/-- An object is overwritten, read back after a restart and deleted, and its bucket can
be removed only then. -/
theorem serveAll_overwrite :
    (serveAll sampleEnv sampleCrates (World.empty OsName)
      [(0, .openEngine), (0, .createBucket "abc"),
        (0, .putObject "abc" "x/y" [.ok (utf8 "a")] noOpts),
        (0, .putObject "abc" "x/y" [.ok [], .ok (utf8 "b")] noOpts), (0, .openEngine),
        (0, .getObject "abc" "x/y" none), (0, .deleteBucket "abc"), (0, .deleteObject "abc" "x/y"),
        (0, .headObject "abc" "x/y"), (0, .deleteBucket "abc"), (0, .bucketExists "abc")]).1 =
    [.ok .unit, .ok .unit,
      .ok (.info ⟨"x/y", 1, etagA, DEFAULT_CONTENT_TYPE, 0, .empty, none⟩),
      .ok (.info ⟨"x/y", 1, etagB, DEFAULT_CONTENT_TYPE, 0, .empty, none⟩), .ok .unit,
      .ok (.object ⟨"x/y", 1, etagB, DEFAULT_CONTENT_TYPE, 0, .empty, none⟩ 0 1 (.ok (utf8 "b"))),
      .error .bucketNotEmpty, .ok .unit, .error .noSuchKey, .ok .unit, .ok (.found false)] := by
  rw [serveAll_refines (fun _ => rfl)]
  decide +kernel

end Aks3.Engine
