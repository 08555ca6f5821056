import Aks3.Engine.Limits

/-!
# Runs in which keys are refused

Two consequences of how a key is refused. `KeyTooLong` is not a property of the
key alone: `GET`, `HEAD` and `DELETE` answer it exactly when the directories
before the refused component are there (`keyTooLong_iff`). And a refused upload
can keep its bucket from being deleted: as long as every refused upload finds
those directories, or needs none, a bucket can be deleted exactly when its
listing is empty (`deleteBucket_exact`).
-/

set_option autoImplicit false

namespace Aks3.Engine

open Lib

variable {env : Env OsName} {C : Crates} {X : Set (Path OsName)} {S : Store} {w : World OsName}
  {b k : String}

/-! ## A machine with a name limit -/

/-- A machine that refuses names of more than 63 bytes, staged files apart. -/
def limitEnv : Env OsName where
  __ := sampleEnv
  fits n := n.length ≤ 63 || (utf8 ".tmp").isSuffixOf n

theorem length_of_isValidBucketName (h : isValidBucketName b = true) : (utf8 b).length ≤ 63 := by
  rw [isValidBucketName] at h
  by_contra hlong
  simp [hlong] at h

theorem ownNames_limitEnv : OwnNames limitEnv where
  fixed := by decide
  staged := by
    intro i
    have hsuf : utf8 ".tmp" <:+ tmpName (limitEnv.uuid i) := ⟨utf8 (limitEnv.uuid i), by
      rw [tmpName, utf8_append]⟩
    simp only [limitEnv, Bool.or_eq_true, List.isSuffixOf_iff_suffix]
    exact .inr hsuf
  bucket := by
    intro b hb
    have := length_of_isValidBucketName hb
    simp only [limitEnv, Bool.or_eq_true, decide_eq_true_eq]
    omega

/-- A component of 64 bytes. -/
def longName : String := String.ofList (List.replicate 64 'x')

/-! ## Every request keeps the tree a store's -/

/-- Deleting a bucket, whatever uploads have left in it. -/
theorem deleteBucket_kept (hown : OwnNames env) (h : Rep C env.fits X S w.tree) (b : String) :
    ∃ S', Follows C w.clock (.deleteBucket b) S S' ∧
      Rep C env.fits X S' (runAlone env (serve C (.deleteBucket b)) w).2.tree := by
  have hticked : ∀ {resp w'}, runAlone env (serve C (.deleteBucket b)) w = (resp, w') →
      w.Ticked w' → ∃ S', Follows C w.clock (.deleteBucket b) S S' ∧
        Rep C env.fits X S' (runAlone env (serve C (.deleteBucket b)) w).2.tree :=
    fun hrun ht => ⟨S, .inr fun _ _ => rfl, by rw [hrun]; exact h.ticked ht⟩
  by_cases hv : isValidBucketName b = true
  swap
  · have hrun : runAlone env (serve C (.deleteBucket b)) w = (.error .invalidBucketName, w) := by
      rw [runAlone, serve]
      exact Prog.run_bind_error
        (Prog.run_bind_error (checkedBucketDir_invalid (Bool.eq_false_of_not_eq_true hv)))
    exact hticked hrun (.refl w)
  cases hB : S.lookup b with
  | none =>
      have hd : ¬ w.tree.IsDir (bucketDir b) :=
        (h.bucket b).not.mpr (Finmap.lookup_eq_none.mp hB)
      obtain ⟨w', hrun, ht⟩ := deleteBucket_missing (C := C) hown h.shaped hv hd
      exact hticked hrun ht
  | some B =>
      have hd : w.tree.IsDir (bucketDir b) := (h.bucket b).mpr (Finmap.mem_of_lookup_eq_some hB)
      by_cases ho : Occupied w.tree b
      · obtain ⟨w', hrun, ht⟩ := deleteBucket_occupied (C := C) hown h.shaped hv hd ho
        exact hticked hrun ht
      · have he : B.objects = ∅ := by
          by_contra hne
          obtain ⟨k, hk⟩ := (Contents.objects_ne_empty hB).mp hne
          exact ho (h.occupied_of_live hk)
        obtain ⟨w', hrun, hfind, -⟩ := deleteBucket_run (C := C) hown h.shaped hv hd ho
        exact ⟨S.erase b, .inr fun _ _ => Store.object_erase hB he,
          by rw [hrun]; exact h.drop hB he hfind⟩

/-- A request that is not a refused upload. -/
theorem serve_kept (hown : OwnNames env) (h : Rep C env.fits X S w.tree) (r : Req)
    (hr : ∀ b k body opts, r = .putObject b k body opts → ¬ Refused env.fits w.tree b k body) :
    ∃ S', Follows C w.clock r S S' ∧ Rep C env.fits X S' (runAlone env (serve C r) w).2.tree := by
  by_cases hopen : r = .openEngine
  · subst hopen
    obtain ⟨w', hrun, hrep, -⟩ := open_rep hown h.shaped h.toContents (.inr h.format)
    exact ⟨S, .inl rfl, by rwa [hrun]⟩
  by_cases hdel : ∃ b, r = .deleteBucket b
  · obtain ⟨b, rfl⟩ := hdel
    exact deleteBucket_kept hown h b
  by_cases hk : ∃ k, r.key = some k ∧ ¬ Fit env.fits (keyToRelPath k)
  · obtain ⟨k, hkey, hno⟩ := hk
    rcases serve_refused hown h hkey hno with hrep | ⟨b, body, opts, rfl, href⟩
    · exact hrep
    · exact absurd href (hr b k body opts rfl)
  · refine Answered.rep (serve_answered hown h hopen (fun k hkey => ?_) fun b hb => ?_)
    · by_contra hno
      exact hk ⟨k, hkey, hno⟩
    · exact absurd ⟨b, hb⟩ hdel

/-- Any request, if anything may be left over. -/
theorem serve_rep (hown : OwnNames env) (h : Rep C env.fits Set.univ S w.tree) (r : Req) :
    ∃ S', Follows C w.clock r S S' ∧
      Rep C env.fits Set.univ S' (runAlone env (serve C r) w).2.tree := by
  by_cases hr : ∃ b k body opts, r = .putObject b k body opts ∧ Refused env.fits w.tree b k body
  · obtain ⟨b, k, body, opts, rfl, href⟩ := hr
    obtain ⟨bytes, hb⟩ := href.body
    obtain ⟨w', hrun, hfile, hdir⟩ := putObject_refused (C := C) hown href.valid href.key
      h.toReady href.dir hb opts
    refine ⟨S, .inr fun _ _ => rfl, ?_⟩
    rw [hrun]
    exact (h.leave (hown.objects_fit href.valid) ((h.bucket b).mp href.dir) hfile hdir).mono
      (Set.subset_univ _)
  · exact serve_kept hown h r fun b k body opts he href => hr ⟨b, k, body, opts, he, href⟩

/-- A request that can change the object under a key. -/
def Touches (b k : String) : Req → Prop
  | .putObject b' k' _ _ => b' = b ∧ k' = k
  | .deleteObject b' k' => b' = b ∧ k' = k
  | _ => False

/-- An object stays until its own key is put or deleted: a bucket that holds one is not
removed. -/
theorem Store.apply_object {r : Req} {o : Object} (hr : ¬ Touches b k r)
    (ho : S.object b k = some o) (now : Nat) : (S.apply C now r).2.object b k = some o := by
  have hin : ∀ {b' : String} {f : Bucket → Resp × Store},
      (∀ B, S.lookup b' = some B → (f B).2.object b k = some o) →
        (S.inBucket b' f).2.object b k = some o := by
    intro b' f hf
    rw [Store.inBucket]
    split
    · cases hB : S.lookup b' with
      | none => exact ho
      | some B => exact hf B hB
    · exact ho
  cases r with
  | createBucket b' =>
      simp only [Store.apply]
      split
      · split
        · exact ho
        · rename_i hb
          rw [Store.object_create hb]
          exact ho
      · exact ho
  | deleteBucket b' =>
      refine hin fun B hB => ?_
      split
      · rename_i he
        rw [Store.object_erase hB he]
        exact ho
      · exact ho
  | bucketExists b' =>
      simp only [Store.apply]
      split <;> exact ho
  | putObject b' k' body opts =>
      refine hin fun B hB => ?_
      split
      · exact ho
      · rw [Store.object_put hB, if_neg fun hx => hr ⟨hx.1.symm, hx.2.symm⟩]
        exact ho
  | deleteObject b' k' =>
      refine hin fun B hB => ?_
      rw [Store.object_delete hB, if_neg fun hx => hr ⟨hx.1.symm, hx.2.symm⟩]
      exact ho
  | getObject b' k' range => exact hin fun B hB => ho
  | headObject b' k' => exact hin fun B hB => ho
  | listObjectsV2 b' p => exact hin fun B hB => ho
  | openEngine => exact ho
  | listBuckets => exact ho

theorem Follows.object {r : Req} {S' : Store} {now : Nat} {o : Object} (h : Follows C now r S S')
    (hr : ¬ Touches b k r) (ho : S.object b k = some o) : S'.object b k = some o := by
  rcases h with rfl | h
  · exact Store.apply_object hr ho now
  · rw [h, ho]

/-- Whatever else is asked, a stored object stays. -/
theorem serveAll_holds (hown : OwnNames env) {o : Object} (reqs : List (Nat × Req)) :
    ∀ {w : World OsName} {S : Store}, Rep C env.fits Set.univ S w.tree → S.object b k = some o →
      (∀ x ∈ reqs, ¬ Touches b k x.2) →
      ∃ S', Rep C env.fits Set.univ S' (serveAll env C w reqs).2.tree ∧
        S'.object b k = some o := by
  induction reqs with
  | nil => exact fun h ho _ => ⟨_, h, ho⟩
  | cons x reqs ih =>
      intro w S h ho hreqs
      obtain ⟨S', hf, h'⟩ := serve_rep (w := { w with clock := x.1 }) hown h x.2
      exact ih h' (hf.object (hreqs x List.mem_cons_self) ho)
        fun y hy => hreqs y (List.mem_cons_of_mem x hy)

theorem serveAll_append (env : Env OsName) (C : Crates) (reqs : List (Nat × Req)) :
    ∀ (w : World OsName) (x : Nat × Req), (serveAll env C w (reqs ++ [x])).2 =
      (runAlone env (serve C x.2) { (serveAll env C w reqs).2 with clock := x.1 }).2 := by
  induction reqs with
  | nil => exact fun w x => rfl
  | cons y reqs ih => exact fun w x => ih _ x

/-- **Every state a sequence of requests reaches holds a store.** -/
theorem serveAll_kept (hown : OwnNames env) (start : Nat) (reqs : List (Nat × Req)) :
    ∃ S, Rep C env.fits Set.univ S
      (serveAll env C (World.empty OsName) ((start, .openEngine) :: reqs)).2.tree := by
  induction reqs using List.reverseRecOn with
  | nil =>
      obtain ⟨w, hrun, hrep, -⟩ :=
        open_rep (C := C) (w := { World.empty OsName with clock := start })
        hown (shaped_empty env.fits) (contents_empty C) (.inl rfl)
      refine ⟨∅, ?_⟩
      rw [serveAll, hrun]
      exact hrep.mono (Set.empty_subset _)
  | append_singleton reqs x ih =>
      obtain ⟨S, h⟩ := ih
      rw [← List.cons_append, serveAll_append]
      obtain ⟨S', -, h'⟩ := serve_rep
        (w := { (serveAll env C (World.empty OsName) _).2 with clock := x.1 }) hown h x.2
      exact ⟨S', h'⟩

/-! ## The verdict on a key -/

/-- The four requests about a key answer `KeyTooLong` when it has a component the
filesystem refuses, and only then. -/
def VerdictOfKey (env : Env OsName) (C : Crates) (w : World OsName) (b k : String)
    (body : ByteStream) (opts : PutOpts) (range : Option ByteRange) : Prop :=
  ∀ r ∈ [Req.putObject b k body opts, .getObject b k range, .headObject b k, .deleteObject b k],
    (runAlone env (serve C r) w).1 = .error .keyTooLong ↔ ¬ Fit env.fits (keyToRelPath k)

theorem ofIo_eq_keyTooLong {e : IoError} :
    EngineError.ofIo e = .keyTooLong ↔ e.kind = .invalidFilename := by
  rw [EngineError.ofIo]
  split <;> simp_all

theorem resolveRange_ne_keyTooLong {range : Option ByteRange} {size : Nat} :
    resolveRange range size ≠ .error .keyTooLong := by
  unfold resolveRange
  split
  · simp
  · split
    · simp
    · split <;> split <;> simp

/-- A key that can be stored is refused only by its body. -/
theorem verdict_of_fit (hown : OwnNames env) (h : Rep C env.fits X S w.tree) (hb : b ∈ S)
    (hk : Fit env.fits (keyToRelPath k)) (body : ByteStream) (opts : PutOpts)
    (range : Option ByteRange) :
    VerdictOfKey env C w b k body opts range ↔
      ∀ e, collect body = .error e → e.kind ≠ .invalidFilename := by
  obtain ⟨B, hB⟩ := Finmap.mem_iff.mp hb
  have hv := h.valid b hb
  have hans : ∀ r : Req, r ≠ .openEngine → (∀ b, r ≠ .deleteBucket b) →
      (∀ k', r.key = some k' → k' = k) →
      (runAlone env (serve C r) w).1 = (S.apply C w.clock r).1 := by
    intro r hopen hdel hkey
    obtain ⟨w', hrun, -⟩ := serve_answered hown h hopen (fun k' hk' => hkey k' hk' ▸ hk)
      fun b hb => absurd hb (hdel b)
    rw [hrun]
  have hget : (S.apply C w.clock (.getObject b k range)).1 ≠ .error .keyTooLong := by
    simp only [Store.apply, Store.inBucket, if_pos hv, hB]
    cases B.objects.lookup k with
    | none => simp [Store.get]
    | some o =>
        rw [Store.get]
        cases hr : resolveRange range o.bytes.length with
        | error e =>
            simp only [ne_eq, Except.error.injEq]
            rintro rfl
            exact resolveRange_ne_keyTooLong hr
        | ok ol => simp
  have hhead : (S.apply C w.clock (.headObject b k)).1 ≠ .error .keyTooLong := by
    simp only [Store.apply, Store.inBucket, if_pos hv, hB]
    cases B.objects.lookup k <;> simp [Store.head]
  have hdelete : (S.apply C w.clock (.deleteObject b k)).1 ≠ .error .keyTooLong := by
    simp [Store.apply, Store.inBucket, if_pos hv, hB]
  have hput : (S.apply C w.clock (.putObject b k body opts)).1 ≠ .error .keyTooLong ↔
      ∀ e, collect body = .error e → e.kind ≠ .invalidFilename := by
    simp only [Store.apply, Store.inBucket, if_pos hv, hB]
    cases hc : collect body with
    | error e => simp [ofIo_eq_keyTooLong]
    | ok bytes => simp
  simp only [VerdictOfKey, List.forall_mem_cons, hk, not_true_eq_false, iff_false]
  rw [hans _ (by simp) (by simp) (by simp [Req.key]),
    hans _ (by simp) (by simp) (by simp [Req.key]),
    hans _ (by simp) (by simp) (by simp [Req.key]), hans _ (by simp) (by simp) (by simp [Req.key]),
    ← hput]
  simp [hget, hhead, hdelete]

/-- A key that cannot be stored is refused by all four if the directories before the
refused component are there. -/
theorem verdict_of_not_fit (hown : OwnNames env) (h : Rep C env.fits X S w.tree) (hb : b ∈ S)
    (hk : ¬ Fit env.fits (keyToRelPath k)) (body : ByteStream) (opts : PutOpts)
    (range : Option ByteRange) :
    VerdictOfKey env C w b k body opts range ↔
      (∀ e, collect body = .error e → e.kind = .invalidFilename) ∧
        w.tree.IsDir (refusedDir env.fits b k) := by
  have hv := h.valid b hb
  have hd := (h.bucket b).mpr hb
  obtain ⟨w₁, hget, -⟩ := getObject_refused (C := C) hown hv hk h.shaped hd range
  obtain ⟨w₂, hhead, -⟩ := headObject_refused (C := C) hown hv hk h.shaped hd
  obtain ⟨w₃, hdelete, -⟩ := deleteObject_refused (C := C) hown hv hk h.shaped hd
  have hput : (runAlone env (serve C (.putObject b k body opts)) w).1 = .error .keyTooLong ↔
      ∀ e, collect body = .error e → e.kind = .invalidFilename := by
    cases hc : collect body with
    | error e =>
        obtain ⟨w', hrun, -⟩ := putObject_broken (C := C) (k := k) hown h.toReady hv hd hc opts
        rw [hrun]
        simp [ofIo_eq_keyTooLong]
    | ok bytes =>
        obtain ⟨w', hrun, -⟩ := putObject_refused (C := C) hown hv hk h.toReady hd hc opts
        rw [hrun]
        simp
  simp only [VerdictOfKey, List.forall_mem_cons, hk, not_false_eq_true, iff_true, hput, hget,
    hhead, hdelete]
  by_cases href : w.tree.IsDir (refusedDir env.fits b k) <;> simp [href]

/-- **`KeyTooLong` is the verdict on a key alone exactly when the body says nothing
else and, if the key has a component that is refused, the directories before it
are there.** -/
theorem keyTooLong_iff (hown : OwnNames env) (start : Nat) (reqs : List (Nat × Req))
    {w : World OsName}
    (hw : w = (serveAll env C (World.empty OsName) ((start, .openEngine) :: reqs)).2)
    (hd : w.tree.IsDir (bucketDir b)) (k : String) (body : ByteStream) (opts : PutOpts)
    (range : Option ByteRange) :
    VerdictOfKey env C w b k body opts range ↔
      (∀ e, collect body = .error e →
        (e.kind = .invalidFilename ↔ ¬ Fit env.fits (keyToRelPath k))) ∧
      (¬ Fit env.fits (keyToRelPath k) → w.tree.IsDir (refusedDir env.fits b k)) := by
  obtain ⟨S, h⟩ := serveAll_kept (C := C) hown start reqs
  rw [← hw] at h
  have hb := (h.bucket b).mp hd
  by_cases hk : Fit env.fits (keyToRelPath k)
  · rw [verdict_of_fit hown h hb hk]
    simp [hk]
  · rw [verdict_of_not_fit hown h hb hk]
    simp [hk]

/-- A component of 64 bytes in a bucket nothing was written to: nothing is found, the
delete succeeds, and only the upload is refused. -/
theorem keyTooLong_fresh_bucket : ¬ Fit limitEnv.fits (keyToRelPath longName) ∧
    (serveAll limitEnv sampleCrates (World.empty OsName)
      [(0, .openEngine), (0, .createBucket "abc"), (0, .getObject "abc" longName none),
        (0, .headObject "abc" longName), (0, .deleteObject "abc" longName),
        (0, .putObject "abc" longName [.ok (utf8 "a")] noOpts)]).1 =
    [.ok .unit, .ok .unit, .error .noSuchKey, .error .noSuchKey, .ok .unit,
      .error .keyTooLong] := by
  decide +kernel

/-- After a refused upload the object tree has its directory, and all four refuse. -/
theorem keyTooLong_after_put :
    ∃ w : World OsName, w.tree.IsDir (bucketDir "abc") ∧
      ¬ Fit limitEnv.fits (keyToRelPath longName) ∧
      VerdictOfKey limitEnv sampleCrates w "abc" longName [.ok (utf8 "a")] noOpts none := by
  refine ⟨_, ?_, by decide +kernel, (keyTooLong_iff ownNames_limitEnv 0
    [(0, .createBucket "abc"), (0, .putObject "abc" longName [.ok (utf8 "a")] noOpts)] rfl ?_ _ _ _
    _).mpr ⟨by simp [collect, Except.map], fun _ => ?_⟩⟩
  all_goals decide +kernel

/-! ## Buckets that cannot be deleted -/

/-- An upload that is not refused, or that finds the directories before the refused
component, or needs none. -/
def Harmless (fits : OsName → Bool) (t : FileTree OsName) : Req → Prop
  | .putObject b k body _ => Refused fits t b k body →
      fitting fits (keyToRelPath k) = [] ∨ t.IsDir (refusedDir fits b k)
  | _ => True

/-- Every request of a sequence is harmless in the state it comes in. -/
def HarmlessRun (env : Env OsName) (C : Crates) : World OsName → List (Nat × Req) → Prop
  | _, [] => True
  | w, (now, r) :: reqs => Harmless env.fits w.tree r ∧
      HarmlessRun env C (runAlone env (serve C r) { w with clock := now }).2 reqs

theorem serve_harmless (hown : OwnNames env) (h : Rep C env.fits ∅ S w.tree) {r : Req}
    (hr : Harmless env.fits w.tree r) :
    ∃ S', Rep C env.fits ∅ S' (runAlone env (serve C r) w).2.tree := by
  by_cases hput : ∃ b k body opts, r = .putObject b k body opts ∧ Refused env.fits w.tree b k body
  swap
  · obtain ⟨S', -, h'⟩ :=
      serve_kept hown h r fun b k body opts he href => hput ⟨b, k, body, opts, he, href⟩
    exact ⟨S', h'⟩
  obtain ⟨b, k, body, opts, rfl, href⟩ := hput
  obtain ⟨bytes, hb⟩ := href.body
  obtain ⟨w', hrun, hfile, hdir⟩ := putObject_refused (C := C) hown href.valid href.key h.toReady
    href.dir hb opts
  refine ⟨S, ?_⟩
  rw [hrun]
  rcases hr href with hnil | hd
  · -- the first component is refused: only the object tree itself is made
    have hleft := h.leave (hown.objects_fit href.valid) ((h.bucket b).mp href.dir) hfile hdir
    rw [refusedDir, hnil, List.nil_append] at hleft
    exact hleft.discard
  · exact h.of_same hfile fun q => (hdir q).trans
      (or_iff_left_of_imp fun hq => FileTree.isDir_of_suffix hd hq)

theorem serveAll_harmless (hown : OwnNames env) (reqs : List (Nat × Req)) :
    ∀ {S : Store} {w : World OsName}, Rep C env.fits ∅ S w.tree → HarmlessRun env C w reqs →
      ∃ S', Rep C env.fits ∅ S' (serveAll env C w reqs).2.tree := by
  induction reqs with
  | nil => exact fun h _ => ⟨_, h⟩
  | cons x reqs ih =>
      obtain ⟨now, r⟩ := x
      intro S w h hrun
      obtain ⟨S', h'⟩ := serve_harmless (w := { w with clock := now }) hown h hrun.1
      exact ih h' hrun.2

/-- The listing of a whole bucket has an object if the bucket has one. -/
theorem page_objects_eq_nil {live : List String} {info : String → ObjectInfo} {n : Nat}
    (hn : 1 ≤ n) : (page live info ⟨none, none, none, none, n⟩).objects = [] ↔ live = [] := by
  have hfold : ∀ i, foldOf "" none i = none := fun _ => rfl
  have hitems : reference live "" none = live.dedup := by
    have hall : (live.filter fun k => utf8 "" <+: utf8 k) = live :=
      List.filter_eq_self.mpr fun k _ => by simp
    rw [reference, hall]
    exact congrArg List.dedup (List.map_id live)
  rw [page, if_neg (by simp only; omega)]
  simp only [pageOf, delimiterOf, Option.filter_none, Option.getD_none, startBound, beyond,
    Option.all_none, List.filter_true, hitems, hfold, decide_true, List.map_eq_nil_iff,
    List.take_eq_nil_iff]
  constructor
  · rintro (h | h)
    · omega
    · exact List.eq_nil_of_subset_nil fun x hx => h ▸ List.mem_dedup.mpr hx
  · rintro rfl
    exact .inr rfl

/-- Whether a bucket can be deleted, and what a listing of all of it shows, in a tree
that holds nothing but its store. -/
theorem deleteBucket_listing (hown : OwnNames env) (h : Rep C env.fits ∅ S w.tree) (hb : b ∈ S)
    {n : Nat} (hn : 1 ≤ n) :
    ∃ r, (runAlone env (serve C (.listObjectsV2 b ⟨none, none, none, none, n⟩)) w).1 =
        .ok (.page r) ∧ (r.objects = [] ↔ liveKeys C w.tree b = []) ∧
      (runAlone env (serve C (.deleteBucket b)) w).1 =
        if liveKeys C w.tree b = [] then .ok .unit else .error .bucketNotEmpty := by
  obtain ⟨B, hB⟩ := Finmap.mem_iff.mp hb
  have hv := h.valid b hb
  obtain ⟨w₁, hlist, -⟩ := serve_answered hown h
    (r := .listObjectsV2 b ⟨none, none, none, none, n⟩) (by simp) (by simp [Req.key]) (by simp)
  obtain ⟨w₂, hdel, -⟩ := answered_deleteBucket hown h b (by simp)
  have hempty : B.objects = ∅ ↔ liveKeys C w.tree b = [] := by
    rw [h.liveKeys_eq hB]
    constructor
    · intro he
      simp [he, ascending]
    · intro he
      refine Finmap.ext_lookup fun k => ?_
      rw [Finmap.lookup_empty, Finmap.lookup_eq_none, ← Finmap.mem_keys, ← mem_ascending, he]
      exact List.not_mem_nil
  refine ⟨Store.list C B ⟨none, none, none, none, n⟩, ?_, ?_, ?_⟩
  · rw [hlist]
    simp only [Store.apply, Store.inBucket, if_pos hv, hB]
  · rw [Store.list, page_objects_eq_nil hn, h.liveKeys_eq hB]
  · rw [hdel]
    simp only [Store.apply, Store.inBucket, if_pos hv, hB, ← hempty]
    by_cases he : B.objects = ∅ <;> simp [he]

/-- An upload that leaves a directory behind keeps its bucket from being deleted. -/
theorem deleteBucket_wedged (hown : OwnNames env) (h : Rep C env.fits X S w.tree) {r : Req}
    {body : ByteStream} {opts : PutOpts} (hr : r = .putObject b k body opts)
    (hno : ¬ Harmless env.fits w.tree r) :
    (runAlone env (serve C (.deleteBucket b)) (runAlone env (serve C r) w).2).1 =
      .error .bucketNotEmpty := by
  subst hr
  obtain ⟨href, hleft⟩ : Refused env.fits w.tree b k body ∧
      ¬ (fitting env.fits (keyToRelPath k) = [] ∨ w.tree.IsDir (refusedDir env.fits b k)) := by
    simpa [Harmless] using hno
  obtain ⟨bytes, hbody⟩ := href.body
  obtain ⟨w', hrun, hfile, hdir⟩ := putObject_refused (C := C) hown href.valid href.key h.toReady
    href.dir hbody opts
  have hrep := h.leave (hown.objects_fit href.valid) ((h.bucket b).mp href.dir) hfile hdir
  have hocc : Occupied w'.tree b := by
    obtain ⟨rel, n, hrel⟩ :=
      (List.eq_nil_or_concat (fitting env.fits (keyToRelPath k))).resolve_left
      fun hnil => hleft (.inl hnil)
    have hd : w'.tree.IsDir (n :: (Place.objects b).path) := by
      refine FileTree.isDir_of_suffix ((hdir (refusedDir env.fits b k)).mpr (.inr List.suffix_rfl))
        ⟨rel, ?_⟩
      rw [refusedDir, hrel, List.concat_eq_append, List.append_assoc]
      rfl
    exact FileTree.hasChild_eq_true.mpr
      ⟨n, fun hnone => absurd hd (FileTree.find_eq_none.mp hnone).2⟩
  obtain ⟨w'', hdel, -⟩ := deleteBucket_occupied (C := C) hown hrep.shaped href.valid
    ((hdir _).mpr (.inl href.dir)) hocc
  rw [hrun, hdel]

/-- **In a run whose uploads are all harmless, a bucket can be deleted exactly when its
listing is empty; and an upload that is not harmless ends that.** -/
theorem deleteBucket_exact (hown : OwnNames env) (start : Nat) (reqs : List (Nat × Req))
    {w : World OsName}
    (hw : w = (serveAll env C (World.empty OsName) ((start, .openEngine) :: reqs)).2)
    (hrun : HarmlessRun env C (World.empty OsName) ((start, .openEngine) :: reqs)) :
    (∀ b, w.tree.IsDir (bucketDir b) → ∀ n, 1 ≤ n →
      ∃ r, (runAlone env (serve C (.listObjectsV2 b ⟨none, none, none, none, n⟩)) w).1 =
          .ok (.page r) ∧ (r.objects = [] ↔ liveKeys C w.tree b = []) ∧
        (runAlone env (serve C (.deleteBucket b)) w).1 =
          if liveKeys C w.tree b = [] then .ok .unit else .error .bucketNotEmpty) ∧
    ∀ b k body opts, ¬ Harmless env.fits w.tree (.putObject b k body opts) →
      (runAlone env (serve C (.deleteBucket b))
        (runAlone env (serve C (.putObject b k body opts)) w).2).1 = .error .bucketNotEmpty := by
  obtain ⟨w₀, hopen, hrep₀, -⟩ := open_rep (C := C)
    (w := { World.empty OsName with clock := start }) hown (shaped_empty env.fits)
    (contents_empty C) (.inl rfl)
  have hrest := hrun.2
  rw [hopen] at hrest
  obtain ⟨S, h⟩ := serveAll_harmless hown reqs hrep₀ hrest
  have htree : w.tree = (serveAll env C w₀ reqs).2.tree := by
    rw [hw, serveAll, hopen]
  rw [← htree] at h
  exact ⟨fun b hd n hn => deleteBucket_listing hown h ((h.bucket b).mp hd) hn,
    fun b k body opts hno => deleteBucket_wedged hown h rfl hno⟩

/-- The upload of `a/` followed by a component of 64 bytes is refused and leaves the
directory `a`: the listing is empty, and the bucket cannot be deleted, nor can the key. -/
theorem deleteBucket_after_refused_put :
    (serveAll limitEnv sampleCrates (World.empty OsName)
      [(0, .openEngine), (0, .createBucket "abc"),
        (0, .putObject "abc" ("a/" ++ longName) [.ok (utf8 "a")] noOpts),
        (0, .listObjectsV2 "abc" ⟨none, none, none, none, 1000⟩),
        (0, .deleteObject "abc" ("a/" ++ longName)), (0, .deleteBucket "abc")]).1 =
    [.ok .unit, .ok .unit, .error .keyTooLong, .ok (.page .default), .error .keyTooLong,
      .error .bucketNotEmpty] := by
  decide +kernel

/-- A refused upload that is harmless, since its first component is the one refused. -/
theorem deleteBucket_exact_first_component :
    ∃ w : World OsName, w = (serveAll limitEnv sampleCrates (World.empty OsName)
        [(0, .openEngine), (0, .createBucket "abc"),
          (0, .putObject "abc" longName [.ok (utf8 "a")] noOpts)]).2 ∧
      w.tree.IsDir (bucketDir "abc") ∧ liveKeys sampleCrates w.tree "abc" = [] ∧
      (runAlone limitEnv (serve sampleCrates (.deleteBucket "abc")) w).1 = .ok .unit := by
  have hexact := deleteBucket_exact (C := sampleCrates) ownNames_limitEnv 0
    [(0, .createBucket "abc"), (0, .putObject "abc" longName [.ok (utf8 "a")] noOpts)] rfl
    ⟨trivial, trivial, fun _ => .inl (by decide +kernel), trivial⟩
  have hd : (serveAll limitEnv sampleCrates (World.empty OsName)
      [(0, .openEngine), (0, .createBucket "abc"),
        (0, .putObject "abc" longName [.ok (utf8 "a")] noOpts)]).2.tree.IsDir
        (bucketDir "abc") := by
    decide +kernel
  obtain ⟨r, -, -, hdel⟩ := hexact.1 "abc" hd 1 le_rfl
  have hlive : liveKeys sampleCrates (serveAll limitEnv sampleCrates (World.empty OsName)
      [(0, .openEngine), (0, .createBucket "abc"),
        (0, .putObject "abc" longName [.ok (utf8 "a")] noOpts)]).2.tree "abc" = [] := by
    decide +kernel
  rw [if_pos hlive] at hdel
  exact ⟨_, rfl, hd, hlive, hdel⟩

end Aks3.Engine
