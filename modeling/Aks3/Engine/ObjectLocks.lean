import Aks3.Engine.Guards
import Aks3.Engine.Published

/-!
# Every method keeps to its locks

`serve_guarded` says of each of the engine's methods that it changes object files only under their
locks, or removes them with a bucket it has seen to hold none. With the rule for runs this gives
`object_changes_locked`.
-/

set_option autoImplicit false

namespace Aks3.Engine

open Lib

/-! ## Operations that leave a task's sight as it is -/

section Quiet

variable {a : Sight} {b k : String} {p q : Path OsName}

/-- The calls of an operation keep to the locks, and tell the task nothing new. -/
def Quiet (a : Sight) (o : Op) : Prop := o.code.All (guarding.Silent a)

/-- A task that holds a bucket's lock exclusively has seen that it is empty. -/
def Settled (a : Sight) : Prop := ∀ b, (.bucket b, .exclusive) ∈ a.1 → a.2 = some b

theorem Settled.learn (h : Settled a) (x : Option String) : learn a.1 a.2 x = a.2 := by
  cases x with
  | none => rfl
  | some b =>
      rw [Engine.learn]
      split_ifs with hheld
      · exact (h b hheld).symm
      · rfl

theorem Settled.of_shared {held : Held} (h : ∀ b, (.bucket b, .exclusive) ∉ held) :
    Settled (held, none) := fun b hb => absurd hb (h b)

theorem Settled.peeks (h : Settled a) (o : Sys OsName LockName) (ho : Peeks o) :
    guarding.Silent a o := by
  cases o with
  | readDir p =>
      refine ⟨trivial, fun r a' post => ?_⟩
      rw [show a' = _ from post, h.learn]
  | stat | openDir | syncDir | readFile | seek | budget | now | recv =>
      exact ⟨trivial, fun _ _ post => post⟩
  | _ => exact ho.elim

theorem Settled.reads (h : Settled a) (o : Op) (ho : Reads o) : Quiet a o :=
  all_code_of_reads h.peeks o ho

theorem mayFill_of_short (h : p.length ≤ 3) : MayFill a p := by
  rintro b n rfl
  simp [objectsDir, bucketDir, bucketsDir] at h

/-- The object tree of a bucket may be filled by a task that holds the bucket's lock. -/
theorem mayFill_under {pl : Place} {m : Mode} (hq : q <:+ pl.path) (hb : pl.bucketOf = some b)
    (held : (.bucket b, m) ∈ a.1) (unseen : a.2 = none) : MayFill a q := by
  rintro b' n rfl
  have up : (Place.bucket b').path <:+ pl.path :=
    List.IsSuffix.trans ⟨[n, OBJECTS_DIR], rfl⟩ hq
  obtain rfl := Option.some.inj (hb.symm.trans ((Place.bucket_suffix pl).mp up))
  exact ⟨⟨m, held⟩, by simp [unseen]⟩

theorem not_objectFile {pl : Place} (hm : ∀ b k, pl ≠ .manifest b k) (hd : ∀ b k, pl ≠ .data b k) :
    ¬ ObjectFile b k pl.path := by
  rintro (h | h)
  · exact hm b k (Place.path_injective h)
  · exact hd b k (Place.path_injective h)

theorem not_objectFile_staged (n : OsName) : ¬ ObjectFile b k (n :: tmpDir) := by
  have staged : ¬ ObjectFile b k (Place.staged n).path :=
    not_objectFile (fun _ _ h => by cases h) fun _ _ h => by cases h
  exact staged

theorem Settled.mkdir (h : Settled a) (hp : MayFill a p) : guarding.Silent a (.mkdir p) := by
  refine ⟨hp, fun r a' post => ?_⟩
  cases r with
  | error e => exact post
  | ok u => rw [show a' = _ from post, h.learn]

theorem Settled.createDirAll (h : Settled a) (hp : ∀ q, q <:+ p → MayFill a q) :
    Quiet a (.call (.createDirAll p)) :=
  StdFs.all_createDirAll (fun _ => h.peeks _ trivial) fun _ _ hq => h.mkdir (hp _ hq)

theorem Settled.removeDirAll (h : Settled a)
    (hp : ∀ q b k, p <:+ q → ObjectFile b k q → a.2 = some b) : Quiet a (.call (.removeDirAll p)) :=
  StdFs.all_removeDirAll (h.peeks _ trivial) fun q hq =>
    ⟨h.peeks _ trivial, ⟨trivial, fun _ _ post => post⟩,
      ⟨fun b k hfile => .inr (hp q b k hq hfile), fun _ _ post => post⟩⟩

theorem quiet_unlink (n : OsName) : Quiet a (.prim (.unlink (n :: tmpDir))) :=
  Prog.all_call ⟨fun _ _ h => absurd h (not_objectFile_staged n), fun _ _ post => post⟩

theorem quiet_uuid : Quiet a (.prim .uuid) := Prog.all_call ⟨trivial, fun _ _ post => post⟩

theorem quiet_removeFile (h : ∀ b k, ObjectFile b k p → KeyLocked a.1 b k) :
    Quiet a (.call (.removeFile p)) :=
  Prog.all_call ⟨fun b k hp => .inl (h b k hp), fun _ _ post => post⟩

/-- A staged file is written, whatever locks are held. -/
theorem quiet_stages (u : String) : Stages (Quiet a) (tmpName u :: tmpDir) where
  openNew := Prog.all_call ⟨⟨mayFill_of_short (Nat.le_refl 3),
    fun _ _ => not_objectFile_staged (tmpName u)⟩, fun r _ post => by cases r <;> exact post⟩
  writeAll _ := Prog.all_call ⟨fun _ _ => not_objectFile_staged (tmpName u),
    fun _ _ post => post⟩
  syncAll := Prog.all_call ⟨trivial, fun _ _ post => post⟩
  unlink := quiet_unlink (tmpName u)

/-- A staged file is published in a directory that may be filled. -/
theorem Settled.commits (h : Settled a) (u : String) (hdst : MayFill a p)
    (hup : ∀ q, q <:+ parentDir p → MayFill a q)
    (hfile : ∀ b k, ObjectFile b k p → KeyLocked a.1 b k) :
    Commits (Quiet a) (tmpName u :: tmpDir) p where
  stages := quiet_stages u
  createDirAll := h.createDirAll hup
  rename := Prog.all_call ⟨⟨hdst, fun _ _ => not_objectFile_staged (tmpName u), hfile⟩,
    fun _ _ post => post⟩

end Quiet

/-! ## The methods -/

section Methods

variable {α : Type} {held : Held} {b k : String}

/-- A method keeps to its locks, and gives back those it takes. -/
abbrev KeepsLocks (held : Held) (p : EngineProg α) : Prop :=
  guarding.KeptBy Op.code (fun _ a => a = (held, none)) p (held, none)

theorem keepsLocks_of_quiet {p : EngineProg α} (h : p.All (Quiet (held, none))) :
    KeepsLocks held p :=
  .of_silent h

/-- Holding a lock. -/
theorem keepsLocks_withLock {l : LockName} {m : Mode} {body : EngineProg α}
    (h : guarding.KeptBy Op.code (fun _ a => a.1 = (l, m) :: held) body ((l, m) :: held, none)) :
    KeepsLocks held (withLock l m body) := by
  have step : ∀ (step : LockStep) (a : Sight), guarding.KeptBy Op.code
      (fun _ a' => a' = (heldAfter l step a.1, none)) (prim (.lock l step)) a := fun step a =>
    .call (.call (S := sysSig OsName LockName) (o := .lock l step) trivial fun _ _ post => post)
  refine .bind (step .refer _) fun _ a₁ h₁ => ?_
  rw [h₁]
  refine .bind (step (.take m) _) fun _ a₂ h₂ => ?_
  rw [h₂]
  refine .bind h fun r a₃ h₃ => .bind (step (.drop m) _) fun _ a₄ h₄ => ?_
  rw [h₄]
  refine .bind (step .prune _) fun _ a₅ h₅ => ?_
  rw [h₅, h₃]
  exact .pure (by simp [heldAfter])

theorem settled_nil : Settled ([], none) := Settled.of_shared fun _ h => by cases h

theorem settled_shared (b : String) : Settled ([(.bucket b, .shared)], none) :=
  Settled.of_shared fun _ h => by cases List.mem_singleton.mp h

/-- The locks of a request for one key. -/
abbrev keyLocks (b k : String) : Held := [(.key b k, .exclusive), (.bucket b, .shared)]

theorem settled_key (b k : String) : Settled (keyLocks b k, none) :=
  Settled.of_shared fun _ h => by
    rcases List.mem_cons.mp h with h | h
    · cases h
    · cases List.mem_singleton.mp h

theorem keyLocked_keyLocks : KeyLocked (keyLocks b k) b k :=
  ⟨List.mem_cons_self, List.mem_cons_of_mem _ (List.mem_singleton.mpr rfl)⟩

/-- Only this key's files are object files of one of its places. -/
theorem keyLocked_of_objectFile {p : Path OsName} (hp : ObjectFile b k p) :
    ∀ b' k', ObjectFile b' k' p → KeyLocked (keyLocks b k) b' k' := by
  intro b' k' hp'
  have same : b' = b ∧ k' = k := by
    rcases hp with rfl | rfl <;> rcases hp' with h | h <;> cases Place.path_injective h <;>
      exact ⟨rfl, rfl⟩
  obtain ⟨rfl, rfl⟩ := same
  exact keyLocked_keyLocks

theorem commits_keyLocks (u : String) {p : Path OsName} (hp : ObjectFile b k p) :
    Commits (Quiet (keyLocks b k, none)) (tmpName u :: tmpDir) p := by
  have held : (.bucket b, .shared) ∈ keyLocks b k := keyLocked_keyLocks.2
  refine (settled_key b k).commits u ?_ (fun q hq => ?_) (keyLocked_of_objectFile hp)
  · have inside : ∃ pl : Place, pl.bucketOf = some b ∧ pl.path = p := by
      rcases hp with rfl | rfl
      · exact ⟨.manifest b k, rfl, rfl⟩
      · exact ⟨.data b k, rfl, rfl⟩
    obtain ⟨pl, hb, rfl⟩ := inside
    exact mayFill_under List.suffix_rfl hb held rfl
  · have parent : parentDir p = (Place.object b k).path := by
      rcases hp with rfl | rfl <;> rfl
    rw [parent] at hq
    exact mayFill_under hq rfl held rfl

theorem keepsLocks_putObject (C : Crates) (b k : String) (body : ByteStream) (opts : PutOpts) :
    KeepsLocks [] (putObject C b k body opts).run := by
  have reads := settled_nil.reads
  refine .afterE ((readOnly_existingBucketDir b).mono reads) (returnsOk_existingBucketDir b)
    (fun dir hdir => ?_) fun _ => rfl
  subst hdir
  refine .afterE (.adapt (all_create quiet_uuid fun u => (quiet_stages u).openNew))
    (returnsOk_create tmpDir).adapt (fun f hf => ?_) fun _ => rfl
  obtain ⟨u, hfu⟩ := hf
  have stages : ∀ a, Stages (Quiet a) f.path := fun a => hfu ▸ quiet_stages u
  refine .afterLift (all_stageBody reads (stages _) body _) fun r => ?_
  cases r with
  | error e => exact .afterLift (all_drop (stages _)) fun _ => .pure rfl
  | ok d =>
      refine .afterLift (Prog.all_call (reads _ trivial)) fun now => ?_
      have locked : (putLocked C b f (objectDir (bucketDir b) k) (newEntry C opts d now)).All
          (Quiet (keyLocks b k, none)) :=
        all_putLocked (settled_key b k).reads C b quiet_uuid (hfu ▸ commits_keyLocks u (.inr rfl))
          (fun u' => commits_keyLocks u' (.inl rfl)) _
      have inner : KeepsLocks [(.bucket b, .shared)] (withLock (.key b k) .exclusive
          (putLocked C b f (objectDir (bucketDir b) k) (newEntry C opts d now))) :=
        keepsLocks_withLock ((keepsLocks_of_quiet locked).mono fun _ a ha => by rw [ha])
      refine .bindLift (keepsLocks_withLock (inner.mono fun _ a ha => by rw [ha])) fun r a ha => ?_
      rw [ha]
      rcases r with e | e | u
      · exact .afterLift (all_drop (stages _)) fun _ => .pure rfl
      · exact .pure rfl
      · exact .pure rfl

theorem keepsLocks_deleteObject (b k : String) : KeepsLocks [] (deleteObject b k).run := by
  refine .afterE ((readOnly_existingBucketDir b).mono settled_nil.reads)
    (returnsOk_existingBucketDir b)
    (fun dir hdir => ?_) fun _ => rfl
  subst hdir
  have locked : (deleteLocked (bucketDir b) k).run.All (Quiet (keyLocks b k, none)) :=
    all_deleteLocked (settled_key b k).reads (quiet_removeFile (keyLocked_of_objectFile (.inl rfl)))
      (quiet_removeFile (keyLocked_of_objectFile (.inr rfl))) fun _ _ _ _ =>
        Prog.all_call ⟨trivial, fun _ _ post => post⟩
  have inner : KeepsLocks [(.bucket b, .shared)] (withLock (.key b k) .exclusive
      (deleteLocked (bucketDir b) k).run) :=
    keepsLocks_withLock ((keepsLocks_of_quiet locked).mono fun _ a ha => by rw [ha])
  exact keepsLocks_withLock (inner.mono fun _ a ha => by rw [ha])

/-- A task that has seen that a bucket is empty, and keeps others out of it. -/
abbrev emptyBucket (b : String) : Sight := ([(.bucket b, .exclusive)], some b)

theorem settled_emptyBucket (b : String) : Settled (emptyBucket b) := fun b' h => by
  cases List.mem_singleton.mp h
  rfl

theorem quiet_removeBucket (b : String) :
    Quiet (emptyBucket b) (.call (.removeDirAll (bucketDir b))) := by
  refine (settled_emptyBucket b).removeDirAll fun q b' k hq hfile => ?_
  rcases hfile with rfl | rfl
  · exact ((Place.bucket_suffix (.manifest b' k)).mp hq).symm
  · exact ((Place.bucket_suffix (.data b' k)).mp hq).symm

theorem quiet_describeBucket (C : Crates) (b : String) :
    (describeBucket C (bucketDir b)).run.All (Quiet (emptyBucket b)) := by
  have record : ∀ b' k, ¬ ObjectFile b' k (Place.bucketMeta b).path := fun _ _ =>
    not_objectFile (fun _ _ h => by cases h) fun _ _ h => by cases h
  have settled := settled_emptyBucket b
  refine all_describeBucket settled.reads C quiet_uuid (quiet_removeBucket b) fun u =>
    settled.commits u (mayFill_of_short (Nat.le_refl 3)) (fun q hq => mayFill_of_short ?_)
      fun b' k h => absurd h (record b' k)
  exact hq.length_le.trans (Nat.le_succ 2)

theorem keepsLocks_createBucket (C : Crates) (b : String) : KeepsLocks []
    (createBucket C b).run := by
  refine .afterE (all_checkedBucketDir b) (returnsOk_checkedBucketDir b) (fun dir hdir => ?_)
    fun _ => rfl
  subst hdir
  -- A directory that could be made was not there, so there is nothing in it.
  have made : guarding.KeptBy Op.code
      (fun r a => a.1 = [(.bucket b, .exclusive)] ∧ (r = .ok () → a = emptyBucket b))
      (TokioFs.createDir (bucketDir b)).run ([(.bucket b, .exclusive)], none) := by
    refine .call (.call (S := sysSig OsName LockName) (o := .mkdir (bucketDir b))
      (mayFill_of_short (p := bucketDir b) (Nat.le_succ 2)) fun r a post => ?_)
    cases r with
    | error e =>
        rw [show a = _ from post]
        exact ⟨rfl, fun h => by cases h⟩
    | ok u =>
        rw [show a = _ from post, bucketAt_bucket]
        exact ⟨rfl, fun _ => by simp [learn]⟩
  refine keepsLocks_withLock (.bindLift made fun r a ha => ?_)
  cases r with
  | error e =>
      dsimp only
      split
      · exact .pure ha.1
      · exact .pure ha.1
  | ok u =>
      rw [ha.2 rfl]
      exact (Protocol.KeptBy.of_silent (quiet_describeBucket C b)).mono fun _ a ha => by rw [ha]

theorem quiet_tryExists {a : Sight} (p : Path OsName) : Quiet a (.call (.tryExists p)) := by
  refine Prog.All.bind (Prog.all_call ⟨trivial, fun _ _ post => post⟩) fun r => ?_
  cases r with
  | ok s => exact Prog.all_pure _
  | error e =>
      dsimp only
      split <;> exact Prog.all_pure _

/-- A look at the object tree that finds nothing. -/
theorem keeps_hasAnyEntry (b : String) : guarding.KeptBy Op.code
    (fun r a => a.1 = [(.bucket b, .exclusive)] ∧ (r = .ok false → a = emptyBucket b))
    (hasAnyEntry (objectsDir (bucketDir b))).run ([(.bucket b, .exclusive)], none) := by
  refine .bindLift (.call (.call (S := sysSig OsName LockName)
    (o := .readDir (objectsDir (bucketDir b))) trivial fun r a post => post)) fun r a ha => ?_
  rw [show a = _ from ha, objectsOf_objects]
  cases r with
  | error e =>
      dsimp only
      split
      · exact .pure ⟨rfl, fun _ => by simp [learn, noEntries, *]⟩
      · exact .pure ⟨rfl, fun h => by cases h⟩
  | ok entries => exact .pure ⟨rfl, fun h => by cases entries <;> simp_all [learn, noEntries]⟩

theorem keepsLocks_deleteBucket (b : String) : KeepsLocks [] (deleteBucket b).run := by
  refine .afterE (all_checkedBucketDir b) (returnsOk_checkedBucketDir b) (fun dir hdir => ?_)
    fun _ => rfl
  subst hdir
  refine keepsLocks_withLock
    (.afterE (A := fun _ => True) (.adapt (Prog.all_call (quiet_tryExists _)))
    (Prog.returns_of (fun _ _ _ => trivial) _) (fun found _ => ?_) fun _ => rfl)
  cases found with
  | false => exact .pure rfl
  | true =>
      refine .bindE (.adapt (B := fun r a =>
        a.1 = [(.bucket b, .exclusive)] ∧ (r = .ok false → a = emptyBucket b))
        ((keeps_hasAnyEntry b).mono fun r a ha => ⟨ha.1, fun h => ha.2 ?_⟩)) (fun any a ha => ?_)
        fun e a ha => ha.1
      · cases r with
        | error e => cases h
        | ok any => exact congrArg _ (Except.ok.inj h)
      · cases any with
        | true => exact .pure ha.1
        | false =>
            rw [ha.2 rfl]
            refine .afterLift (Prog.all_call (quiet_removeBucket b)) fun r => ?_
            cases r with
            | error e =>
                dsimp only
                split
                · exact .pure rfl
                · exact .pure rfl
            | ok u =>
                exact .adapt ((Protocol.KeptBy.of_silent ((readOnly_fsyncDir _).mono
                  (settled_emptyBucket b).reads)).mono fun _ a ha => by rw [ha])

theorem keepsLocks_listObjectsV2 (C : Crates) (b : String) (p : ListParams) :
    KeepsLocks [] (listObjectsV2 C b p).run := by
  refine .afterE (all_checkedBucketDir b) (returnsOk_checkedBucketDir b)
    (fun _ _ => ?_) fun _ => rfl
  exact keepsLocks_withLock ((keepsLocks_of_quiet ((readOnly_listLocked C b p).mono
    (settled_shared b).reads)).mono fun _ a ha => by rw [ha])

/-- Nothing under the staging directory is an object's. -/
theorem not_objectFile_under_staged {n : OsName} {q : Path OsName} (hq : n :: tmpDir <:+ q) :
    ¬ ObjectFile b k q := by
  intro hfile
  have inside : ∃ name, q = name :: (Place.object b k).path := by
    rcases hfile with rfl | rfl
    · exact ⟨_, rfl⟩
    · exact ⟨_, rfl⟩
  obtain ⟨name, rfl⟩ := inside
  rcases List.suffix_cons_iff.mp hq with heq | hsuf
  · exact not_objectFile_staged n (heq ▸ hfile)
  · have place : (Place.staged n).path <:+ (Place.object b k).path := hsuf
    rcases Place.suffix_object place with h | h | h | ⟨_, h⟩ <;> cases h

theorem keepsLocks_openEngine (C : Crates) : KeepsLocks [] (openEngine C).run := by
  have short : ∀ {p q : Path OsName}, p.length ≤ 3 → q <:+ p → MayFill ([], none) q :=
    fun hp hq => mayFill_of_short (hq.length_le.trans hp)
  have format : ∀ b k, ¬ ObjectFile b k Place.format.path := fun _ _ =>
    not_objectFile (fun _ _ h => by cases h) fun _ _ h => by cases h
  refine keepsLocks_of_quiet (all_openEngine settled_nil.reads C quiet_uuid
    (settled_nil.createDirAll fun q => short (by decide))
    (settled_nil.createDirAll fun q => short (by decide))
    (fun n => settled_nil.removeDirAll fun q b k hq h => absurd h (not_objectFile_under_staged hq))
    (fun n => quiet_removeFile fun b k h => absurd h (not_objectFile_staged n))
    fun u => settled_nil.commits u (mayFill_of_short (by decide)) (fun q => short (by decide))
      fun b k h => absurd h (format b k))

/-- Every method keeps to its locks. -/
theorem serve_guarded (C : Crates) (r : Req) :
    guarding.KeptBy Op.code (fun _ _ => True) (serve C r) ([], none) := by
  have reading : ∀ {α : Type} {p : EngineProg α}, ReadOnly p → KeepsLocks [] p := fun h =>
    keepsLocks_of_quiet (h.mono settled_nil.reads)
  have run : ∀ {α : Type} {x : EngineM α} {f : α → EngineM Answer}, KeepsLocks [] x.run →
      (∀ y a, guarding.KeptBy Op.code (fun _ _ => True) (f y).run a) →
      guarding.KeptBy Op.code (fun _ _ => True) (x >>= f).run ([], none) := fun hx hf =>
    .bindE hx (fun y a _ => hf y a) fun _ _ _ => trivial
  cases r with
  | openEngine => exact run (keepsLocks_openEngine C) fun _ _ => .pure trivial
  | createBucket b => exact run (keepsLocks_createBucket C b) fun _ _ => .pure trivial
  | deleteBucket b => exact run (keepsLocks_deleteBucket b) fun _ _ => .pure trivial
  | putObject b k body opts =>
      exact run (keepsLocks_putObject C b k body opts) fun _ _ => .pure trivial
  | deleteObject b k => exact run (keepsLocks_deleteObject b k) fun _ _ => .pure trivial
  | listObjectsV2 b p => exact run (keepsLocks_listObjectsV2 C b p) fun _ _ => .pure trivial
  | bucketExists b => exact run (reading (readOnly_bucketExists b)) fun _ _ => .pure trivial
  | listBuckets => exact run (reading (readOnly_listBuckets C)) fun _ _ => .pure trivial
  | getObject b k range =>
      exact run (reading (readOnly_getObject C b k range)) fun _ _ => .pure trivial
  | headObject b k => exact run (reading (readOnly_headObject C b k)) fun _ _ => .pure trivial

end Methods

/-! ## Runs -/

section Runs

variable {env : Env OsName} {C : Crates} {w : World OsName} {ls : List Label} {s s' : Pool}
  {b k : String} {p : Path OsName}

theorem Pool.sighted_of_run (calm : ∀ l ∈ ls, l.Calm)
    (hs : (Pool.init w).run env C ls = some s) : ∃ seen, s.Sighted seen :=
  Pool.sighted_run (serve_guarded C) calm (Pool.sighted_init w) hs

/-- The files of a key change only in a step of a task that holds the lock of the key exclusively,
and the lock of its bucket shared. -/
theorem object_changes_locked (calm : ∀ l ∈ ls, l.Calm)
    (hs : (Pool.init w).run env C ls = some s) {label : Label}
    (hnext : s.next env C label = some s')
    (hp : ObjectFile b k p) (hchange : s'.world.tree.fileAt p ≠ s.world.tree.fileAt p) :
    ∃ t addr fault, label = .step t addr fault ∧ (s.tasks t).Holds (.key b k) .exclusive ∧
      (s.tasks t).Holds (.bucket b) .shared := by
  obtain ⟨_, sighted⟩ := Pool.sighted_of_run calm hs
  exact sighted.change hnext hp hchange

/-- The rename that publishes the data of a `PUT`. -/
theorem object_changes_locked_put : ∃ s s',
    (Pool.init (World.empty OsName)).run sampleEnv sampleCrates (putLocks ++ steps 1 21) = some s ∧
    s.next sampleEnv sampleCrates (.step 1 0 none) = some s' ∧
    s'.world.tree.fileAt (Place.data "abc" "k").path = some (utf8 "b") ∧
    (s.tasks 1).Holds (.key "abc" "k") .exclusive := by
  have hrun : ((Pool.init (World.empty OsName)).run sampleEnv sampleCrates
      (putLocks ++ steps 1 21)).any (fun s =>
        (s.next sampleEnv sampleCrates (.step 1 0 none)).any fun s' => decide
          (s.world.tree.fileAt (Place.data "abc" "k").path = none ∧
            s'.world.tree.fileAt (Place.data "abc" "k").path = some (utf8 "b"))) = true := by
    decide +kernel
  obtain ⟨s, hs, hend⟩ := (Option.any_eq_true ..).mp hrun
  obtain ⟨s', hs', hend⟩ := (Option.any_eq_true ..).mp hend
  obtain ⟨before, after⟩ := of_decide_eq_true hend
  have calm : ∀ l ∈ putLocks ++ steps 1 21, l.Calm := by decide +kernel
  have changed : s'.world.tree.fileAt (Place.data "abc" "k").path ≠
      s.world.tree.fileAt (Place.data "abc" "k").path := by simp [before, after]
  obtain ⟨t, addr, fault, heq, holds, -⟩ := object_changes_locked calm hs hs' (.inr rfl) changed
  cases heq
  exact ⟨s, s', hs, hs', after, holds⟩

/-! ### What a lock keeps out -/

/-- A step in which a task does nothing, and is not killed. -/
def Label.Spares (t : TaskId) : Label → Prop
  | .step u _ _ => u ≠ t
  | .kill => False
  | _ => True

instance decidableSpares (t : TaskId) : DecidablePred (Label.Spares t)
  | .step u _ _ => inferInstanceAs (Decidable (u ≠ t))
  | .kill => isFalse id
  | .start _ _ | .grant _ | .drop _ | .orphan _ _ | .clock _ => isTrue trivial

/-- A task that takes no step stays where it is. -/
theorem Pool.Sighted.next_spares {seen : TaskId → Option String} (h : s.Sighted seen) {t : TaskId}
    {label : Label} (calm : label.Calm) (spares : label.Spares t) (busy : s.tasks t ≠ .idle)
    (hs : s.next env C label = some s') : s'.tasks t = s.tasks t := by
  cases label with
  | start u r =>
      have tasks := (Pool.start_cases hs).2.2.2
      have hne : t ≠ u := by
        rintro rfl
        exact busy (Pool.start_idle hs)
      rw [tasks, Function.update_of_ne hne]
  | step u addr fault =>
      obtain ⟨-, -, task, -, tasks, -⟩ := Pool.taskStep_cases hs
      rw [tasks, Function.update_of_ne (Ne.symm spares)]
  | grant addr =>
      obtain ⟨_, -, rfl⟩ := Option.map_eq_some_iff.mp hs
      rfl
  | drop u => exact calm.elim
  | orphan i fault =>
      change s.orphan env i fault = some s' at hs
      rw [Pool.orphan, h.orphans] at hs
      cases hs
  | clock now =>
      cases hs
      rfl
  | kill => exact spares.elim

/-- The locks that keep others from changing the files of a key. -/
def Task.Shields (task : Task) (b k : String) : Prop :=
  task.Holds (.key b k) .exclusive ∨ task.Holds (.bucket b) .exclusive

theorem Task.Shields.busy {task : Task} (h : task.Shields b k) : task ≠ .idle := by
  rintro rfl
  rcases h with h | h <;> cases h

/-- Two tasks cannot both be shielded from each other and change the files. -/
theorem Pool.Inv.shields (inv : s.Inv) {t u : TaskId} (ht : (s.tasks t).Shields b k)
    (hu : KeyLocked (s.tasks u).held b k) : u = t := by
  have holds : ∀ {v l m}, (l, m) ∈ (s.tasks v).held → s.locks.Holds v l m := fun h =>
    (inv.holds_iff _ _).mp h
  rcases ht with ht | ht
  · exact (inv.ok.exclusive (holds ht) (holds hu.1)).1
  · exact (inv.ok.exclusive (holds ht) (holds hu.2)).1

theorem Pool.Sighted.run_spares {t : TaskId} : ∀ {ls : List Label} {s : Pool}
    {seen : TaskId → Option String}, s.Sighted seen → (∀ l ∈ ls, l.Calm ∧ l.Spares t) →
      (s.tasks t).Shields b k → s.run env C ls = some s' → ObjectFile b k p →
      s'.world.tree.fileAt p = s.world.tree.fileAt p
  | [], _, _, _, _, _, hs, _ => by
      cases hs
      rfl
  | label :: ls, s, _, h, hall, shields, hs, hp => by
      obtain ⟨s₁, hs₁, hs⟩ := Option.bind_eq_some_iff.mp hs
      obtain ⟨calm, spares⟩ := hall label List.mem_cons_self
      have same : s₁.tasks t = s.tasks t := h.next_spares calm spares shields.busy hs₁
      have step : s₁.world.tree.fileAt p = s.world.tree.fileAt p := by
        by_contra hchange
        obtain ⟨u, addr, fault, rfl, hu⟩ := h.change hs₁ hp hchange
        exact spares (h.locks.shields shields hu)
      obtain ⟨_, h₁⟩ := h.next calm (serve_guarded C) hs₁
      rw [← step]
      exact h₁.run_spares (fun l hl => hall l (List.mem_cons_of_mem _ hl)) (same ▸ shields) hs hp

/-- While a task holds the lock of a key, or has the key's bucket to itself, whatever the others do
in the meantime leaves the files of the key as they are. -/
theorem locked_files_stable {more : List Label} {t : TaskId} (calm : ∀ l ∈ ls, l.Calm)
    (hs : (Pool.init w).run env C ls = some s) (ht : (s.tasks t).Shields b k)
    (hmore : ∀ l ∈ more, l.Calm ∧ l.Spares t) (hs' : s.run env C more = some s')
    (hp : ObjectFile b k p) : s'.world.tree.fileAt p = s.world.tree.fileAt p := by
  obtain ⟨_, sighted⟩ := Pool.sighted_of_run calm hs
  exact sighted.run_spares hmore ht hs' hp

/-- A `DELETE` of the key gets the bucket's lock, and has to wait for the key's. -/
def deleteWaits : List Label :=
  [.start 2 (.deleteObject "abc" "k")] ++ steps 2 5 ++ [.grant 0] ++ steps 2 1 ++
    List.replicate 2 (.step 2 1 none)

theorem locked_files_stable_delete : ∃ s s',
    (Pool.init (World.empty OsName)).run sampleEnv sampleCrates (putLocks ++ steps 1 22) = some s ∧
    s.run sampleEnv sampleCrates deleteWaits = some s' ∧
    s.world.tree.fileAt (Place.data "abc" "k").path = some (utf8 "b") ∧
    s'.world.tree.fileAt (Place.data "abc" "k").path = some (utf8 "b") := by
  have hrun : ((Pool.init (World.empty OsName)).run sampleEnv sampleCrates
      (putLocks ++ steps 1 22)).any (fun s =>
        (s.run sampleEnv sampleCrates deleteWaits).isSome && decide
          (s.world.tree.fileAt (Place.data "abc" "k").path = some (utf8 "b") ∧
            (.key "abc" "k", .exclusive) ∈ locksOf (s.tasks 1).locals.owned)) = true := by
    decide +kernel
  obtain ⟨s, hs, hend⟩ := (Option.any_eq_true ..).mp hrun
  obtain ⟨hsome, hend⟩ := (Bool.and_eq_true ..).mp hend
  obtain ⟨s', hs'⟩ := Option.isSome_iff_exists.mp hsome
  obtain ⟨before, holds⟩ := of_decide_eq_true hend
  have calm : ∀ l ∈ putLocks ++ steps 1 22, l.Calm := by decide +kernel
  have spares : ∀ l ∈ deleteWaits, l.Calm ∧ l.Spares 1 := by decide +kernel
  have stable := locked_files_stable calm hs (.inl holds) spares hs' (.inr rfl)
  exact ⟨s, s', hs, hs', before, stable.trans before⟩

end Runs

end Aks3.Engine
