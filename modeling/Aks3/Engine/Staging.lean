import Aks3.Engine.LockUse
import Aks3.Engine.Opening
import Aks3.Lib.Ledger

/-!
# Staged files

A file in the staging directory belongs to the request that created it, until the request renames
it away or removes it. The account of a request is the files it has to see to (`staging`), and every
method ends with none (`kept_serve`), whatever fails and wherever it stops; so do the destructors a
dropped request leaves behind (`kept_cleanup`). Over a run of the pool, then, whatever is in the
staging directory and was not there before is on some request's account (`Staged.run`).
-/

set_option autoImplicit false

namespace Aks3.Engine

open Lib

/-! ## The account of a request -/

/-- The call puts nothing into the staging directory. -/
def KeepsOut (o : Sys OsName LockName) : Prop := ∀ n, ¬ o.Makes (n :: tmpDir)

/-- The files a request has to see to: a file is one of them from its creation on, until it was
renamed or its destructor ran. -/
def staging : Ledger engineSig (Multiset (Path OsName)) where
  allowed
    | .call (.openNew _) => True
    | .call c => c.code.All KeepsOut
    | .prim o => KeepsOut o
  entry
    | .call (.openNew p), .ok _, F => p ::ₘ F
    | .call (.rename src _), .ok _, F => F.erase src
    | .prim (.unlink p), _, F => F.erase p
    | _, _, F => F

/-- The method ends with as many files to see to as it began with. -/
abbrev Tidy {α : Type} (p : EngineProg α) : Prop :=
  ∀ F, staging.Kept (fun _ F' => F' = F) p F

theorem keepsOut_of_peeks (o : Sys OsName LockName) (h : Peeks o) : KeepsOut o := by
  cases o <;> first | exact h.elim | exact fun _ => id

theorem neutral_of_reads (o : Op) (h : Reads o) : staging.Neutral o := by
  have code := all_code_of_reads keepsOut_of_peeks o h
  cases o with
  | prim s => cases s <;> first | exact h.elim | exact ⟨fun _ => id, fun _ _ => rfl⟩
  | call c => cases c <;> first | exact h.elim | exact ⟨code, fun _ _ => rfl⟩

theorem neutral_lock (l : LockName) (step : LockStep) : staging.Neutral (.prim (.lock l step)) :=
  ⟨fun _ => id, fun _ _ => rfl⟩

theorem neutral_uuid : staging.Neutral (.prim .uuid) := ⟨fun _ => id, fun _ _ => rfl⟩

theorem all_sys {o : Sys OsName LockName} (h : KeepsOut o) :
    (Prog.call (S := sysSig OsName LockName) o).All KeepsOut :=
  ⟨h, fun _ => trivial⟩

theorem neutral_writeAll (p : Path OsName) (bytes : Bytes) :
    staging.Neutral (.call (.writeAll p bytes)) :=
  ⟨all_sys (o := .append p bytes) fun _ => id, fun _ _ => rfl⟩

theorem neutral_syncAll (p : Path OsName) : staging.Neutral (.call (.syncAll p)) :=
  ⟨all_sys (o := .syncFile p) fun _ => id, fun _ _ => rfl⟩

theorem neutral_removeFile (p : Path OsName) : staging.Neutral (.call (.removeFile p)) :=
  ⟨all_sys (o := .unlink p) fun _ => id, fun _ _ => rfl⟩

theorem neutral_removeDir (p : Path OsName) : staging.Neutral (.call (.removeDir p)) :=
  ⟨all_sys (o := .rmdir p) fun _ => id, fun _ _ => rfl⟩

theorem neutral_removeDirAll (p : Path OsName) : staging.Neutral (.call (.removeDirAll p)) :=
  ⟨StdFs.all_removeDirAll (P := KeepsOut) (fun _ => id) fun _ _ =>
    ⟨fun _ => id, fun _ => id, fun _ => id⟩, fun _ _ => rfl⟩

/-! ## Rules -/

section Rules

variable {α β ε : Type} {F : Multiset (Path OsName)} {p : EngineProg α}
  {x : ExceptT ε EngineProg α}

theorem Tidy.of_neutral (h : p.All staging.Neutral) : Tidy p := fun _ => .of_neutral h

theorem Tidy.of_reads (h : ReadOnly p) : Tidy p := .of_neutral (h.mono neutral_of_reads)

theorem Tidy.prim {o : Sys OsName LockName} (h : staging.Neutral (.prim o)) : Tidy (prim o) :=
  .of_neutral (Prog.all_call h)

theorem Tidy.await {c : Call} (h : staging.Neutral (.call c)) : Tidy (await c) :=
  .of_neutral (Prog.all_call h)

/-- What comes after a tidy step begins with the same account. -/
theorem Tidy.then {f : α → EngineProg β} {P : β → Multiset (Path OsName) → Prop} (hp : Tidy p)
    (hf : ∀ a, staging.Kept P (f a) F) : staging.Kept P (p >>= f) F :=
  .bind (hp F) fun a _ hF => hF ▸ hf a

theorem Tidy.thenE {f : α → ExceptT ε EngineProg β}
    {P : Except ε β → Multiset (Path OsName) → Prop} (hx : Tidy x.run)
    (hf : ∀ a, staging.Kept P (f a).run F) (he : ∀ e, P (.error e) F) :
    staging.Kept P (x >>= f).run F :=
  .bindE (hx F) (fun a _ hF => hF ▸ hf a) fun e _ hF => hF ▸ he e

/-- The continuation may count on a property of the result. -/
theorem Tidy.thenE_of {A : α → Prop} {f : α → ExceptT ε EngineProg β}
    {P : Except ε β → Multiset (Path OsName) → Prop} (hx : Tidy x.run) (ha : Prog.ReturnsOk A x)
    (hf : ∀ a, A a → staging.Kept P (f a).run F) (he : ∀ e, P (.error e) F) :
    staging.Kept P (x >>= f).run F :=
  .bindE ((hx F).with_returns ha) (fun a _ h => h.1 ▸ hf a (h.2 a rfl)) fun e _ h => h.1 ▸ he e

theorem Tidy.thenLift {f : α → ExceptT ε EngineProg β}
    {P : Except ε β → Multiset (Path OsName) → Prop} (hp : Tidy p)
    (hf : ∀ a, staging.Kept P (f a).run F) : staging.Kept P (ExceptT.lift p >>= f).run F :=
  .bindLift (hp F) fun a _ hF => hF ▸ hf a

theorem Tidy.adapt {ε' : Type} {f : ε → ε'} (hx : Tidy x.run) : Tidy (ExceptT.adapt f x).run :=
  fun F => .adapt (hx F)

/-- A lock is no file. -/
theorem kept_withLock {Q : α → Multiset (Path OsName) → Prop} (hp : staging.Kept Q p F)
    (l : LockName) (m : Mode) : staging.Kept Q (withLock l m p) F := by
  have lock : ∀ step, Tidy (Engine.prim (.lock l step)) := fun step => .prim (neutral_lock l step)
  refine (lock _).then fun _ => (lock _).then fun _ => .bind hp fun a F' ha => ?_
  exact (lock _).then fun _ => (lock _).then fun _ => ha

end Rules

/-! ## The methods end with nothing to see to -/

section Methods

variable {F : Multiset (Path OsName)}

/-- What a request has to see to once a staged file was, or was not, created. -/
def created (F : Multiset (Path OsName)) : Except IoError StagedFile → Multiset (Path OsName)
  | .ok f => f.path ::ₘ F
  | .error _ => F

/-- What a request has to see to once a staged file was, or was not, renamed. -/
def published {α : Type} (p : Path OsName) (F : Multiset (Path OsName)) :
    Except IoError α → Multiset (Path OsName)
  | .ok _ => F.erase p
  | .error _ => F

theorem kept_create (tmp : Path OsName) :
    staging.Kept (fun r F' => F' = created F r) (StagedFile.create tmp).run F := by
  refine (Tidy.prim neutral_uuid).thenLift fun u => ⟨trivial, fun r => ?_⟩
  cases r <;> rfl

theorem kept_drop (f : StagedFile) : staging.Kept (fun _ F' => F' = F.erase f.path) f.drop F :=
  ⟨fun _ => id, fun _ => rfl⟩

/-- A path of the buckets is not in the staging directory. -/
theorem not_staged {q : Path OsName} (h : bucketsDir <:+ q) (n : OsName) : ¬ n :: tmpDir <:+ q := by
  intro hn
  have top : ∀ {p : Path OsName}, p <:+ q → p ≠ [] → p.getLast? = q.getLast? := by
    rintro p ⟨pre, rfl⟩ hp
    rw [List.getLast?_append_of_ne_nil _ hp]
  have same : bucketsDir.getLast? = (n :: tmpDir).getLast? :=
    (top h (by decide)).trans (top hn (List.cons_ne_nil _ _)).symm
  exact absurd same (by decide : some BUCKETS_DIR ≠ some AKS3_DIR)

section Publish

variable (f : StagedFile) {m : OsName} {dir : Path OsName} (hd : bucketsDir <:+ dir)
include hd

theorem kept_publish :
    staging.Kept (fun r F' => F' = published f.path F r) (f.publish (m :: dir)).run F := by
  have made : staging.Neutral (.call (.createDirAll dir)) :=
    ⟨StdFs.all_createDirAll (P := KeepsOut) (fun _ _ => id) fun _ _ hq n he =>
      not_staged hd n (he ▸ hq), fun _ _ => rfl⟩
  have out : KeepsOut (.rename f.path (m :: dir)) := fun n he =>
    not_staged (hd.trans (List.suffix_cons m dir)) n (he ▸ List.suffix_rfl)
  refine Tidy.thenE (.await (neutral_syncAll f.path)) (fun _ => ?_) fun _ => rfl
  refine Tidy.thenLift (.of_reads (readOnly_dirsToSync dir)) fun dirs => ?_
  refine Tidy.thenE (.await made) (fun _ => ?_) fun _ => rfl
  refine ⟨all_sys out, fun r => ?_⟩
  cases r <;> rfl

theorem kept_commit : staging.Kept (fun _ F' => F' = F.erase f.path)
    (f.commit (m :: dir)).run F := by
  refine .bind (kept_publish f hd) fun r F' hF => ?_
  cases r with
  | error e =>
      subst hF
      exact .bind (kept_drop f) fun _ _ h => h
  | ok dirs =>
      subst hF
      exact Tidy.of_reads (readOnly_syncDirs dirs) _

omit f in
/-- A file that was created and then renamed or removed leaves the account as it was. -/
theorem tidy_writeJsonAtomic (bytes : Bytes) :
    Tidy (writeJsonAtomic tmpDir (m :: dir) bytes).run := by
  intro F
  refine .bindE (kept_create tmpDir) (fun f F' hF => ?_) fun _ _ hF => hF
  have taken : F'.erase f.path = F := hF ▸ Multiset.erase_cons_head f.path F
  refine Tidy.thenLift (.await (neutral_writeAll f.path bytes)) fun r => ?_
  cases r with
  | error e => exact .bindLift (kept_drop f) fun _ _ h => h.trans taken
  | ok u => exact (kept_commit f hd).mono fun _ _ h => h.trans taken

end Publish

theorem tidy_stageBody (f : StagedFile) : ∀ (body : ByteStream) (d : Digest),
    Tidy (stageBody f d body).run
  | [], _ => fun _ => Tidy.thenLift (.prim (neutral_of_reads _ trivial)) fun _ => rfl
  | .error _ :: _, _ => fun _ => Tidy.thenLift (.prim (neutral_of_reads _ trivial)) fun _ => rfl
  | .ok chunk :: body, d => fun F =>
      Tidy.thenLift (.prim (neutral_of_reads _ trivial)) fun _ =>
        Tidy.thenE (.await (neutral_writeAll f.path chunk))
          (fun _ => tidy_stageBody f body (d.update chunk) F) fun _ => rfl

theorem buckets_suffix_objectDir (b k : String) : bucketsDir <:+ objectDir (bucketDir b) k :=
  ((List.suffix_cons _ _).trans (List.suffix_cons _ _)).trans
    (List.suffix_append _ _ : objectsDir (bucketDir b) <:+ objectDir (bucketDir b) k)

/-- The staged body is off the account unless the bucket is gone. -/
theorem kept_putLocked (C : Crates) (b k : String) (f : StagedFile) (e : VersionEntry) :
    staging.Kept (fun r F' => F' = match r with | .inl _ => F | .inr _ => F.erase f.path)
      (putLocked C b f (objectDir (bucketDir b) k) e) F := by
  have below := buckets_suffix_objectDir b k
  refine Tidy.then (.of_reads (readOnly_existingBucketDir b)) fun r => ?_
  cases r with
  | error e => exact rfl
  | ok d =>
      refine .map (.adapt (.bindE (kept_commit f below) (fun _ F' hF => ?_) fun _ _ h => h))
      subst hF
      refine Tidy.thenE (.of_reads (readOnly_loadManifest C _)) (fun m => ?_) fun _ => rfl
      exact tidy_writeJsonAtomic below _ _

theorem tidy_putObject (C : Crates) (b k : String) (body : ByteStream) (opts : PutOpts) :
    Tidy (putObject C b k body opts).run := by
  intro F
  refine Tidy.thenE_of (.of_reads (readOnly_existingBucketDir b)) (returnsOk_existingBucketDir b)
    (fun dir hdir => ?_) fun _ => rfl
  subst hdir
  refine .bindE (Q := fun r F' => F' = match r with | .ok f => f.path ::ₘ F | .error _ => F)
    (.adapt ((kept_create tmpDir).mono fun r _ h => ?_)) (fun f F' hF => ?_) fun _ _ hF => hF
  · cases r <;> exact h
  have taken : F'.erase f.path = F := hF ▸ Multiset.erase_cons_head f.path F
  refine Tidy.thenLift (tidy_stageBody f body _) fun r => ?_
  cases r with
  | error e => exact .bindLift (kept_drop f) fun _ _ h => h.trans taken
  | ok d =>
      refine Tidy.thenLift (.prim (neutral_of_reads _ trivial)) fun now => ?_
      refine .bindLift (kept_withLock (kept_withLock (kept_putLocked C b k f _) _ _) _ _)
        fun r F'' h => ?_
      cases r with
      | inl e =>
          subst h
          exact .bindLift (kept_drop f) fun _ _ h => h.trans taken
      | inr r => cases r <;> exact h.trans taken

theorem tidy_createBucketLocked (C : Crates) (b : String) :
    Tidy (createBucketLocked C (bucketDir b)).run := by
  intro F
  have out : KeepsOut (.mkdir (bucketDir b)) := fun n he =>
    not_staged (List.suffix_cons _ _ : bucketsDir <:+ bucketDir b) n (he ▸ List.suffix_rfl)
  have made : staging.Neutral (.call (.createDir (bucketDir b))) := ⟨all_sys out, fun _ _ => rfl⟩
  have rest : Tidy (describeBucket C (bucketDir b)).run := by
    intro F
    refine Tidy.thenLift (.prim (neutral_of_reads _ trivial)) fun now => ?_
    refine Tidy.thenLift (tidy_writeJsonAtomic (List.suffix_cons _ _) _) fun r => ?_
    cases r with
    | error e => exact Tidy.thenLift (.await (neutral_removeDirAll _)) fun _ => rfl
    | ok u => exact Tidy.adapt (.of_reads (readOnly_fsyncDir bucketsDir)) F
  refine Tidy.thenLift (.await made) fun r => ?_
  cases r with
  | error e =>
      dsimp only
      split
      · exact rfl
      · exact rfl
  | ok u => exact rest F

theorem tidy_createBucket (C : Crates) (b : String) : Tidy (createBucket C b).run := fun F =>
  Tidy.thenE_of (.of_reads (readOnly_checkedBucketDir b)) (returnsOk_checkedBucketDir b)
    (fun dir hdir => by
      subst hdir
      exact kept_withLock (tidy_createBucketLocked C b F) _ _)
    fun _ => rfl

theorem tidy_deleteBucket (b : String) : Tidy (deleteBucket b).run :=
  .of_neutral (all_deleteBucket neutral_of_reads neutral_lock (neutral_removeDirAll _))

theorem tidy_deleteObject (b k : String) : Tidy (deleteObject b k).run :=
  .of_neutral (all_deleteObject neutral_of_reads neutral_lock (neutral_removeFile _)
    (neutral_removeFile _) fun q _ _ _ => neutral_removeDir q)

theorem tidy_listObjectsV2 (C : Crates) (b : String) (p : ListParams) :
    Tidy (listObjectsV2 C b p).run := fun F =>
  Tidy.thenE (.of_reads (readOnly_checkedBucketDir b))
    (fun _ => kept_withLock (Tidy.of_reads (readOnly_listLocked C b p) F) _ _) fun _ => rfl

/-- **A request that ends has nothing left to see to, whatever it was answered on the way.** -/
theorem tidy_serve (C : Crates) {r : Req} (h : r ≠ .openEngine) : Tidy (serve C r) := by
  have answer : ∀ {α : Type} {x : EngineM α} {f : α → Answer}, Tidy x.run →
      Tidy (do pure (f (← x)) : EngineM Answer).run := fun hx F =>
    hx.thenE (fun _ => rfl) fun _ => rfl
  cases r with
  | openEngine => exact absurd rfl h
  | createBucket b => exact answer (tidy_createBucket C b)
  | deleteBucket b => exact answer (tidy_deleteBucket b)
  | bucketExists b => exact answer (.of_reads (readOnly_bucketExists b))
  | listBuckets => exact answer (.of_reads (readOnly_listBuckets C))
  | putObject b k body opts => exact answer (tidy_putObject C b k body opts)
  | getObject b k range => exact answer (.of_reads (readOnly_getObject C b k range))
  | headObject b k => exact answer (.of_reads (readOnly_headObject C b k))
  | deleteObject b k => exact answer (tidy_deleteObject b k)
  | listObjectsV2 b p => exact answer (tidy_listObjectsV2 C b p)

end Methods

/-! ## Locals -/

/-- The files among locals. -/
def filesOf : List Owned → Multiset (Path OsName)
  | [] => 0
  | .file p :: owned => p ::ₘ filesOf owned
  | .lock _ _ :: owned => filesOf owned

def Locals.files (loc : Locals) : Multiset (Path OsName) := filesOf loc.owned

theorem filesOf_erase_file (p : Path OsName) : ∀ owned : List Owned,
    filesOf (owned.erase (.file p)) = (filesOf owned).erase p
  | [] => rfl
  | .lock l m :: owned => by
      rw [List.erase_cons_tail (by simp)]
      exact filesOf_erase_file p owned
  | .file q :: owned => by
      by_cases hq : q = p
      · subst hq
        rw [List.erase_cons_head, filesOf, Multiset.erase_cons_head]
      · have other : ¬ (Owned.file q == .file p) = true := by simpa using hq
        rw [List.erase_cons_tail other, filesOf, filesOf, filesOf_erase_file p owned,
          Multiset.erase_cons_tail _ hq]

theorem filesOf_erase_lock (l : LockName) (m : Mode) : ∀ owned : List Owned,
    filesOf (owned.erase (.lock l m)) = filesOf owned
  | [] => rfl
  | o :: owned => by
      by_cases ho : o = .lock l m
      · subst ho
        rw [List.erase_cons_head]
        rfl
      · rw [List.erase_cons_tail (by simpa using ho)]
        cases o with
        | lock l' m' => exact filesOf_erase_lock l m owned
        | file p => exact congrArg (p ::ₘ ·) (filesOf_erase_lock l m owned)

theorem mem_filesOf {p : Path OsName} : ∀ {owned : List Owned}, .file p ∈ owned → p ∈ filesOf owned
  | .lock _ _ :: owned, h => by
      have rest : .file p ∈ owned := (List.mem_cons.mp h).resolve_left nofun
      change p ∈ filesOf owned
      exact mem_filesOf rest
  | .file _ :: _, h => by
      rcases List.mem_cons.mp h with he | h
      · rw [filesOf, Owned.file.inj he]
        exact Multiset.mem_cons_self _ _
      · exact Multiset.mem_cons_of_mem (mem_filesOf h)

theorem Locals.files_onReturn (loc : Locals) (c : Call) (r : c.Res) :
    (loc.onReturn c r).files = staging.entry (.call c) r loc.files := by
  cases c with
  | openNew p => cases r <;> rfl
  | rename src dst =>
      cases r with
      | error e => rfl
      | ok u => exact filesOf_erase_file src loc.owned
  | _ => rfl

theorem Locals.files_onPrim (loc : Locals) (o : Sys OsName LockName) (r : o.Res) :
    (loc.onPrim o).files = staging.entry (.prim o) r loc.files := by
  cases o with
  | unlink p => exact filesOf_erase_file p loc.owned
  | _ => rfl

/-- Committing a file changes the order of the locals only. -/
theorem Locals.files_onSubmit (loc : Locals) (c : Call) : (loc.onSubmit c).files = loc.files := by
  cases c with
  | syncAll p =>
      unfold Locals.onSubmit
      dsimp only
      split
      · rename_i hp
        change p ::ₘ filesOf (loc.owned.erase (.file p)) = filesOf loc.owned
        rw [filesOf_erase_file, Multiset.cons_erase (mem_filesOf hp)]
      · rfl
  | _ => rfl

/-- **The destructors of a dropped request see to all its files.** -/
theorem kept_cleanup (loc : Locals) : staging.Kept (fun _ F => F = 0) loc.cleanup loc.files := by
  have all : ∀ owned, staging.Kept (fun _ F => F = 0) (destructors owned) (filesOf owned) := by
    intro owned
    induction owned with
    | nil => exact rfl
    | cons o owned ih =>
        cases o with
        | lock l m =>
            exact Tidy.then (.of_neutral (.bind (Prog.all_call (neutral_lock l _)) fun _ =>
              Prog.all_call (neutral_lock l _))) fun _ => ih
        | file p =>
            refine ⟨fun _ => id, fun _ => ?_⟩
            change staging.Kept _ (destructors owned) ((p ::ₘ filesOf owned).erase p)
            rw [Multiset.erase_cons_head]
            exact ih
  unfold Locals.cleanup
  split
  · exact all loc.owned
  · exact Tidy.then (.prim (neutral_lock _ _)) fun _ => all loc.owned

/-! ## The tree -/

section Tree

variable {env : Env OsName} {w₀ w : World OsName} {q : Path OsName} {o : Sys OsName LockName}
  {fault : Option (IoError × Nat)} {x : o.Res × World OsName}

/-- What is at a path was not there before: not the same file, and not the same directory. -/
def Stray (w₀ w : World OsName) (q : Path OsName) : Prop :=
  ∃ y, w.tree.find q = some y ∧ ∀ z, w₀.tree.find q = some z → z.slot ≠ y.slot

/-- What is at a path is a file, and a call can name it. -/
def Removable (env : Env OsName) (w : World OsName) (q : Path OsName) : Prop :=
  Fit env.fits q ∧ ∃ i d, w.tree.find q = some (.file i d)

theorem callOrFault_slot (h : Pool.callOrFault env fault o w = some x) (ho : ¬ o.Makes q) {y : Node}
    (hy : x.2.tree.find q = some y) : ∃ z, w.tree.find q = some z ∧ z.slot = y.slot := by
  cases fault with
  | none =>
      cases h
      exact World.find_exec_slot env ho hy
  | some f =>
      obtain same | ⟨p, bs, he⟩ := World.execFault_world h
      · exact ⟨y, same ▸ hy, rfl⟩
      · exact World.find_exec_slot env (o := (.append p bs : Sys OsName LockName)) id (he ▸ hy)

/-- A call that puts nothing at a path makes no stray there, and does not make one a directory. -/
theorem Stray.of_call (h : Pool.callOrFault env fault o w = some x) (ho : ¬ o.Makes q)
    (hs : Stray w₀ x.2 q) : Stray w₀ w q ∧ (Removable env w q → Removable env x.2 q) := by
  obtain ⟨y, hy, new⟩ := hs
  obtain ⟨z, hz, slot⟩ := callOrFault_slot h ho hy
  refine ⟨⟨z, hz, fun z' hz' => slot ▸ new z' hz'⟩, ?_⟩
  rintro ⟨fits, i, d, hf⟩
  obtain rfl := Option.some.inj (hz.symm.trans hf)
  cases y with
  | file j d' => exact ⟨fits, j, d', hy⟩
  | dir j => cases slot

/-- A destructor that does not fail removes the stray. -/
theorem ne_of_unlink {n : OsName} {r p : Path OsName} (hq : Removable env w (n :: r))
    (hs : Stray w₀ (World.exec env (.unlink p : Sys OsName LockName) w).2 (n :: r)) :
    n :: r ≠ p := by
  rintro rfl
  obtain ⟨y, hy, -⟩ := hs
  obtain ⟨fits, i, d, hf⟩ := hq
  obtain ⟨k, hc, -, hu⟩ := Fs.unlink_ok fits hf
  change (w.fs.unlink env.fits (n :: r)).2.tree.find (n :: r) = some y at hy
  rw [hu, Fs.find_unlinkAt, if_pos rfl] at hy
  cases hy

/-- A file that was renamed is no stray any more. -/
theorem ne_of_rename {src dst : Path OsName} (hd : dst ≠ q) {u : Unit} {w' : World OsName}
    (h : Pool.callOrFault env fault (.rename src dst : Sys OsName LockName) w = some (.ok u, w'))
    (hs : Stray w₀ w' q) : q ≠ src := by
  rintro rfl
  obtain ⟨y, hy, -⟩ := hs
  cases fault with
  | some f => cases h
  | none =>
      have he : World.exec env (.rename q dst : Sys OsName LockName) w = (.ok u, w') :=
        Option.some.inj h
      have answer : (w.fs.rename env.fits q dst).1.mapError ErrorKind.os = .ok u :=
        congrArg Prod.fst he
      have after : (w.fs.rename env.fits q dst).2 = w'.fs := congrArg (fun x => x.2.fs) he
      rcases Fs.rename_cases env.fits w.fs q dst with
        ⟨n, p, i, m, r, k, a, d, fs', rfl, rfl, -, -, -, -, -, hm, hr⟩ | ⟨e, hr⟩
      · change w'.fs.tree.find (n :: p) = some y at hy
        rw [← after, hr, hm.find, if_neg (Ne.symm hd), if_pos rfl] at hy
        cases hy
      · rw [hr] at answer
        cases answer

/-- Creating a file makes a stray of it, which can be removed. -/
theorem Stray.of_createNew {p : Path OsName} {r : Except IoError Unit} {w' : World OsName}
    (h : Pool.callOrFault env fault (.createNew p : Sys OsName LockName) w = some (r, w'))
    (hs : Stray w₀ w' q) :
    (q = p ∧ r = .ok () ∧ Removable env w' q) ∨
      (Stray w₀ w q ∧ (Removable env w q → Removable env w' q)) := by
  by_cases hq : p = q
  · subst hq
    cases fault with
    | some f =>
        cases h
        exact .inr ⟨hs, id⟩
    | none =>
        have he : World.exec env (.createNew p : Sys OsName LockName) w = (r, w') :=
          Option.some.inj h
        have answer : (w.fs.createNew env.fits p).1.mapError ErrorKind.os = r :=
          congrArg Prod.fst he
        have after : (w.fs.createNew env.fits p).2 = w'.fs := congrArg (fun x => x.2.fs) he
        rcases Fs.createNew_cases env.fits w.fs p with
          ⟨n, d, i, hp, hx, rfl, fits, -, -, hr⟩ | ⟨e, hr⟩
        · rw [hr] at answer after
          refine .inl ⟨rfl, answer.symm, fits, w.fs.nextIno, [], ?_⟩
          change w'.fs.tree.find (n :: d) = _
          rw [← after, Fs.find_link, if_pos rfl]
        · rw [hr] at after
          have same : w'.tree = w.tree := congrArg Fs.tree after.symm
          unfold Stray at hs
          unfold Stray Removable
          rw [same] at hs ⊢
          exact .inr ⟨hs, id⟩
  · exact .inr (Stray.of_call h hq hs)

end Tree

end Aks3.Engine
