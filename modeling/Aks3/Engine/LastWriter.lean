import Aks3.Engine.Journal
import Aks3.Engine.ObjectLocks

/-!
# A confirmed write stands

`put_object` and `delete_object` do all they do to the files of a key under its lock, and answer
that they are done only if all of it was done. With the rule for runs this gives
`confirmed_write_stands`: from the time such a request is answered, and until another takes the
lock of the key, its files are as the request was to leave them, whatever other requests do
meanwhile and however often the process is killed and opened again.
-/

set_option autoImplicit false

namespace Aks3.Engine

open Lib

/-! ## Methods that keep a journal -/

section Rules

variable {Fine : Path OsName → Bytes → Prop} {j j' : Journal} {α : Type} {S S' : Path OsName → Prop}
  {p : Path OsName}

abbrev Journals (Fine : Path OsName → Bytes → Prop) (Q : α → Journal → Prop) (p : EngineProg α)
    (j : Journal) : Prop :=
  (journaling Fine).KeptBy Op.code Q p j

/-- The calls that leave the tables and the files of `S` as they are. -/
def Aloof (S : Path OsName → Prop) : Sys OsName LockName → Prop
  | .lock _ _ => False
  | .rename _ dst => ¬ S dst
  | .unlink p => ¬ S p
  | _ => True

/-- No lock is taken or given back, and the files of `S` are left as they are. -/
structure Journal.Keeps (S : Path OsName → Prop) (j j' : Journal) : Prop where
  held : j'.held = j.held
  left : j'.left = j.left
  files : ∀ p, S p → j'.files p = j.files p

theorem Journal.Keeps.refl (S : Path OsName → Prop) (j : Journal) : j.Keeps S j :=
  ⟨rfl, rfl, fun _ _ => rfl⟩

theorem Journal.Keeps.trans {j'' : Journal} (h : j.Keeps S j') (h' : j'.Keeps S j'') :
    j.Keeps S j'' :=
  ⟨h'.held.trans h.held, h'.left.trans h.left, fun p hp => (h'.files p hp).trans (h.files p hp)⟩

theorem Journal.Keeps.mono (h : j.Keeps S j') (hS : ∀ p, S' p → S p) : j.Keeps S' j' :=
  ⟨h.held, h.left, fun p hp => h.files p (hS p hp)⟩

/-- Only the locks matter. -/
theorem Journal.Keeps.locks (h : j.Keeps S j') : j.Keeps (fun _ => False) j' :=
  h.mono fun _ => False.elim

theorem Aloof.mayLock {o : Sys OsName LockName} (h : Aloof S o) (j : Journal) : j.MayLock o := by
  cases o with
  | lock l step => exact h.elim
  | _ => trivial

theorem Aloof.keeps {o : Sys OsName LockName} {r : o.Res} (h : Aloof S o)
    (post : (journaling Fine).post j o r j') : j.Keeps S j' := by
  obtain ⟨-, held, files, left⟩ := post
  have away : ∀ {q : Path OsName} {y : Option (Option Bytes)}, ¬ S q → ∀ p, S p →
      Function.update j.files q y p = j.files p := by
    rintro q y hq p hp
    refine Function.update_of_ne ?_ _ _
    rintro rfl
    exact hq hp
  cases o with
  | lock l step => exact h.elim
  | rename src dst => cases r <;> exact ⟨held, left, fun p hp => files ▸ away h p hp⟩
  | unlink q => cases r <;> exact ⟨held, left, fun p hp => files ▸ away h p hp⟩
  | _ => exact ⟨held, left, fun p _ => by rw [files]; rfl⟩

/-- What a method publishes it publishes with a journal too, which is kept as `Rel` says if every
call does. -/
theorem kept_journaling {P : Sys OsName LockName → Prop} {Rel : Journal → Journal → Prop}
    {Q : α → Stakes → Prop} (refl : ∀ j, Rel j j)
    (trans : ∀ j₁ j₂ j₃, Rel j₁ j₂ → Rel j₂ j₃ → Rel j₁ j₃)
    (may : ∀ (j : Journal) o, P o → j.MayLock o)
    (step : ∀ j o r j', P o → (journaling Fine).post j o r j' → Rel j j') {p : WalkProg α}
    (h : (publishing Fine).Kept Q p j.stakes) (hp : p.All P) :
    (journaling Fine).Kept (fun x j' => Q x j'.stakes ∧ Rel j j') p j := by
  induction p generalizing j with
  | pure a => exact ⟨h, refl j⟩
  | op o k ih =>
      refine ⟨⟨h.1, may j o hp.1⟩, fun r j' post => ?_⟩
      exact (ih r (h.2 r _ post.1) (hp.2 r)).mono fun x j'' hx =>
        ⟨hx.1, trans _ _ _ (step j o r j' hp.1 post) hx.2⟩

/-- The operations that leave the tables and the files of `S` as they are. -/
def Aside (S : Path OsName → Prop) (o : Op) : Prop := o.code.All (Aloof S)

theorem Journals.of_publishes {Q : α → Stakes → Prop} {p : EngineProg α}
    (h : Publishes Fine Q p j.stakes) (hp : p.All (Aside S)) :
    Journals Fine (fun x j' => Q x j'.stakes ∧ j.Keeps S j') p j :=
  kept_journaling (Journal.Keeps.refl S) (fun _ _ _ => Journal.Keeps.trans)
    (fun j _ ho => ho.mayLock j) (fun _ _ _ _ ho => ho.keeps) h hp.interp

theorem aloof_of_peeks (o : Sys OsName LockName) (h : Peeks o) : Aloof S o := by
  cases o <;> first | exact h.elim | trivial

theorem aside_of_reads (o : Op) (h : Reads o) : Aside S o := all_code_of_reads aloof_of_peeks o h

theorem aside_stages (hp : ¬ S p) : Stages (Aside S) p where
  openNew := Prog.all_call trivial
  writeAll _ := Prog.all_call trivial
  syncAll := Prog.all_call trivial
  unlink := Prog.all_call hp

/-! ### Operations of which nothing is noted -/

def Unnoted (o : Op) : Prop := ∀ Fine j, o.code.All ((journaling Fine).Silent j)

theorem silent_journaling {o : Sys OsName LockName} (silent : (publishing Fine).Silent j.stakes o)
    (aloof : Aloof (fun _ => True) o) : (journaling Fine).Silent j o := by
  refine ⟨⟨silent.1, aloof.mayLock j⟩, fun r j' post => ?_⟩
  have keeps := aloof.keeps post
  have stakes := silent.2 r j'.stakes post.1
  have files : j'.files = j.files := funext fun p => keeps.files p trivial
  cases j
  cases j'
  cases keeps.held
  cases keeps.left
  cases stakes
  cases files
  rfl

theorem unnoted_of_reads (o : Op) (h : Reads o) : Unnoted o := fun _ _ =>
  all_code_of_reads (fun s hs => silent_journaling (silent_of_peeks s hs) (aloof_of_peeks s hs)) o h

theorem unnoted_syncAll (p : Path OsName) : Unnoted (.call (.syncAll p)) := fun _ _ =>
  Prog.all_call (silent_journaling ⟨trivial, fun _ _ post => post⟩ trivial)

theorem unnoted_removeDir (p : Path OsName) : Unnoted (.call (.removeDir p)) := fun _ _ =>
  Prog.all_call (silent_journaling ⟨trivial, fun _ _ post => post⟩ trivial)

theorem unnoted_createDirAll (p : Path OsName) : Unnoted (.call (.createDirAll p)) := fun _ _ =>
  StdFs.all_createDirAll (fun _ => silent_journaling ⟨trivial, fun _ _ post => post⟩ trivial)
    fun _ _ _ => silent_journaling ⟨trivial, fun _ _ post => post⟩ trivial

theorem Journals.after {β : Type} {p : EngineProg α} {f : α → EngineProg β} {Q : β → Journal → Prop}
    (h : p.All Unnoted) (hf : ∀ x, Journals Fine Q (f x) j) : Journals Fine Q (p >>= f) j :=
  Protocol.KeptBy.after (h.mono fun _ ho => ho Fine j) hf

theorem Journals.afterLift {β ε : Type} {p : EngineProg α} {f : α → ExceptT ε EngineProg β}
    {Q : Except ε β → Journal → Prop} (h : p.All Unnoted) (hf : ∀ x, Journals Fine Q (f x).run j) :
    Journals Fine Q (ExceptT.lift p >>= f).run j :=
  Protocol.KeptBy.afterLift (h.mono fun _ ho => ho Fine j) hf

theorem Journals.afterE {β ε : Type} {x : ExceptT ε EngineProg α} {f : α → ExceptT ε EngineProg β}
    {A : α → Prop} {Q : Except ε β → Journal → Prop} (h : x.run.All Unnoted)
    (ha : Prog.ReturnsOk A x) (hf : ∀ y, A y → Journals Fine Q (f y).run j)
    (he : ∀ e, Q (.error e) j) : Journals Fine Q (x >>= f).run j :=
  Protocol.KeptBy.afterE (h.mono fun _ ho => ho Fine j) ha hf he

theorem returnsOk_any {ε : Type} (x : ExceptT ε EngineProg α) : Prog.ReturnsOk (fun _ => True) x :=
  Prog.returns_of (fun _ _ _ => trivial) _

/-! ### Publishing and removing a file -/

/-- A published file other than `p`. -/
def Beside (p q : Path OsName) : Prop := ¬ InTmp q ∧ q ≠ p

theorem journals_drop {f : StagedFile} (hf : InTmp f.path) :
    Journals Fine (fun _ j' => j.Keeps (fun q => ¬ InTmp q) j') f.drop j := by
  have gone : f.drop.All Unstaged :=
    .bind (Prog.all_call (unstaged_unlink _)) fun _ => Prog.all_pure _
  exact (Journals.of_publishes (Publishes.of_unstaged gone)
    (all_drop (aside_stages fun h => h hf))).mono fun _ _ h => h.2

theorem journals_commit {f : StagedFile} {dst : Path OsName} {bs : Bytes} (hf : InTmp f.path)
    (ha : j.stakes f.path = some (some bs)) (hdst : ¬ InTmp dst) (hfine : Fine dst bs) :
    Journals Fine (fun r j' => j.Keeps (Beside dst) j' ∧
      (r = .ok () → j'.files dst = some (some bs)))
      (f.commit dst).run j := by
  have rename : Journals Fine (fun r j' => j.Keeps (Beside dst) j' ∧
      ∀ x, r = .ok x → j'.files dst = some (some bs)) (f.publish dst).run j := by
    have failed : ∀ {β : Type} (e : IoError), j.Keeps (Beside dst) j ∧
        ∀ x : β, Except.error e = .ok x → j.files dst = some (some bs) := fun e =>
      ⟨.refl _ j, fun x h => by cases h⟩
    refine Journals.afterE (Prog.all_call (unnoted_syncAll _))
      (returnsOk_any _) (fun _ _ => ?_) failed
    refine Journals.afterLift ((readOnly_dirsToSync _).mono unnoted_of_reads) fun toSync => ?_
    refine Journals.afterE (Prog.all_call (unnoted_createDirAll _))
      (returnsOk_any _) (fun _ _ => ?_)
      failed
    have allowed : (journaling Fine).pre j (.rename f.path dst) := ⟨⟨hdst, bs, ha, hfine⟩, trivial⟩
    have aloof : Aloof (Beside dst) (.rename f.path dst) := fun h => h.2 rfl
    refine .bindE (Q := fun r j' => j.Keeps (Beside dst) j' ∧
      ∀ x, r = .ok x → j'.files dst = some (some bs)) (.call (.call (S := sysSig OsName LockName)
        allowed fun r j' post => ⟨aloof.keeps post, fun x hr => ?_⟩))
      (fun x j' h => ⟨h.1, fun _ _ => h.2 x rfl⟩) fun e j' h => ⟨h.1, fun x hx => by cases hx⟩
    subst hr
    rw [post.2.2.1, Journal.filesAfter, Function.update_self, ha]
    rfl
  refine .bind rename fun r j' h => ?_
  cases r with
  | error e =>
      refine .bind (journals_drop hf) fun _ j'' h' =>
        .pure ⟨h.1.trans (h'.mono fun q hq => hq.1), ?_⟩
      exact fun hx => by cases hx
  | ok toSync =>
      have synced : Journals Fine (fun _ j'' => j'' = j') (syncDirs toSync).run j' :=
        .of_silent ((readOnly_syncDirs toSync).mono fun o ho => unnoted_of_reads o ho Fine j')
      exact synced.mono fun _ j'' heq => heq ▸ ⟨h.1, fun _ => h.2 toSync rfl⟩

theorem journals_create : Journals Fine (fun r j' => j.Keeps (fun q => ¬ InTmp q) j' ∧
    ∀ f, r = .ok f → InTmp f.path ∧ j'.stakes f.path = some (some []))
    (StagedFile.create tmpDir).run j := by
  have aside : (StagedFile.create tmpDir).run.All (Aside fun q => ¬ InTmp q) :=
    all_create (Prog.all_call trivial) fun u => Prog.all_call trivial
  refine ((Journals.of_publishes publishes_create aside).with_returns
    (returnsOk_create tmpDir)).mono fun r j' h => ⟨h.1.2, fun f hf => ⟨?_, h.1.1 f hf⟩⟩
  obtain ⟨u, hu⟩ := h.2 f hf
  exact ⟨_, hu⟩

theorem journals_writeJsonAtomic {dst : Path OsName} {bytes : Bytes} (hdst : ¬ InTmp dst)
    (hfine : Fine dst bytes) :
    Journals Fine (fun r j' => j.Keeps (Beside dst) j' ∧
      (r = .ok () → j'.files dst = some (some bytes)))
      (writeJsonAtomic tmpDir dst bytes).run j := by
  have other : ∀ {j j' : Journal}, j.Keeps (fun q => ¬ InTmp q) j' → j.Keeps (Beside dst) j' :=
    fun h => h.mono fun q hq => hq.1
  refine .bindE journals_create (fun f j' h => ?_) fun e j' h => ⟨other h.1, fun hx => by cases hx⟩
  obtain ⟨hf, empty⟩ := h.2 f rfl
  have aside : (TokioFs.writeAll f.path bytes).run.All (Aside fun q => ¬ InTmp q) :=
    Prog.all_call (Prog.all_call trivial)
  refine .bindLift (Journals.of_publishes (publishes_writeAll bytes empty) aside) fun r j'' h' => ?_
  have sofar := (other h.1).trans (other h'.2)
  cases r with
  | error e =>
      exact .bindLift (journals_drop hf) fun _ j₃ h₃ =>
        .pure ⟨sofar.trans (other h₃), fun hx => by cases hx⟩
  | ok x =>
      exact (journals_commit hf (h'.1 x rfl) hdst hfine).mono fun r j₃ h₃ =>
        ⟨sofar.trans h₃.1, h₃.2⟩

theorem journals_removeIfPresent (p : Path OsName) :
    Journals Fine (fun r j' => j.Keeps (· ≠ p) j' ∧ (r = .ok () → j'.files p = some none))
      (removeIfPresent p).run j := by
  have aloof : Aloof (· ≠ p) (.unlink p) := fun h => h rfl
  have allowed : (journaling Fine).pre j (.unlink p) := ⟨trivial, trivial⟩
  have unlinked : Journals Fine (fun r j' => j.Keeps (· ≠ p) j' ∧
      ((∀ e, r = .error e → e.kind = .notFound) → j'.files p = some none))
      (TokioFs.removeFile p).run j := by
    refine .call (.call (S := sysSig OsName LockName) allowed fun r j' post =>
      ⟨aloof.keeps post, fun absent => ?_⟩)
    rw [post.2.2.1]
    cases r with
    | error e => rw [Journal.filesAfter, Function.update_self, if_pos (absent e rfl)]
    | ok x => rw [Journal.filesAfter, Function.update_self]
  refine .bindLift unlinked fun r j' h => ?_
  cases r with
  | ok x => exact .pure ⟨h.1, fun _ => h.2 fun e he => by cases he⟩
  | error e =>
      dsimp only
      split
      · rename_i kind
        refine .pure ⟨h.1, fun _ => h.2 fun e' he => ?_⟩
        cases he
        exact kind
      · exact .pure ⟨h.1, fun hx => by cases hx⟩

/-! ### Holding a lock -/

/-- The journal of a task that has just taken a lock. -/
def Journal.under (j : Journal) (l : LockName) (m : Mode) : Journal :=
  { j with held := (l, m) :: j.held, files := fun _ => none }

/-- A method under a lock leaves what it knows when it gives the lock back. -/
theorem journals_withLock {l : LockName} {m : Mode} {body : EngineProg α} {Q : α → Journal → Prop}
    (take : ∀ j : Journal, j.MayLock (.lock l (.take m)))
    (h : Journals Fine Q body (j.under l m))
    (drop : ∀ x j', Q x j' → j'.MayLock (.lock l (.drop m))) :
    Journals Fine (fun x j' => ∃ j₁, Q x j₁ ∧ j'.held = j₁.held.erase (l, m) ∧
      j'.left = j₁.leftAfter (.lock l (.drop m))) (withLock l m body) j := by
  have step : ∀ (step : LockStep) (j : Journal), j.MayLock (.lock l step) → Journals Fine
      (fun _ j' => (journaling Fine).post j (.lock l step) () j') (prim (.lock l step)) j := by
    intro step j may
    have allowed : (journaling Fine).pre j (.lock l step) := ⟨trivial, may⟩
    exact .call (.call (S := sysSig OsName LockName) allowed fun _ _ post => post)
  have plain : ∀ j : Journal, j.MayLock (.lock l .refer) ∧ j.MayLock (.lock l .prune) := by
    intro j
    cases l <;> exact ⟨trivial, trivial⟩
  refine .bind (step .refer j (plain j).1) fun _ j₁ h₁ => ?_
  refine .bind (step (.take m) j₁ (take j₁)) fun _ j₂ h₂ => ?_
  have now : j₂ = j.under l m := by
    obtain ⟨stakes₁, held₁, -, left₁⟩ := h₁
    obtain ⟨stakes₂, held₂, files₂, left₂⟩ := h₂
    have left : j₂.left = j.left := by cases l <;> exact left₂.trans left₁
    cases j₂
    cases (stakes₂.trans stakes₁ : _ = j.stakes)
    cases left
    cases files₂
    cases (held₂.trans (congrArg _ held₁) : _ = (l, m) :: j.held)
    rfl
  rw [now]
  refine .bind h fun x j₃ h₃ => .bind (step (.drop m) j₃ (drop x j₃ h₃)) fun _ j₄ h₄ => ?_
  refine .bind (step .prune j₄ (plain j₄).2) fun _ j₅ h₅ => .pure ⟨j₃, h₃, ?_, ?_⟩
  · exact h₅.2.1.trans h₄.2.1
  · refine Eq.trans ?_ h₄.2.2.2
    cases l <;> exact h₅.2.2.2

end Rules

/-! ## The methods -/

section Methods

variable {C : Crates} {w₀ : World OsName} {R : Req → Prop} {j : Journal} {b k : String}

/-- A journal in which the whole of a `PUT` is noted. -/
def Journal.Stored (C : Crates) (b k : String) (opts : PutOpts) (bytes : Bytes) (now : Nat)
    (j : Journal) : Prop :=
  j.files (Place.data b k).path = some (some bytes) ∧
    ∃ m, j.files (Place.manifest b k).path = some (some (C.manifestJson.toVec m)) ∧
      m.latest = some (bodyEntry C opts bytes now)

/-- A journal in which the whole of a `DELETE` is noted. -/
def Journal.Removed (b k : String) (j : Journal) : Prop :=
  j.files (Place.manifest b k).path = some none ∧ j.files (Place.data b k).path = some none

theorem manifest_ne_data (b k : String) : (Place.manifest b k).path ≠ (Place.data b k).path :=
  fun h => by cases Place.path_inj.mp h

theorem journals_publishObject {f : StagedFile} {body : ByteStream} {opts : PutOpts} {bytes : Bytes}
    (hr : R (.putObject b k body opts)) (hbody : collect body = .ok bytes) (hf : InTmp f.path)
    (ha : j.stakes f.path = some (some bytes)) (now : Nat) :
    Journals (Genuine C w₀ R) (fun r j' => j.Keeps (fun _ => False) j' ∧
      (r = .ok () → j'.Stored C b k opts bytes now))
      (publishObject C f (objectDir (bucketDir b) k) (bodyEntry C opts bytes now)).run j := by
  have outData : ¬ InTmp (Place.data b k).path := ObjectFile.not_inTmp (.inr rfl)
  have out : ¬ InTmp (Place.manifest b k).path := ObjectFile.not_inTmp (.inl rfl)
  refine .bindE (journals_commit hf ha outData (.inr ⟨.data b k, rfl, body, opts, hr, hbody⟩))
    (fun _ j₁ h₁ => ?_) fun e j₁ h₁ => ⟨h₁.1.locks, fun h => by cases h⟩
  refine .bindE (Journals.of_publishes (S := fun _ => True) (publishes_loadManifest C out)
    ((readOnly_loadManifest C _).mono aside_of_reads)) (fun m j₂ h₂ => ?_)
    fun e j₂ h₂ => ⟨h₁.1.locks.trans h₂.2.locks, fun h => by cases h⟩
  have manifest := genuine_upsert hr hbody now fun m' hm => h₂.1.2 m' (congrArg _ hm)
  refine (journals_writeJsonAtomic out manifest).mono fun r j₃ h₃ =>
    ⟨(h₁.1.locks.trans h₂.2.locks).trans h₃.1.locks, fun ok => ⟨?_, _, h₃.2 ok, rfl⟩⟩
  calc j₃.files (Place.data b k).path
      = j₂.files (Place.data b k).path := h₃.1.files _ ⟨outData, (manifest_ne_data b k).symm⟩
    _ = j₁.files (Place.data b k).path := h₂.2.files _ trivial
    _ = some (some bytes) := h₁.2 rfl

theorem mayLock_take (b k : String) (j : Journal) :
    j.MayLock (.lock (.key b k) (.take .exclusive)) := rfl

theorem mayLock_drop (hheld : j.held = keyLocks b k) (hleft : j.left = none) :
    j.MayLock (.lock (.key b k) (.drop .exclusive)) := by
  refine ⟨hleft, hheld ▸ List.mem_cons_self, fun m h => ?_⟩
  rw [hheld, List.erase_cons_head] at h
  cases List.mem_singleton.mp h

/-- A request for one key, under the locks it takes. -/
theorem journals_keyLocks {α : Type} {Fine : Path OsName → Bytes → Prop} {body : EngineProg α}
    {Q : α → Journal → Prop} (held : j.held = []) (left : j.left = none)
    (h : ∀ j₁ : Journal, j₁.stakes = j.stakes → Journals Fine
      (fun x j' => j₁.Keeps (fun _ => False) j' ∧ Q x j') body j₁) :
    Journals Fine (fun x j' => ∃ j₁, Q x j₁ ∧ j'.left = some (b, k, j₁.files))
      (withLock (.bucket b) .shared (withLock (.key b k) .exclusive body)) j := by
  have inside := h ((j.under (.bucket b) .shared).under (.key b k) .exclusive) rfl
  have keyed := journals_withLock (mayLock_take b k) inside fun x j' hx =>
    mayLock_drop (hx.1.held.trans (by rw [Journal.under, Journal.under, held]))
      (hx.1.left.trans left)
  have bucketed := journals_withLock (l := .bucket b) (m := .shared)
    (fun _ => trivial) keyed fun _ _ _ => trivial
  refine bucketed.mono fun x j' hx => ?_
  obtain ⟨j₂, ⟨j₁, h₁, -, left₂⟩, -, left'⟩ := hx
  exact ⟨j₁, h₁.2, left'.trans left₂⟩

theorem journals_putObject {body : ByteStream} {opts : PutOpts} (hr : R (.putObject b k body opts))
    (held : j.held = []) (left : j.left = none) :
    Journals (Genuine C w₀ R) (fun r j' => ∀ info, r = .ok info →
      j'.Fulfils C (.putObject b k body opts)) (putObject C b k body opts).run j := by
  refine Journals.afterE ((readOnly_existingBucketDir b).mono unnoted_of_reads)
    (returnsOk_existingBucketDir b) (fun dir hdir => ?_) fun e _ h => by cases h
  subst hdir
  refine .bindE (Q := fun r j' => j.Keeps (fun q => ¬ InTmp q) j' ∧
    ∀ f, r = .ok f → InTmp f.path ∧ j'.stakes f.path = some (some []))
      (.adapt ?_) (fun f j₁ h₁ => ?_)
    fun e j₁ _ info h => by cases h
  · refine journals_create.mono fun r j' h => ⟨h.1, fun f hf => ?_⟩
    cases r with
    | error e => cases hf
    | ok f' =>
        cases hf
        exact h.2 f rfl
  obtain ⟨hf, empty⟩ := h₁.2 f rfl
  have aside : (stageBody f (.new opts) body).run.All (Aside fun q => ¬ InTmp q) :=
    all_stageBody aside_of_reads (aside_stages fun h => h hf) body _
  refine .bindLift (Journals.of_publishes (publishes_stageBody f body (.new opts) empty) aside)
    fun r j₂ h₂ => ?_
  have sofar := h₁.1.trans h₂.2
  cases r with
  | error e => exact .bindLift (journals_drop hf) fun _ _ _ => .pure fun info h => by cases h
  | ok d =>
      obtain ⟨bytes, hbody, rfl, hfile⟩ := h₂.1 d rfl
      refine Journals.afterLift (Prog.all_call (unnoted_of_reads _ trivial)) fun (now : Nat) => ?_
      dsimp only
      rw [newEntry_update]
      have locked : ∀ j₃ : Journal, j₃.stakes = j₂.stakes → Journals (Genuine C w₀ R)
          (fun x j' => j₃.Keeps (fun _ => False) j' ∧
            (x = .inr (.ok ()) → j'.Stored C b k opts bytes now))
          (putLocked C b f (objectDir (bucketDir b) k) (bodyEntry C opts bytes now)) j₃ := by
        intro j₃ stakes
        refine Journals.after ((readOnly_existingBucketDir b).mono unnoted_of_reads) fun r => ?_
        cases r with
        | error e => exact .pure ⟨.refl _ j₃, fun h => by cases h⟩
        | ok dir =>
            refine .map (.adapt ((journals_publishObject hr hbody hf
              ((congrFun stakes _).trans hfile) now).mono fun r j' h => ⟨h.1, fun ok => h.2 ?_⟩))
            cases r with
            | error e => cases ok
            | ok u => rfl
      refine .bindLift (journals_keyLocks (sofar.held.trans held) (sofar.left.trans left) locked)
        fun r j₄ h₄ => ?_
      obtain ⟨j₃, stored, left₄⟩ := h₄
      rcases r with e | e | u
      · exact .bindLift (journals_drop hf) fun _ _ _ => .pure fun info h => by cases h
      · exact .pure fun info h => by cases h
      · refine .pure fun info _ b' k' f' hleft t agree => ?_
        cases left₄.symm.trans hleft
        obtain ⟨hdata, m, hmanifest, latest⟩ := stored rfl
        exact ⟨rfl, rfl, bytes, now, m, hbody, agree _ (.inr rfl) _ hdata,
          agree _ (.inl rfl) _ hmanifest,
          latest⟩

theorem journals_deleteLocked {Fine : Path OsName → Bytes → Prop} :
    Journals Fine (fun r j' => j.Keeps (fun _ => False) j' ∧ (r = .ok () → j'.Removed b k))
      (deleteLocked (bucketDir b) k).run j := by
  have removed : ∀ (p : Path OsName) (j : Journal), Journals Fine
      (fun r j' => j.Keeps (· ≠ p) j' ∧ (r = .ok () → j'.files p = some none))
      (liftIo (removeIfPresent p)).run j := by
    intro p j
    refine .adapt ((journals_removeIfPresent p).mono fun r j' h => ⟨h.1, fun ok => h.2 ?_⟩)
    cases r with
    | error e => cases ok
    | ok u => rfl
  refine .bindE (removed (Place.manifest b k).path j) (fun _ j₁ h₁ => ?_)
    fun e j₁ h₁ => ⟨h₁.1.locks, fun h => by cases h⟩
  refine .bindE (removed (Place.data b k).path j₁) (fun _ j₂ h₂ => ?_)
    fun e j₂ h₂ => ⟨h₁.1.locks.trans h₂.1.locks, fun h => by cases h⟩
  have kept := h₁.1.locks.trans h₂.1.locks
  have gone : j₂.Removed b k :=
    ⟨(h₂.1.files _ (manifest_ne_data b k)).trans (h₁.2 rfl), h₂.2 rfl⟩
  refine Journals.afterLift (all_pruneEmptyDirs fun q _ _ _ => unnoted_removeDir q) fun _ => ?_
  refine Journals.afterLift ((readOnly_deepestExisting _ _).mono unnoted_of_reads) fun r => ?_
  cases r with
  | none => exact .pure ⟨kept, fun _ => gone⟩
  | some deepest =>
      refine Journals.afterLift ((readOnly_fsyncDir _).mono unnoted_of_reads) fun r => ?_
      cases r with
      | ok u => exact .pure ⟨kept, fun _ => gone⟩
      | error e =>
          dsimp only
          split
          · exact .pure ⟨kept, fun _ => gone⟩
          · exact .pure ⟨kept, fun h => by cases h⟩

theorem journals_deleteObject {Fine : Path OsName → Bytes → Prop} (held : j.held = [])
    (left : j.left = none) :
    Journals Fine (fun r j' => r = .ok () → j'.Fulfils C (.deleteObject b k))
      (deleteObject b k).run j := by
  refine Journals.afterE ((readOnly_existingBucketDir b).mono unnoted_of_reads)
    (returnsOk_existingBucketDir b) (fun dir hdir => ?_) fun e h => by cases h
  subst hdir
  have locked : Journals Fine (fun r j' => ∃ j₁ : Journal, (r = .ok () → j₁.Removed b k) ∧
      j'.left = some (b, k, j₁.files)) (withLock (.bucket b) .shared (withLock (.key b k) .exclusive
        (deleteLocked (bucketDir b) k).run)) j :=
    journals_keyLocks held left fun _ _ => journals_deleteLocked
  refine locked.mono fun r j' h ok b' k' f hleft t agree => ?_
  obtain ⟨j₁, removed, left'⟩ := h
  cases left'.symm.trans hleft
  obtain ⟨hmanifest, hdata⟩ := removed ok
  exact ⟨rfl, rfl, agree _ (.inl rfl) _ hmanifest, agree _ (.inr rfl) _ hdata⟩

/-! ### Methods that take no lock of a key -/

def KeyFree : Sys OsName LockName → Prop
  | .lock (.key _ _) _ => False
  | _ => True

def NoKeyLock (o : Op) : Prop := o.code.All KeyFree

theorem noKeyLock_of_reads (o : Op) (h : Reads o) : NoKeyLock o :=
  all_code_of_reads (fun s hs => by cases s <;> first | exact hs.elim | trivial) o h

theorem noKeyLock_createDirAll (p : Path OsName) : NoKeyLock (.call (.createDirAll p)) :=
  StdFs.all_createDirAll (fun _ => trivial) fun _ _ _ => trivial

theorem noKeyLock_removeDirAll (p : Path OsName) : NoKeyLock (.call (.removeDirAll p)) :=
  StdFs.all_removeDirAll trivial fun _ _ => ⟨trivial, trivial, trivial⟩

theorem noKeyLock_commits (src dst : Path OsName) : Commits NoKeyLock src dst where
  stages := ⟨Prog.all_call trivial, fun _ => Prog.all_call trivial, Prog.all_call trivial,
    Prog.all_call trivial⟩
  createDirAll := noKeyLock_createDirAll _
  rename := Prog.all_call trivial

theorem noKeyLock_bucket (b : String) (step : LockStep) :
    NoKeyLock (.prim (.lock (.bucket b) step)) :=
  Prog.all_call trivial

/-- A request that takes no lock of a key leaves nothing of one. -/
theorem journals_keyFree {r : Req} (hr : R r) (h : (serve C r).All NoKeyLock) :
    Journals (Genuine C w₀ R) (fun resp j' => Concludes C r (some resp) j') (serve C r) .fresh := by
  have kept : Journals (Genuine C w₀ R)
      (fun resp j' => GenuineAnswer C w₀ R r resp ∧ j'.left = Journal.fresh.left)
      (serve C r) .fresh := by
    have left : ∀ (j : Journal) o r j', KeyFree o → (journaling (Genuine C w₀ R)).post j o r j' →
        j'.left = j.left := by
      intro j o r j' ho post
      rw [post.2.2.2]
      cases o with
      | lock l step =>
          cases l with
          | bucket b => rfl
          | key b k => exact ho.elim
      | _ => rfl
    refine kept_journaling ?_ ?_ (fun j o ho => ?_) left (genuine_serve r hr) h.interp
    · exact fun _ => rfl
    · exact fun _ _ _ h h' => h'.trans h
    · cases o with
      | lock l step =>
          cases l with
          | bucket b => cases step <;> trivial
          | key b k => exact ho.elim
      | _ => trivial
  refine kept.mono fun resp j' h answer _ b k f hleft => ?_
  cases h.2.symm.trans hleft

/-- **Every method keeps its journal, and is answered as it says.** -/
theorem serve_journaled (C : Crates) (w₀ : World OsName) (r : Req) (hr : R r) :
    Journals (Genuine C w₀ R) (fun resp j' => Concludes C r (some resp) j') (serve C r) .fresh := by
  have reads := noKeyLock_of_reads
  have run : ∀ {α : Type} {x : EngineM α} {f : α → EngineM Answer}, x.run.All NoKeyLock →
      (∀ y, (f y).run.All NoKeyLock) → (x >>= f).run.All NoKeyLock := fun hx hf => .bindE hx hf
  cases r with
  | putObject b k body opts =>
      refine .bindE (journals_putObject hr rfl rfl) (fun info j' h => .pure fun _ _ => h info rfl)
        fun e j' _ _ h => by cases h
  | deleteObject b k =>
      refine .bindE (journals_deleteObject (C := C) rfl rfl) (fun u j' h => .pure fun _ _ => h rfl)
        fun e j' _ _ h => by cases h
  | openEngine =>
      exact journals_keyFree hr (run (all_openEngine reads C (Prog.all_call trivial)
        (noKeyLock_createDirAll _) (noKeyLock_createDirAll _) (fun _ => noKeyLock_removeDirAll _)
        (fun _ => Prog.all_call trivial) fun _ => noKeyLock_commits _ _) fun _ => Prog.all_pureE _)
  | createBucket b =>
      refine journals_keyFree hr (run (.bindE (all_checkedBucketDir b) fun dir => ?_)
        fun _ => Prog.all_pureE _)
      exact all_withLock (noKeyLock_bucket b) _
        (all_createBucketLocked reads C (Prog.all_call trivial)
        (Prog.all_call trivial) (noKeyLock_removeDirAll _) fun _ => noKeyLock_commits _ _)
  | deleteBucket b =>
      refine journals_keyFree hr (run (.bindE (all_checkedBucketDir b) fun dir => ?_)
        fun _ => Prog.all_pureE _)
      exact all_withLock (noKeyLock_bucket b) _
        (all_deleteBucketLocked reads (noKeyLock_removeDirAll _))
  | listObjectsV2 b p =>
      refine journals_keyFree hr (run (.bindE (all_checkedBucketDir b) fun dir => ?_)
        fun _ => Prog.all_pureE _)
      exact all_withLock (noKeyLock_bucket b) _ ((readOnly_listLocked C b p).mono reads)
  | bucketExists b =>
      exact journals_keyFree hr (run ((readOnly_bucketExists b).mono reads)
        fun _ => Prog.all_pureE _)
  | listBuckets =>
      exact journals_keyFree hr (run ((readOnly_listBuckets C).mono reads)
        fun _ => Prog.all_pureE _)
  | getObject b k range =>
      exact journals_keyFree hr (run ((readOnly_getObject C b k range).mono reads)
        fun _ => Prog.all_pureE _)
  | headObject b k =>
      exact journals_keyFree hr (run ((readOnly_headObject C b k).mono reads)
        fun _ => Prog.all_pureE _)

end Methods

/-! ## Runs -/

section Runs

variable {env : Env OsName} {C : Crates} {w : World OsName} {ls : List Label}
    {s : Pool} {b k : String}

theorem Pool.journaled_of_run (calm : ∀ l ∈ ls, l.Calm) (hs : (Pool.init w).run env C ls = some s) :
    ∃ acc, s.Journaled env C (Genuine C w (Requested ls)) acc :=
  Pool.journaled_run (serve_guarded C) (serve_journaled C w) calm (fun t _ h => ⟨t, h⟩)
    (Pool.journaled_init fun _ _ hd => .inr (.inl hd)) hs

/-- **A write that was answered as done stands**: the files of the key are as the request was to
leave them, until another request takes the lock of the key. -/
theorem confirmed_write_stands (calm : ∀ l ∈ ls, l.Calm) (hs : (Pool.init w).run env C ls = some s)
    {r : Req} (confirmed : standing b k s.events = .confirmed r) : LeftBy C b k s.world.tree r := by
  obtain ⟨acc, journaled⟩ := Pool.journaled_of_run calm hs
  have stands := journaled.stands b k
  rw [confirmed] at stands
  exact stands

/-- The process is killed after a `PUT` was answered. -/
theorem confirmed_write_stands_killed :
    ∃ s r, (Pool.init (World.empty OsName)).run sampleEnv sampleCrates
    (putDone ++ [.kill]) = some s ∧ standing "abc" "k" s.events = .confirmed r ∧
    s.world.tree.fileAt (Place.data "abc" "k").path = some (utf8 "b") ∧
    LeftBy sampleCrates "abc" "k" s.world.tree r := by
  have hrun : ((Pool.init (World.empty OsName)).run sampleEnv sampleCrates (putDone ++ [.kill])).any
      (fun s => (standing "abc" "k" s.events).isConfirmed &&
        decide (s.world.tree.fileAt (Place.data "abc" "k").path = some (utf8 "b"))) = true := by
    decide +kernel
  obtain ⟨s, hs, hend⟩ := (Option.any_eq_true ..).mp hrun
  rw [Bool.and_eq_true] at hend
  have calm : ∀ l ∈ putDone ++ [.kill], l.Calm := by decide +kernel
  cases hst : standing "abc" "k" s.events with
  | confirmed r =>
      exact ⟨s, r, hs, hst, of_decide_eq_true hend.2, confirmed_write_stands calm hs hst⟩
  | _ =>
      rw [hst] at hend
      cases hend.1

end Runs

end Aks3.Engine
