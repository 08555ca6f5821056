import Aks3.Engine.Effects
import Aks3.Engine.Layout
import Aks3.Engine.Methods
import Aks3.Engine.Names
import Aks3.Engine.Reads
import Aks3.Engine.Stakes

/-!
# Nothing is published in part

Each of the engine's methods publishes what it has staged, once all of it was written: a body, a
manifest, the record of a bucket, the stamp of the layout. Hence, in every state of every run, each
file outside the staging directory was there from the first or holds all of what one request meant
to store (`published_data`, `published_records`): however requests run together and fail, wherever
they are dropped, and however often the process is killed and opened again. What `GET`, `HEAD` and a
listing answer is taken from such files (`answers_genuine`).
-/

set_option autoImplicit false

namespace Aks3.Engine

open Lib

/-! ## Methods that publish -/

/-- A method writes to files of its own, and publishes only what may stand where it publishes it. -/
abbrev Publishes (Fine : Path OsName → Bytes → Prop) {α : Type} (Q : α → Stakes → Prop)
    (p : EngineProg α) (a : Stakes) : Prop :=
  (publishing Fine).KeptBy Op.code Q p a

section Methods

variable {Fine : Path OsName → Bytes → Prop} {a : Stakes} {α : Type}

/-- The operations that neither write nor publish. -/
def Unstaged (o : Op) : Prop := ∀ Fine a, o.code.All ((publishing Fine).Silent a)

theorem silent_of_peeks (o : Sys OsName LockName) (h : Peeks o) : (publishing Fine).Silent a o := by
  cases o with
  | readFile p =>
      refine ⟨trivial, fun r a' post => ?_⟩
      cases r with
      | error e => exact post
      | ok d => exact post.1
  | stat | openDir | syncDir | seek | readDir | budget | now | recv =>
      exact ⟨trivial, fun _ _ post => post⟩
  | _ => exact h.elim

theorem unstaged_of_reads (o : Op) (h : Reads o) : Unstaged o := fun _ _ =>
  all_code_of_reads silent_of_peeks o h

theorem unstaged_lock (l : LockName) (step : LockStep) : Unstaged (.prim (.lock l step)) :=
  fun _ _ => Prog.all_call ⟨trivial, fun _ _ post => post⟩

theorem unstaged_unlink (p : Path OsName) : Unstaged (.prim (.unlink p)) := fun _ _ =>
  Prog.all_call ⟨trivial, fun _ _ post => post⟩

theorem unstaged_syncAll (p : Path OsName) : Unstaged (.call (.syncAll p)) := fun _ _ =>
  Prog.all_call ⟨trivial, fun _ _ post => post⟩

theorem unstaged_createDir (p : Path OsName) : Unstaged (.call (.createDir p)) := fun _ _ =>
  Prog.all_call ⟨trivial, fun _ _ post => post⟩

theorem unstaged_createDirAll (p : Path OsName) : Unstaged (.call (.createDirAll p)) := fun _ _ =>
  StdFs.all_createDirAll (fun _ => ⟨trivial, fun _ _ post => post⟩) fun _ _ _ =>
    ⟨trivial, fun _ _ post => post⟩

theorem unstaged_removeFile (p : Path OsName) : Unstaged (.call (.removeFile p)) := fun _ _ =>
  Prog.all_call ⟨trivial, fun _ _ post => post⟩

theorem unstaged_removeDir (p : Path OsName) : Unstaged (.call (.removeDir p)) := fun _ _ =>
  Prog.all_call ⟨trivial, fun _ _ post => post⟩

theorem unstaged_removeDirAll (p : Path OsName) : Unstaged (.call (.removeDirAll p)) := fun _ _ =>
  StdFs.all_removeDirAll ⟨trivial, fun _ _ post => post⟩ fun _ _ =>
    ⟨⟨trivial, fun _ _ post => post⟩, ⟨trivial, fun _ _ post => post⟩,
      ⟨trivial, fun _ _ post => post⟩⟩

theorem Publishes.of_unstaged {p : EngineProg α} (h : p.All Unstaged) :
    Publishes Fine (fun _ a' => a' = a) p a :=
  .of_silent (h.mono fun _ ho => ho Fine a)

theorem Publishes.of_readOnly {p : EngineProg α} (h : ReadOnly p) :
    Publishes Fine (fun _ a' => a' = a) p a :=
  Publishes.of_unstaged (h.mono unstaged_of_reads)

/-- What comes after steps that neither write nor publish. -/
theorem Publishes.after {β : Type} {p : EngineProg α} {f : α → EngineProg β}
    {Q : β → Stakes → Prop} (h : p.All Unstaged) (hf : ∀ x, Publishes Fine Q (f x) a) :
    Publishes Fine Q (p >>= f) a :=
  Protocol.KeptBy.after (h.mono fun _ ho => ho Fine a) hf

theorem Publishes.afterLift {β ε : Type} {p : EngineProg α} {f : α → ExceptT ε EngineProg β}
    {Q : Except ε β → Stakes → Prop} (h : p.All Unstaged)
    (hf : ∀ x, Publishes Fine Q (f x).run a) : Publishes Fine Q (ExceptT.lift p >>= f).run a :=
  Protocol.KeptBy.afterLift (h.mono fun _ ho => ho Fine a) hf

theorem Publishes.afterE {β ε : Type} {x : ExceptT ε EngineProg α} {f : α → ExceptT ε EngineProg β}
    {Q : Except ε β → Stakes → Prop} (h : x.run.All Unstaged)
    (hf : ∀ y, Publishes Fine Q (f y).run a) (he : ∀ e, Q (.error e) a) :
    Publishes Fine Q (x >>= f).run a :=
  Protocol.KeptBy.afterE (A := fun _ => True) (h.mono fun _ ho => ho Fine a)
    (Prog.returns_of (fun _ _ _ => trivial) _) (fun y _ => hf y) he

theorem Publishes.pure {x : α} {Q : α → Stakes → Prop} (h : Q x a) :
    Publishes Fine Q (Pure.pure x) a := h

/-- Reading a file outside the staging directory. -/
theorem publishes_read {p : Path OsName} (hp : ¬ InTmp p) :
    Publishes Fine (fun r a' => a' = a ∧ ∀ d, r = .ok d → Fine p d) (await (.read p)) a := by
  refine .call (.call (S := sysSig OsName LockName) (o := .readFile p) trivial fun r a' post => ?_)
  cases r with
  | error e => exact ⟨post, fun d h => by cases h⟩
  | ok d =>
      refine ⟨post.1, fun d' h => ?_⟩
      cases h
      exact post.2.resolve_left hp

/-- A file that was just created is empty. -/
theorem publishes_create : Publishes Fine
    (fun r a' => ∀ f, r = .ok f → a' f.path = some (some [])) (StagedFile.create tmpDir).run a := by
  refine .bindLift (Q := fun u a' => a' = Function.update a (tmpName u :: tmpDir) (some none))
    (.call (.call (S := sysSig OsName LockName) (o := .uuid) trivial fun u a' post => post))
      fun u a' ha => ?_
  have own : a' (tmpName u :: tmpDir) ≠ none := by
    rw [ha, Function.update_self]
    exact Option.some_ne_none _
  refine .bindE (Q := fun r a' => ∀ x, r = .ok x → a' (tmpName u :: tmpDir) = some (some []))
    (.call (.call (S := sysSig OsName LockName) (o := .createNew (tmpName u :: tmpDir)) own
      fun r a'' post => ?_)) (fun x a'' h => ?_)
    fun e a'' _ f h => ?_
  · cases r with
    | error e => exact fun x h => by cases h
    | ok x =>
        intro _ _
        rw [show a'' = _ from post, Function.update_self]
  · intro f hf
    cases hf
    exact h x rfl
  · cases h

theorem publishes_writeAll {p : Path OsName} {bs : Bytes} (chunk : Bytes)
    (ha : a p = some (some bs)) :
    Publishes Fine (fun r a' => ∀ x, r = .ok x → a' p = some (some (bs ++ chunk)))
      (TokioFs.writeAll p chunk).run a := by
  have own : a p ≠ none := by simp [ha]
  refine .call (.call (S := sysSig OsName LockName) (o := .append p chunk) own fun r a' post => ?_)
  cases r with
  | error e => exact fun x h => by cases h
  | ok x =>
      intro _ _
      rw [show a' = _ from post, Function.update_self, ha]
      rfl

/-- Streaming a body, the file holds as much of it as was streamed. -/
theorem publishes_stageBody (f : StagedFile) : ∀ (body : ByteStream) (d : Digest) {a : Stakes}
    {bs : Bytes}, a f.path = some (some bs) →
    Publishes Fine (fun r a' => ∀ d', r = .ok d' → ∃ bytes, collect body = .ok bytes ∧
      d' = d.update bytes ∧ a' f.path = some (some (bs ++ bytes))) (stageBody f d body).run a
  | [], d, a, bs, ha => by
      refine Publishes.afterLift (Prog.all_call (unstaged_of_reads _ trivial)) fun _ => ?_
      intro d' h
      cases h
      exact ⟨[], rfl, (Digest.update_nil d).symm, by rw [ha, List.append_nil]⟩
  | .error e :: body, d, a, bs, ha => by
      refine Publishes.afterLift (Prog.all_call (unstaged_of_reads _ trivial)) fun _ => ?_
      intro d' h
      cases h
  | .ok chunk :: body, d, a, bs, ha => by
      refine Publishes.afterLift (Prog.all_call (unstaged_of_reads _ trivial)) fun _ => ?_
      refine .bindE (publishes_writeAll chunk ha) (fun x a' h => ?_) fun e a' _ d' h => ?_
      · refine (publishes_stageBody f body (d.update chunk) (h x rfl)).mono fun r a'' hr d' h' => ?_
        obtain ⟨bytes, hbytes, rfl, hfile⟩ := hr d' h'
        refine ⟨chunk ++ bytes, ?_, (Digest.update_append d chunk bytes).symm, ?_⟩
        · rw [collect, hbytes]
          rfl
        · rw [hfile, List.append_assoc]
      · cases h

/-- A staged file whose bytes may stand at `dst` is published there, or given up. -/
theorem publishes_commit {f : StagedFile} {dst : Path OsName} {bs : Bytes}
    (ha : a f.path = some (some bs)) (hdst : ¬ InTmp dst) (hfine : Fine dst bs) :
    Publishes Fine (fun _ _ => True) (f.commit dst).run a := by
  have rename : Publishes Fine (fun _ _ => True) (f.publish dst).run a := by
    refine Publishes.afterE (Prog.all_call (unstaged_syncAll _)) (fun _ => ?_) fun _ => trivial
    refine Publishes.afterLift ((readOnly_dirsToSync _).mono unstaged_of_reads) fun toSync => ?_
    refine Publishes.afterE (Prog.all_call (unstaged_createDirAll _)) (fun _ => ?_) fun _ => trivial
    have allowed : (publishing Fine).pre a (.rename f.path dst) := ⟨hdst, bs, ha, hfine⟩
    exact .bindE (Q := fun _ _ => True) (.call (.call (S := sysSig OsName LockName) allowed
      fun _ _ _ => trivial)) (fun _ _ _ => trivial) fun _ _ _ => trivial
  refine .bind rename fun r a' _ => ?_
  cases r with
  | error e =>
      exact Publishes.after (.bind (Prog.all_call (unstaged_unlink _)) fun _ => Prog.all_pure _)
        fun _ => trivial
  | ok toSync => exact (Publishes.of_readOnly (readOnly_syncDirs toSync)).mono fun _ _ _ => trivial

theorem publishes_writeJsonAtomic {dst : Path OsName} {bytes : Bytes} (hdst : ¬ InTmp dst)
    (hfine : Fine dst bytes) :
    Publishes Fine (fun _ _ => True) (writeJsonAtomic tmpDir dst bytes).run a := by
  refine .bindE publishes_create (fun f a' hf => ?_) fun _ _ _ => trivial
  refine .bindLift (publishes_writeAll bytes (hf f rfl)) fun r a'' h => ?_
  cases r with
  | error e =>
      exact Publishes.afterLift (.bind (Prog.all_call (unstaged_unlink _)) fun _ => Prog.all_pure _)
        fun _ => trivial
  | ok x => exact publishes_commit (h x rfl) hdst hfine

theorem fromSlice_of_parseManifest {C : Crates} {p : Path OsName} {d : Bytes} {m : VersionManifest}
    (h : parseManifest C p d = .ok m) : C.manifestJson.fromSlice d = .ok m := by
  unfold parseManifest at h
  split at h
  · cases h
  · rename_i m' hslice
    split at h
    · cases h
    · cases h
      exact hslice

/-- A manifest that was read stands in a file. -/
theorem publishes_loadManifest (C : Crates) {p : Path OsName} (hp : ¬ InTmp p) :
    Publishes Fine (fun r a' => a' = a ∧ ∀ m, r = .ok (some m) → ∃ d, Fine p d ∧
      C.manifestJson.fromSlice d = .ok m) (loadManifest C p).run a := by
  refine .bindLift (publishes_read hp) fun r a' hr => ?_
  obtain ⟨rfl, hr⟩ := hr
  cases r with
  | error e =>
      dsimp only
      split
      · exact Publishes.pure ⟨rfl, fun m h => by cases h⟩
      · exact Publishes.pure ⟨rfl, fun m h => by cases h⟩
  | ok d =>
      dsimp only
      cases hm : parseManifest C p d with
      | error e => exact Publishes.pure ⟨rfl, fun m h => by cases h⟩
      | ok m =>
          refine Publishes.pure ⟨rfl, fun m' h => ?_⟩
          cases h
          exact ⟨d, hr d rfl, fromSlice_of_parseManifest hm⟩

theorem publishes_withLock {Q : α → Stakes → Prop} (l : LockName) (m : Mode) {body : EngineProg α}
    (h : Publishes Fine Q body a) : Publishes Fine Q (withLock l m body) a := by
  refine Publishes.after (Prog.all_call (unstaged_lock l _)) fun _ =>
    Publishes.after (Prog.all_call (unstaged_lock l _)) fun _ => .bind h fun r a' hr => ?_
  exact Publishes.after (Prog.all_call (unstaged_lock l _)) fun _ =>
    Publishes.after (Prog.all_call (unstaged_lock l _)) fun _ => Publishes.pure hr

theorem publishes_existingBucketDir {β : Type} {f : Path OsName → EngineM β}
    {Q : Except EngineError β → Stakes → Prop} (b : String)
    (hf : Publishes Fine Q (f (bucketDir b)).run a) (he : ∀ e, Q (.error e) a) :
    Publishes Fine Q (existingBucketDir b >>= f).run a := by
  refine Protocol.KeptBy.afterE ((readOnly_existingBucketDir b).mono fun o ho =>
    unstaged_of_reads o ho Fine a)
    (returnsOk_existingBucketDir b) (fun dir hdir => ?_) he
  rw [hdir]
  exact hf

end Methods

/-! ## What may stand where -/

section Genuine

variable (C : Crates) (w₀ : World OsName) (R : Req → Prop)

/-- A version that one of the requests stored, or that was there from the first. -/
def GenuineVersion (b k : String) (e : VersionEntry) : Prop :=
  (∃ body opts bytes now, R (.putObject b k body opts) ∧ collect body = .ok bytes ∧
    e = bodyEntry C opts bytes now) ∨
  ∃ d m, w₀.tree.fileAt (Place.manifest b k).path = some d ∧
    C.manifestJson.fromSlice d = .ok m ∧ e ∈ m.versions

/-- The whole body of one of the requests, or a data file that was there from the first. -/
def GenuineBody (b k : String) (d : Bytes) : Prop :=
  (∃ body opts, R (.putObject b k body opts) ∧ collect body = .ok d) ∨
  ∃ v, w₀.tree.fileAt (dataPath (objectDir (bucketDir b) k) v) = some d

/-- What the requests can have stored at a place. -/
def StoredWhole : Place → Bytes → Prop
  | .data b k, d => ∃ body opts, R (.putObject b k body opts) ∧ collect body = .ok d
  | .manifest b k, d => ∃ m, d = C.manifestJson.toVec m ∧ m.versions ≠ [] ∧
    ∀ e ∈ m.versions, GenuineVersion C w₀ R b k e
  | .bucketMeta b, d => R (.createBucket b) ∧ ∃ created, d = C.bucketMetaJson.toVec created
  | .format, d => d = C.diskFormatJson.toVec ⟨DISK_FORMAT⟩
  | _, _ => False

/-- A file that was there from the first, or all of what a request stored. -/
def Genuine (p : Path OsName) (d : Bytes) : Prop :=
  w₀.tree.fileAt p = some d ∨ ∃ pl : Place, p = pl.path ∧ StoredWhole C w₀ R pl d

/-- An answer taken from genuine files. What a `GET` says of an object is one version of it,
and the range is resolved in that one; its bytes are of one body, which may be another's. -/
def GenuineAnswer : Req → Resp → Prop
  | .putObject _ k body opts, .ok (.info info) => ∃ bytes now, collect body = .ok bytes ∧
    info = objectInfo k (bodyEntry C opts bytes now)
  | .getObject b k range, .ok (.object info offset len body) =>
    (∃ e, GenuineVersion C w₀ R b k e ∧ info = objectInfo k e ∧
      resolveRange range e.size = .ok (offset, len)) ∧
      ∀ bytes, body = .ok bytes →
        ∃ d, GenuineBody w₀ R b k d ∧ bytes = (d.drop offset).take len ∧ bytes.length = len
  | .headObject b k, .ok (.info info) =>
    ∃ e, GenuineVersion C w₀ R b k e ∧ info = objectInfo k e
  | .listObjectsV2 b _, .ok (.page page) =>
    ∀ info ∈ page.objects, ∃ k e, GenuineVersion C w₀ R b k e ∧ info = objectInfo k e
  | _, _ => True

variable {C w₀ R} {b k : String} {d : Bytes}

theorem Place.not_inTmp {pl : Place} (h : ∀ n, pl ≠ .staged n) : ¬ InTmp pl.path := by
  rintro ⟨n, hn⟩
  exact h n (Place.path_eq_staged.mp hn)

theorem Genuine.at {pl : Place} (h : Genuine C w₀ R pl.path d) :
    w₀.tree.fileAt pl.path = some d ∨ StoredWhole C w₀ R pl d := by
  rcases h with h | ⟨pl', hpl, h⟩
  · exact .inl h
  · exact .inr (Place.path_inj.mp hpl ▸ h)

theorem Genuine.versions (h : Genuine C w₀ R (Place.manifest b k).path d) {m : VersionManifest}
    (hm : C.manifestJson.fromSlice d = .ok m) : ∀ e ∈ m.versions, GenuineVersion C w₀ R b k e := by
  rcases h.at with h | ⟨m', rfl, -, h⟩
  · exact fun e he => .inr ⟨d, m, h, hm, he⟩
  · rw [Json.fromSlice_toVec] at hm
    exact Except.ok.inj hm ▸ h

theorem metaFile_ne_dataFileName (v : String) : utf8 (dataFileName v) ≠ utf8 META_FILE := by
  rw [utf8_dataFileName, List.append_assoc]
  intro h
  have start := congrArg (List.take 8) h
  rw [List.take_append_of_le_length (by decide)] at start
  exact absurd start (by decide)

/-- A file named as data of a key is genuine only as data. -/
theorem Genuine.body {v : String}
    (h : Genuine C w₀ R (dataPath (objectDir (bucketDir b) k) v) d) : GenuineBody w₀ R b k d := by
  rcases h with h | ⟨pl, hpl, h⟩
  · exact .inr ⟨v, h⟩
  · have parent : ∀ up : Place, pl.path.tail = up.path → up = .object b k := fun up hup =>
      Place.path_injective (hup.symm.trans (congrArg List.tail hpl).symm)
    cases pl with
    | data b' k' =>
        obtain ⟨rfl, rfl⟩ := Place.object.inj (parent (.object b' k') rfl)
        exact .inl h
    | manifest b' k' => exact absurd (List.cons.inj hpl).1 (metaFile_ne_dataFileName v)
    | bucketMeta b' => cases parent (.bucket b') rfl
    | format => cases parent .aks3 rfl
    | _ => exact h.elim

/-! ## Methods that read -/

variable {a : Stakes}

theorem genuine_liveVersion (b k : String) :
    Publishes (Genuine C w₀ R) (fun r a' => a' = a ∧ ∀ e, r = .ok e → GenuineVersion C w₀ R b k e)
      (liveVersion C (objectDir (bucketDir b) k)).run a := by
  have out : ¬ InTmp (Place.manifest b k).path := Place.not_inTmp fun _ h => by cases h
  refine .bindE (Q := fun r a' => a' = a ∧ ∀ m, r = .ok (some m) →
      ∀ e ∈ m.versions, GenuineVersion C w₀ R b k e) (.adapt ?_) (fun m a' h => ?_) fun e a' h => ?_
  · refine (publishes_loadManifest C out).mono fun r a' hr => ⟨hr.1, fun m hm => ?_⟩
    cases r with
    | error e => cases hm
    | ok m' =>
        cases hm
        obtain ⟨d, hd, hslice⟩ := hr.2 m rfl
        exact hd.versions hslice
  · obtain ⟨rfl, h⟩ := h
    cases m with
    | none => exact Publishes.pure ⟨rfl, fun e he => by cases he⟩
    | some m =>
        dsimp only
        cases hl : m.latest with
        | none => exact Publishes.pure ⟨rfl, fun e he => by cases he⟩
        | some e =>
            dsimp only
            split
            · exact Publishes.pure ⟨rfl, fun e' he => by cases he⟩
            · refine Publishes.pure ⟨rfl, fun e' he => ?_⟩
              cases he
              exact h m rfl e (List.mem_of_head? hl)
  · exact ⟨h.1, fun e' he => by cases he⟩

theorem genuine_getObject (b k : String) (range : Option ByteRange) :
    Publishes (Genuine C w₀ R) (fun r _ => ∀ info offset len body,
      r = .ok (info, offset, len, body) → GenuineAnswer C w₀ R (.getObject b k range)
        (.ok (.object info offset len (collect (body C.steady)))))
      (getObject C b k range).run a := by
  refine publishes_existingBucketDir b ?_ fun e _ _ _ _ h => by cases h
  refine .bindE (genuine_liveVersion b k) (fun e a' h => ?_) fun e a' _ _ _ _ _ h => by cases h
  obtain ⟨rfl, h⟩ := h
  have version := h e rfl
  cases hrange : resolveRange range e.size with
  | error err => exact fun _ _ _ _ h => by cases h
  | ok x =>
      obtain ⟨offset, len⟩ := x
      have out : ¬ InTmp (dataPath (objectDir (bucketDir b) k) e.versionId) := by
        rintro ⟨n, hn⟩
        have tail : (Place.object b k).path = Place.tmp.path := congrArg List.tail hn
        cases Place.path_inj.mp tail
      refine .bindLift (publishes_read out) fun r a'' hr => ?_
      cases r with
      | error err =>
          dsimp only
          split
          · exact fun _ _ _ _ h => by cases h
          · exact fun _ _ _ _ h => by cases h
      | ok d =>
          refine Publishes.afterE (.adapt ((readOnly_seekStart _ _).mono unstaged_of_reads))
            (fun _ => ?_) fun e _ _ _ _ h => by cases h
          intro info offset' len' body hbody
          cases hbody
          refine ⟨⟨e, version, rfl, hrange⟩, fun bytes hbytes => ⟨d, (hr.2 d rfl).body, ?_⟩⟩
          rw [collect_fileStream C.steady_ok, sliceOf] at hbytes
          split at hbytes
          · rename_i hlen
            cases hbytes
            refine ⟨rfl, ?_⟩
            rw [List.length_take, List.length_drop]
            omega
          · cases hbytes

theorem genuine_headObject (b k : String) :
    Publishes (Genuine C w₀ R) (fun r _ => ∀ info, r = .ok info →
      ∃ e, GenuineVersion C w₀ R b k e ∧ info = objectInfo k e) (headObject C b k).run a := by
  refine publishes_existingBucketDir b ?_ fun e _ h => by cases h
  refine .bindE (genuine_liveVersion b k) (fun e a' h => ?_) fun e a' _ _ h => by cases h
  intro info hinfo
  cases hinfo
  exact ⟨e, h.2 e rfl, rfl⟩

/-- Every object of a page that is being filled. -/
def GenuinePage (C : Crates) (w₀ : World OsName) (R : Req → Prop) (b : String) (page : ListResult) :
    Prop :=
  ∀ info ∈ page.objects, ∃ k e, GenuineVersion C w₀ R b k e ∧ info = objectInfo k e

theorem genuine_listLoop (b : String) (maxKeys : Nat) (pfx : String)
    (delimiter start : Option String) :
    ∀ (keys : List String) (out : ListResult), GenuinePage C w₀ R b out →
      Publishes (Genuine C w₀ R) (fun r _ => ∀ page, r = .ok page → GenuinePage C w₀ R b page)
        (listLoop C (bucketDir b) maxKeys pfx delimiter start keys out).run a
  | [], out, hout => fun page h => by
      cases h
      exact hout
  | key :: keys, out, hout => by
      have ih := genuine_listLoop b maxKeys pfx delimiter start keys
      rw [listLoop]
      split
      · exact ih out hout
      dsimp only
      split
      · exact ih out hout
      split
      · exact ih out hout
      have version : Publishes (Genuine C w₀ R)
          (fun r a' => a' = a ∧ ∀ e, r = .ok (some e) → GenuineVersion C w₀ R b key e)
          (listableVersion C (objectDir (bucketDir b) key)).run a := by
        refine .bindLift (genuine_liveVersion b key) fun r a' hr => ?_
        cases r with
        | ok e =>
            refine Publishes.pure ⟨hr.1, fun e' he => ?_⟩
            cases he
            exact hr.2 e rfl
        | error e => cases e <;> exact Publishes.pure ⟨hr.1, fun e' he => by cases he⟩
      refine .bindE version (fun e a' h => ?_) fun e a' _ page h => by cases h
      obtain ⟨rfl, h⟩ := h
      cases e with
      | none => exact ih out hout
      | some e =>
          dsimp only
          split
          · exact fun page h => by
              cases h
              exact hout
          · split
            · exact ih _ hout
            · refine ih _ fun info hinfo => ?_
              rcases List.mem_append.mp hinfo with hinfo | hinfo
              · exact hout info hinfo
              · exact ⟨key, e, h e rfl, List.mem_singleton.mp hinfo⟩

theorem genuine_listObjectsV2 (b : String) (p : ListParams) :
    Publishes (Genuine C w₀ R) (fun r _ => ∀ page, r = .ok page → GenuinePage C w₀ R b page)
      (listObjectsV2 C b p).run a := by
  have empty : GenuinePage C w₀ R b .default := fun info h => by cases h
  refine Publishes.afterE (all_checkedBucketDir b) (fun _ => ?_) fun e page h => by cases h
  refine publishes_withLock _ _ (publishes_existingBucketDir b ?_ fun e page h => by cases h)
  split
  · exact fun page h => by
      cases h
      exact empty
  · refine Publishes.afterE
      (.adapt (Prog.all_call (unstaged_of_reads (.call (.sortedKeys _)) trivial))) (fun keys => ?_)
      fun e page h => by cases h
    refine .bindE (genuine_listLoop b p.maxKeys _ _ _ keys .default empty) (fun out a' h => ?_)
      fun e a' _ page h => by cases h
    split
    · exact fun page hp => by
        cases hp
        exact h out rfl
    · exact fun page hp => by
        cases hp
        exact h out rfl

/-! ## Methods that write -/

theorem genuine_openEngine : Publishes (Genuine C w₀ R) (fun _ _ => True) (openEngine C).run a := by
  have stamp : Genuine C w₀ R Place.format.path (C.diskFormatJson.toVec ⟨DISK_FORMAT⟩) :=
    .inr ⟨.format, rfl, rfl⟩
  have out : ¬ InTmp Place.format.path := Place.not_inTmp fun _ h => by cases h
  refine .adapt ?_
  refine Publishes.afterE (Q := fun _ _ => True) (Prog.all_call (unstaged_createDirAll _))
    (fun _ => ?_) fun _ => trivial
  refine Publishes.afterE (Prog.all_call (unstaged_createDirAll _)) (fun _ => ?_) fun _ => trivial
  refine Publishes.afterE (.bindE (Prog.all_call (unstaged_of_reads _ trivial)) fun _ =>
    .lift (all_sweepEntries (fun _ => unstaged_removeDirAll _) (fun _ => unstaged_removeFile _) _))
    (fun _ => ?_) fun _ => trivial
  refine Publishes.afterLift (Prog.all_call (unstaged_of_reads _ trivial)) fun r => ?_
  cases r with
  | error e =>
      dsimp only
      split
      · exact publishes_writeJsonAtomic out stamp
      · exact trivial
  | ok bytes =>
      dsimp only
      split
      · exact trivial
      · split
        · exact trivial
        · exact trivial

theorem genuine_createBucket (hr : R (.createBucket b)) :
    Publishes (Genuine C w₀ R) (fun _ _ => True) (createBucket C b).run a := by
  have record : ∀ created, Genuine C w₀ R (Place.bucketMeta b).path
      (C.bucketMetaJson.toVec created) :=
    fun created => .inr ⟨.bucketMeta b, rfl, hr, created, rfl⟩
  have out : ¬ InTmp (Place.bucketMeta b).path := Place.not_inTmp fun _ h => by cases h
  have rest : Publishes (Genuine C w₀ R) (fun _ _ => True)
      (describeBucket C (bucketDir b)).run a := by
    refine Publishes.afterLift (Prog.all_call (unstaged_of_reads _ trivial)) fun now => ?_
    refine .bindLift (publishes_writeJsonAtomic out (record _)) fun r a' _ => ?_
    cases r with
    | error e =>
        exact Publishes.afterLift (Prog.all_call (unstaged_removeDirAll _)) fun _ => trivial
    | ok u =>
        exact .adapt ((Publishes.of_readOnly (readOnly_fsyncDir _)).mono fun _ _ _ => trivial)
  refine .bindE ((Publishes.of_unstaged (all_checkedBucketDir b)).with_returns
    (returnsOk_checkedBucketDir b)) (fun dir a' h => ?_) fun _ _ _ => trivial
  obtain ⟨rfl, hdir⟩ := h
  rw [hdir dir rfl]
  refine publishes_withLock _ _
    (Publishes.afterLift (Prog.all_call (unstaged_createDir _)) fun r => ?_)
  cases r with
  | error e =>
      dsimp only
      split
      · exact trivial
      · exact trivial
  | ok u => exact rest

/-- The manifest a body is stored with, in place of one that was read. -/
theorem genuine_upsert {body : ByteStream} {opts : PutOpts} {bytes : Bytes}
    (hr : R (.putObject b k body opts)) (hbody : collect body = .ok bytes) (now : Nat)
    {m : Option VersionManifest}
    (hm : ∀ m', m = some m' → ∃ d, Genuine C w₀ R (Place.manifest b k).path d ∧
      C.manifestJson.fromSlice d = .ok m') :
    Genuine C w₀ R (Place.manifest b k).path
      (C.manifestJson.toVec ((m.getD newManifest).upsert (bodyEntry C opts bytes now))) := by
  refine .inr ⟨.manifest b k, rfl, _, rfl, List.cons_ne_nil _ _, ?_⟩
  -- Its versions are the one just stored and those of the one it replaces.
  intro e he
  rcases List.mem_cons.mp he with rfl | he
  · exact .inl ⟨body, opts, bytes, now, hr, hbody, rfl⟩
  · have he := List.mem_of_mem_filter he
    cases m with
    | none => cases he
    | some m =>
        obtain ⟨d, hd, hslice⟩ := hm m rfl
        exact hd.versions hslice e he

theorem genuine_publishObject {f : StagedFile} {body : ByteStream} {opts : PutOpts} {bytes : Bytes}
    (hr : R (.putObject b k body opts)) (hbody : collect body = .ok bytes)
    (ha : a f.path = some (some bytes)) (now : Nat) :
    Publishes (Genuine C w₀ R) (fun _ _ => True)
      (publishObject C f (objectDir (bucketDir b) k) (bodyEntry C opts bytes now)).run a := by
  have outData : ¬ InTmp (Place.data b k).path := Place.not_inTmp fun _ h => by cases h
  have out : ¬ InTmp (Place.manifest b k).path := Place.not_inTmp fun _ h => by cases h
  refine .bindE (publishes_commit ha outData (.inr ⟨.data b k, rfl, body, opts, hr, hbody⟩))
    (fun _ a' _ => ?_) fun _ _ _ => trivial
  refine .bindE (publishes_loadManifest C out) (fun m a'' h => ?_) fun _ _ _ => trivial
  exact publishes_writeJsonAtomic out
    (genuine_upsert hr hbody now fun m' hm => h.2 m' (congrArg _ hm))

theorem genuine_putObject {body : ByteStream} {opts : PutOpts} (hr : R (.putObject b k body opts)) :
    Publishes (Genuine C w₀ R) (fun r _ => ∀ info, r = .ok info → ∃ bytes now,
      collect body = .ok bytes ∧ info = objectInfo k (bodyEntry C opts bytes now))
      (putObject C b k body opts).run a := by
  have gone : ∀ f : StagedFile, f.drop.All Unstaged := fun f =>
    .bind (Prog.all_call (unstaged_unlink _)) fun _ => Prog.all_pure _
  refine publishes_existingBucketDir b ?_ fun e _ h => by cases h
  refine .bindE (Q := fun r a' => ∀ f, r = .ok f → a' f.path = some (some [])) (.adapt ?_)
    (fun f a' hf => ?_) fun e a' _ info h => by cases h
  · refine publishes_create.mono fun r a' h f hf => ?_
    cases r with
    | error e => cases hf
    | ok f' =>
        cases hf
        exact h f rfl
  refine .bindLift (publishes_stageBody f body (.new opts) (hf f rfl)) fun r a'' h => ?_
  cases r with
  | error e => exact Publishes.afterLift (gone f) fun _ info h => by cases h
  | ok d =>
      obtain ⟨bytes, hbody, rfl, hfile⟩ := h d rfl
      refine Publishes.afterLift (Prog.all_call (unstaged_of_reads _ trivial)) fun (now : Nat) => ?_
      dsimp only
      rw [newEntry_update]
      have locked : Publishes (Genuine C w₀ R) (fun _ _ => True)
          (putLocked C b f (objectDir (bucketDir b) k) (bodyEntry C opts bytes now)) a'' := by
        refine Publishes.after ((readOnly_existingBucketDir b).mono unstaged_of_reads) fun r => ?_
        cases r with
        | error e => exact trivial
        | ok dir => exact .map (.adapt (genuine_publishObject hr hbody hfile now))
      refine .bindLift (publishes_withLock _ _ (publishes_withLock _ _ locked)) fun r a₃ _ => ?_
      rcases r with e | e | u
      · exact Publishes.afterLift (gone f) fun _ info h => by cases h
      · exact fun info h => by cases h
      · intro info h
        cases h
        exact ⟨bytes, now, hbody, rfl⟩

/-- The rest of a request once its method has ended. -/
theorem publishes_answer {α : Type} {r : Req} {x : EngineM α} {f : α → Answer}
    (hx : Publishes (Genuine C w₀ R) (fun y _ => ∀ v, y = .ok v →
      GenuineAnswer C w₀ R r (.ok (f v)))
      x.run a) :
    Publishes (Genuine C w₀ R) (fun resp _ => GenuineAnswer C w₀ R r resp)
      (do pure (f (← x)) : EngineM Answer).run a := by
  refine .bindE hx (fun v a' h => h v rfl) fun e a' _ => ?_
  cases r <;> exact trivial

/-- **Every method publishes only genuine files, and answers from them.** -/
theorem genuine_serve (r : Req) (hr : R r) :
    Publishes (Genuine C w₀ R) (fun resp _ => GenuineAnswer C w₀ R r resp) (serve C r) a := by
  cases r with
  | openEngine => exact publishes_answer (genuine_openEngine.mono fun _ _ _ _ _ => trivial)
  | createBucket b =>
      exact publishes_answer ((genuine_createBucket hr).mono fun _ _ _ _ _ => trivial)
  | deleteBucket b =>
      refine publishes_answer ((Publishes.of_unstaged ?_).mono fun _ _ _ _ _ => trivial)
      exact all_deleteBucket unstaged_of_reads unstaged_lock (unstaged_removeDirAll _)
  | bucketExists b =>
      exact publishes_answer ((Publishes.of_readOnly (readOnly_bucketExists b)).mono
        fun _ _ _ _ _ => trivial)
  | listBuckets =>
      exact publishes_answer ((Publishes.of_readOnly (readOnly_listBuckets C)).mono
        fun _ _ _ _ _ => trivial)
  | putObject b k body opts => exact publishes_answer (genuine_putObject hr)
  | getObject b k range =>
      refine .bindE (genuine_getObject b k range) (fun x a' h => ?_) fun e a' _ => trivial
      obtain ⟨info, offset, len, body⟩ := x
      exact h info offset len body rfl
  | headObject b k => exact publishes_answer (genuine_headObject b k)
  | deleteObject b k =>
      refine publishes_answer ((Publishes.of_unstaged ?_).mono fun _ _ _ _ _ => trivial)
      exact all_deleteObject unstaged_of_reads unstaged_lock (unstaged_removeFile _)
        (unstaged_removeFile _) fun q _ _ _ => unstaged_removeDir q
  | listObjectsV2 b p => exact publishes_answer (genuine_listObjectsV2 b p)

/-- A task that was dropped publishes nothing more. -/
theorem genuine_cleanup (loc : Locals) :
    Publishes (Genuine C w₀ R) (fun x _ => x = none) loc.cleanup a := by
  have all : ∀ owned, (destructors owned).All Unstaged ∧
      (destructors owned).Returns (· = none) := by
    intro owned
    induction owned with
    | nil => exact ⟨Prog.all_pure _, rfl⟩
    | cons o owned ih =>
        cases o with
        | lock l m =>
            exact ⟨.bind (.bind (Prog.all_call (unstaged_lock l _)) fun _ =>
              Prog.all_call (unstaged_lock l _)) fun _ => ih.1, fun _ _ => ih.2⟩
        | file p =>
            exact ⟨.bind (.bind (Prog.all_call (unstaged_unlink p)) fun _ => Prog.all_pure _)
              fun _ => ih.1, fun _ => ih.2⟩
  have rest : Publishes (Genuine C w₀ R) (fun x _ => x = none) (destructors loc.owned) a :=
    ((Publishes.of_unstaged (all loc.owned).1).with_returns (all loc.owned).2).mono fun _ _ h => h.2
  unfold Locals.cleanup
  cases loc.refd with
  | none => exact rest
  | some l => exact Publishes.after (Prog.all_call (unstaged_lock l _)) fun _ => rest

end Genuine

/-! ## Runs -/

section Runs

variable {env : Env OsName} {C : Crates} {w₀ : World OsName} {ls : List Label} {s : Pool}

/-- The requests of a schedule. -/
def Requested (ls : List Label) (r : Req) : Prop := ∃ t, .start t r ∈ ls

/-- **However requests run together, fail, are dropped and killed, every file outside the staging
directory is genuine, and so is every answer.** -/
theorem genuine_run (hs : (Pool.init w₀).run env C ls = some s) :
    (∀ p d, s.world.tree.fileAt p = some d → InTmp p ∨ Genuine C w₀ (Requested ls) p d) ∧
      AnswersMeet (GenuineAnswer C w₀ (Requested ls)) s.heard := by
  have disciplined : Disciplined (stakeOut env (Genuine C w₀ (Requested ls))) C (Requested ls)
      (GenuineAnswer C w₀ (Requested ls)) := ⟨genuine_serve, genuine_cleanup⟩
  have first : Staked env (Genuine C w₀ (Requested ls)) w₀ fun _ _ => none :=
    ⟨fun _ _ _ h => absurd rfl h, fun _ _ h => absurd rfl h, fun _ _ _ _ h => (by cases h),
      fun _ _ h => .inr (.inl h)⟩
  obtain ⟨acc, h⟩ := Pool.follows_run disciplined (fun t r h => ⟨t, h⟩)
    (Pool.follows_init first) hs
  exact ⟨h.inv.fine, h.answers⟩

/-- **Every data file holds the whole body of one `PUT` to its key**, or was there from
the first. -/
theorem published_data (hs : (Pool.init w₀).run env C ls = some s) {b k : String} {d : Bytes}
    (hd : s.world.tree.fileAt (Place.data b k).path = some d) :
    w₀.tree.fileAt (Place.data b k).path = some d ∨
      ∃ t body opts, .start t (.putObject b k body opts) ∈ ls ∧ collect body = .ok d := by
  have genuine := ((genuine_run hs).1 _ d hd).resolve_left (Place.not_inTmp fun _ h => by cases h)
  rcases genuine.at with h | ⟨body, opts, ⟨t, ht⟩, hbody⟩
  · exact .inl h
  · exact .inr ⟨t, body, opts, ht, hbody⟩

/-- A bucket is created. -/
def bucketCreated : List Label :=
  opened ++ [.start 1 (.createBucket "abc")] ++ steps 1 2 ++ [.grant 0] ++ steps 1 40

/-- A body of two chunks was streamed, and the locks of its bucket and key are held. -/
def putLocks : List Label :=
  bucketCreated ++ [.start 1 (.putObject "abc" "k" [.ok [], .ok (utf8 "b")] noOpts)] ++
    steps 1 19 ++ [.grant 0] ++ steps 1 1 ++ List.replicate 2 (.step 1 1 none) ++
    [.grant 1, .step 1 1 none]

/-- The process is killed when the data file is there and the manifest is not. -/
theorem published_data_killed : ∃ s, (Pool.init (World.empty OsName)).run sampleEnv sampleCrates
    (putLocks ++ steps 1 22 ++ [.kill]) = some s ∧
    s.world.tree.fileAt (Place.manifest "abc" "k").path = none ∧
    s.world.tree.fileAt (Place.data "abc" "k").path = some (utf8 "b") ∧
    ∃ t body opts, .start t (.putObject "abc" "k" body opts) ∈ putLocks ++ steps 1 22 ++ [.kill] ∧
      collect body = .ok (utf8 "b") := by
  have hrun : ((Pool.init (World.empty OsName)).run sampleEnv sampleCrates
      (putLocks ++ steps 1 22 ++ [.kill])).any
      (fun s => decide (s.world.tree.fileAt (Place.manifest "abc" "k").path = none) &&
        decide (s.world.tree.fileAt (Place.data "abc" "k").path = some (utf8 "b"))) = true := by
    decide +kernel
  obtain ⟨s, hs, hend⟩ := (Option.any_eq_true ..).mp hrun
  simp only [Bool.and_eq_true, decide_eq_true_eq] at hend
  refine ⟨s, hs, hend.1, hend.2, (published_data hs hend.2).resolve_left fun old => ?_⟩
  cases old

/-- **Every record is one that was written whole**: a manifest of versions that were put, the
record of a bucket that was created, the stamp of the layout. -/
theorem published_records (hs : (Pool.init w₀).run env C ls = some s) :
    (∀ b k d, s.world.tree.fileAt (Place.manifest b k).path = some d →
      w₀.tree.fileAt (Place.manifest b k).path = some d ∨
        ∃ m, C.manifestJson.fromSlice d = .ok m ∧ m.versions ≠ [] ∧
          ∀ e ∈ m.versions, GenuineVersion C w₀ (Requested ls) b k e) ∧
    (∀ b d, s.world.tree.fileAt (Place.bucketMeta b).path = some d →
      w₀.tree.fileAt (Place.bucketMeta b).path = some d ∨
        Requested ls (.createBucket b) ∧ ∃ created, C.bucketMetaJson.fromSlice d = .ok created) ∧
    ∀ d, s.world.tree.fileAt Place.format.path = some d →
      w₀.tree.fileAt Place.format.path = some d ∨
      C.diskFormatJson.fromSlice d = .ok ⟨DISK_FORMAT⟩ := by
  have genuine : ∀ {pl : Place} {d}, (∀ n, pl ≠ .staged n) → s.world.tree.fileAt pl.path = some d →
      w₀.tree.fileAt pl.path = some d ∨ StoredWhole C w₀ (Requested ls) pl d := fun hpl hd =>
    (((genuine_run hs).1 _ _ hd).resolve_left (Place.not_inTmp hpl)).at
  refine ⟨fun b k d hd => ?_, fun b d hd => ?_, fun d hd => ?_⟩
  · refine (genuine (fun _ h => by cases h) hd).imp_right ?_
    rintro ⟨m, rfl, hne, hm⟩
    exact ⟨m, C.manifestJson.fromSlice_toVec m, hne, hm⟩
  · refine (genuine (fun _ h => by cases h) hd).imp_right ?_
    rintro ⟨hr, created, rfl⟩
    exact ⟨hr, created, C.bucketMetaJson.fromSlice_toVec created⟩
  · refine (genuine (fun _ h => by cases h) hd).imp_right ?_
    intro hstamp
    rw [show d = _ from hstamp]
    exact C.diskFormatJson.fromSlice_toVec _

/-- The request goes on to its end. -/
def putDone : List Label := putLocks ++ steps 1 70 ++ [.step 1 1 none] ++ steps 1 4

theorem published_records_put : ∃ s, (Pool.init (World.empty OsName)).run sampleEnv sampleCrates
    putDone = some s ∧ ∃ d, s.world.tree.fileAt (Place.manifest "abc" "k").path = some d ∧
      ∃ m, sampleCrates.manifestJson.fromSlice d = .ok m ∧ m.versions ≠ [] ∧
        ∀ e ∈ m.versions,
          GenuineVersion sampleCrates (World.empty OsName) (Requested putDone) "abc" "k" e := by
  have hrun : ((Pool.init (World.empty OsName)).run sampleEnv sampleCrates putDone).any
      (fun s => (s.world.tree.fileAt (Place.manifest "abc" "k").path).isSome) = true := by
    decide +kernel
  obtain ⟨s, hs, hend⟩ := (Option.any_eq_true ..).mp hrun
  obtain ⟨d, hd⟩ := Option.isSome_iff_exists.mp hend
  refine ⟨s, hs, d, hd, ((published_records hs).1 "abc" "k" d hd).resolve_left fun old => ?_⟩
  cases old

theorem AnswersMeet.at {G : Req → Resp → Prop} {t : TaskId} {resp : Resp} {r : Req}
    {later earlier : List Event} (h : AnswersMeet G (later ++ .ended t (some resp) :: earlier))
    (hr : lastRequest t earlier = some r) : G r resp := by
  induction later with
  | nil => exact h.1 r hr
  | cons e later ih =>
      refine ih ?_
      cases e with
      | ended u x =>
          cases x with
          | none => exact h
          | some resp' => exact h.2
      | _ => exact h

/-- **Whatever runs beside it, a request is answered from files that were stored whole**: a `GET`
with bytes of one body, and `GET`, `HEAD` and listings with what was recorded of one. A `PUT` may
come between a `GET`'s two reads, so that the record and the bytes are of two uploads: the bytes
are those of the second at the positions that the range selects in the first. -/
theorem answers_genuine (hs : (Pool.init w₀).run env C ls = some s) {later earlier : List Event}
    {t : TaskId} {r : Req} {resp : Resp}
    (ended : s.heard = later ++ .ended t (some resp) :: earlier)
    (request : lastRequest t earlier = some r) : GenuineAnswer C w₀ (Requested ls) r resp := by
  have answers := (genuine_run hs).2
  rw [ended] at answers
  exact answers.at request

/-- Whether the last thing heard is the answer of task 2 to a `GET` of the whole object, and the
answer is these bytes. -/
def Pool.answersGet (s : Pool) (b k : String) (bytes : Bytes) : Bool :=
  match s.heard with
  | .ended 2 (some (.ok (.object _ _ _ (.ok got)))) :: earlier =>
    match lastRequest 2 earlier with
    | some (.getObject b' k' none) => b' = b && k' = k && got = bytes
    | _ => false
  | _ => false

theorem Pool.of_answersGet {s : Pool} {b k : String} {bytes : Bytes}
    (h : s.answersGet b k bytes = true) : ∃ info offset len earlier,
      s.heard = [] ++ .ended 2 (some (.ok (.object info offset len (.ok bytes)))) :: earlier ∧
      lastRequest 2 earlier = some (.getObject b k none) := by
  unfold Pool.answersGet at h
  split at h
  · rename_i info offset len got earlier hheard
    split at h
    · rename_i b' k' hlast
      simp only [Bool.and_eq_true, decide_eq_true_eq] at h
      obtain ⟨⟨rfl, rfl⟩, rfl⟩ := h
      exact ⟨info, offset, len, earlier, hheard, hlast⟩
    · cases h
  · cases h

/-- The object is read back: the `GET` succeeds, and its bytes are those of the `PUT`. -/
theorem answers_genuine_get : ∃ s info offset len, (Pool.init (World.empty OsName)).run sampleEnv
    sampleCrates (putDone ++ [.start 2 (.getObject "abc" "k" none)] ++ steps 2 10) = some s ∧
    .ended 2 (some (.ok (.object info offset len (.ok (utf8 "b"))))) ∈ s.heard ∧
    GenuineAnswer sampleCrates (World.empty OsName)
      (Requested (putDone ++ [.start 2 (.getObject "abc" "k" none)] ++ steps 2 10))
      (.getObject "abc" "k" none) (.ok (.object info offset len (.ok (utf8 "b")))) := by
  have hrun : ((Pool.init (World.empty OsName)).run sampleEnv sampleCrates
      (putDone ++ [.start 2 (.getObject "abc" "k" none)] ++ steps 2 10)).any
      (fun s => s.answersGet "abc" "k" (utf8 "b")) = true := by decide +kernel
  obtain ⟨s, hs, hend⟩ := (Option.any_eq_true ..).mp hrun
  obtain ⟨info, offset, len, earlier, hheard, hlast⟩ := Pool.of_answersGet hend
  refine ⟨s, info, offset, len, hs, ?_, answers_genuine hs hheard hlast⟩
  rw [hheard]
  exact List.mem_cons_self

end Runs

end Aks3.Engine
