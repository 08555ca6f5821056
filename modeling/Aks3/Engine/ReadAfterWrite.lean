import Aks3.Engine.LastWriter
import Aks3.Engine.Ranges
import Aks3.Engine.Refine

/-!
# Reads see the last confirmed write

A `GET` or `HEAD` takes no lock, and reads the manifest and the data file of a key one after the
other. Still, one that begins after a write to the key was answered, and ends before another request
takes the lock of the key, sees just that write (`reads_see_confirmed`): nothing that runs beside it
changes the files it reads.
-/

set_option autoImplicit false

namespace Aks3.Engine

open Lib

/-! ## What there is to see -/

/-- What a write leaves to be read: a version with its body, or nothing. -/
abbrev Sighting := Option (VersionEntry × Bytes)

def WrittenBy (C : Crates) : Req → Sighting → Prop
  | .putObject _ _ body opts, some (e, bytes) =>
    collect body = .ok bytes ∧ ∃ now, e = bodyEntry C opts bytes now
  | .deleteObject _ _, none => True
  | _, _ => False

/-- A result for what there is to see, as `P` says of the version and its body. -/
def Reports {α : Type} (P : VersionEntry → Bytes → α → Prop) : Sighting →
    Except EngineError α → Prop
  | some (e, bytes), .ok x => P e bytes x
  | some _, .error err => err ≠ .noSuchKey
  | none, .ok _ => False
  | none, .error _ => True

/-- The answer of a `GET`: the version, and all of the bytes asked for. -/
def GotObject (k : String) (range : Option ByteRange) (e : VersionEntry) (bytes : Bytes)
    (answer : Answer) : Prop :=
  ∃ offset len, resolveRange range e.size = .ok (offset, len) ∧
    answer = .object (objectInfo k e) offset len (.ok ((bytes.drop offset).take len))

/-- What reads of a key are answered when `x` is there to see. -/
def Sees (b k : String) (x : Sighting) : Req → Resp → Prop
  | .getObject b' k' range, resp => b' = b → k' = k → Reports (GotObject k range) x resp
  | .headObject b' k', resp => b' = b → k' = k →
    Reports (fun e _ answer => answer = .info (objectInfo k e)) x resp
  | _, _ => True

/-- The files of a key from which `x` is read. -/
def ReadsAs (C : Crates) (b k : String) (view : Path OsName → Option Bytes) : Sighting → Prop
  | some (e, bytes) => view (Place.data b k).path = some bytes ∧
    (∃ m, view (Place.manifest b k).path = some (C.manifestJson.toVec m) ∧ m.latest = some e) ∧
    e.versionId = NULL_VERSION_ID ∧ e.deleteMarker = false ∧ e.size = bytes.length
  | none => view (Place.manifest b k).path = none

theorem LeftBy.shows {C : Crates} {b k : String} {t : FileTree OsName} {r : Req}
    (h : LeftBy C b k t r) : ∃ x, WrittenBy C r x ∧ ReadsAs C b k t.fileAt x := by
  cases r with
  | putObject b' k' body opts =>
      obtain ⟨-, -, bytes, now, m, hbody, hdata, hmanifest, hlatest⟩ := h
      exact ⟨some (bodyEntry C opts bytes now, bytes), ⟨hbody, now, rfl⟩, hdata,
        ⟨m, hmanifest, hlatest⟩,
        rfl, rfl, rfl⟩
  | deleteObject b' k' => exact ⟨none, trivial, h.2.2.1⟩
  | _ => exact h.elim

/-! ## Reading files that stay as they are -/

section Reading

variable {b k : String} {view : Path OsName → Option Bytes} {C : Crates} {x : Sighting} {α : Type}

/-- Whoever reads the files of the key finds them as in `view`. -/
def viewing (b k : String) (view : Path OsName → Option Bytes) :
    Protocol (sysSig OsName LockName) Unit where
  pre _ _ := True
  post _
    | .readFile p, .ok d, _ => ObjectFile b k p → view p = some d
    | .readFile p, .error e, _ => ObjectFile b k p → e.kind = .notFound → view p = none
    | _, _, _ => True

abbrev Views (b k : String) (view : Path OsName → Option Bytes) (Q : α → Prop)
    (p : EngineProg α) : Prop :=
  (viewing b k view).KeptBy Op.code (fun a _ => Q a) p ()

theorem views_of_returns {Q : α → Prop} {p : EngineProg α} (h : p.Returns Q) :
    Views b k view Q p := by
  have any : ∀ q : WalkProg α, (viewing b k view).Kept (fun _ _ => True) q () := by
    intro q
    induction q with
    | pure a => trivial
    | op o f ih => exact ⟨trivial, fun r _ _ => ih r⟩
  exact ((any (p.interp Op.code)).with_returns h.interp).mono fun _ _ ha => ha.2

theorem find_of_resolve_notFound {fits : OsName → Bool} {t : FileTree OsName} {p : Path OsName}
    (h : t.resolve fits p = .error .notFound) : t.find p = none := by
  cases p with
  | nil => cases h
  | cons n p =>
      rw [FileTree.resolve] at h
      split at h
      · rename_i e hp
        cases h
        exact find_none_of_resolve hp n
      · cases h
      · split_ifs at h
        · split at h
          · cases h
          · assumption
        · cases h

/-- A call finds the files of the key as they are. -/
theorem viewing_call {env : Env OsName} {w : World OsName} {fault : Option (IoError × Nat)}
    {o : Sys OsName LockName} {y : o.Res × World OsName} (honest : Honest fault)
    (files : ∀ p, ObjectFile b k p → w.tree.fileAt p = view p)
    (hy : Pool.callOrFault env fault o w = some y) : (viewing b k view).post () o y.1 () := by
  cases o with
  | readFile p =>
      cases fault with
      | some f =>
          cases hy
          exact fun _ kind => absurd kind honest
      | none =>
          obtain ⟨r, w'⟩ := y
          have hr := congrArg Prod.fst (Option.some.inj hy)
          cases r with
          | ok d => exact fun hp => (files p hp).symm.trans (World.readFile_fileAt hr)
          | error e =>
              intro hp kind
              change (w.fs.readFile env.fits p).mapError ErrorKind.os = .error e at hr
              rw [← files p hp, FileTree.fileAt]
              unfold Fs.readFile at hr
              split at hr
              · rename_i e' he'
                cases hr
                have kind : e' = .notFound := kind
                have absent : w.tree.find p = none := find_of_resolve_notFound (kind ▸ he')
                rw [absent]
              · cases hr
                cases kind
              · cases hr
  | _ => trivial

theorem views_read {p : Path OsName} (hp : ObjectFile b k p) :
    Views b k view (fun r => (∀ d, r = .ok d → view p = some d) ∧
      ∀ e, r = .error e → e.kind = .notFound → view p = none) (TokioFs.read p).run := by
  refine .call (.call (S := sysSig OsName LockName) trivial fun r _ post => ?_)
  cases r with
  | ok d =>
      refine ⟨fun d' h => ?_, fun e h => by cases h⟩
      cases h
      exact post hp
  | error e =>
      refine ⟨fun d h => (by cases h), fun e' h => ?_⟩
      cases h
      exact post hp

theorem EngineError.ofIo_ne_noSuchKey (e : IoError) : EngineError.ofIo e ≠ .noSuchKey := by
  unfold EngineError.ofIo
  split <;> exact EngineError.noConfusion

/-- The version a read of the key resolves to. -/
theorem views_liveVersion (shows : ReadsAs C b k view x) :
    Views b k view (Reports (fun e _ e' => e' = e) x)
      (liveVersion C (objectDir (bucketDir b) k)).run := by
  -- A manifest that is there is the one in view.
  have loaded : Views b k view (fun r => (∀ m, r = .ok (some m) →
      ∃ d, view (Place.manifest b k).path = some d ∧ C.manifestJson.fromSlice d = .ok m) ∧
      (r = .ok none → view (Place.manifest b k).path = none))
      (loadManifest C (metaPath (objectDir (bucketDir b) k))).run := by
    refine .bindLift (views_read (.inl rfl)) fun r _ h => ?_
    cases r with
    | error e =>
        dsimp only
        split
        · rename_i kind
          exact .pure ⟨fun m hm => (by cases hm), fun _ => h.2 e rfl kind⟩
        · exact .pure ⟨fun m hm => (by cases hm), fun hm => by cases hm⟩
    | ok d =>
        dsimp only
        cases hm : parseManifest C (metaPath (objectDir (bucketDir b) k)) d with
        | error e => exact .pure ⟨fun m hm => (by cases hm), fun hm => by cases hm⟩
        | ok m =>
            refine .pure ⟨fun m' hm' => ?_, fun hm' => by cases hm'⟩
            cases hm'
            exact ⟨d, h.1 d rfl, fromSlice_of_parseManifest hm⟩
  refine .bindE (Q := fun r _ => (∀ m, r = .ok (some m) →
      ∃ d, view (Place.manifest b k).path = some d ∧ C.manifestJson.fromSlice d = .ok m) ∧
      (r = .ok none → view (Place.manifest b k).path = none) ∧ r ≠ .error .noSuchKey)
    (.adapt (loaded.mono fun r _ h => ?_)) (fun m _ h => ?_) fun e _ h => ?_
  · cases r with
    | error e =>
        refine ⟨fun m hm => (by cases hm), fun hm => (by cases hm), fun he => ?_⟩
        exact EngineError.ofIo_ne_noSuchKey e (Except.error.inj he)
    | ok m =>
        refine ⟨fun m' hm => h.1 m' ?_, fun hm => h.2 ?_, fun he => by cases he⟩
        · cases hm
          rfl
        · cases hm
          rfl
  · cases x with
    | none =>
        have absent : view (Place.manifest b k).path = none := shows
        cases m with
        | none => exact .pure trivial
        | some m =>
            obtain ⟨d, hd, -⟩ := h.1 m rfl
            cases absent.symm.trans hd
    | some x =>
        obtain ⟨e, bytes⟩ := x
        obtain ⟨-, ⟨m₀, hmanifest, hlatest⟩, -, live, -⟩ := shows
        cases m with
        | none => cases (h.2.1 rfl).symm.trans hmanifest
        | some m =>
            obtain ⟨d, hd, hslice⟩ := h.1 m rfl
            cases hd.symm.trans hmanifest
            rw [Json.fromSlice_toVec] at hslice
            cases hslice
            dsimp only
            rw [hlatest]
            dsimp only
            rw [live]
            exact .pure rfl
  · rcases x with _ | ⟨e', bytes⟩
    · trivial
    · exact fun he => h.2.2 (congrArg _ he)

theorem views_existingBucketDir (b' : String) :
    Views b k view (fun r => (∀ dir, r = .ok dir → dir = bucketDir b') ∧ r ≠ .error .noSuchKey)
      (existingBucketDir b').run := by
  have errors : (existingBucketDir b').run.Returns (· ≠ .error .noSuchKey) := by
    unfold existingBucketDir checkedBucketDir
    split
    · intro r
      cases r with
      | ok m =>
          change Prog.Returns _ (if m.kind = .dir then _ else _ : EngineM (Path OsName)).run
          split
          · exact fun h => by cases h
          · exact fun h => by cases h
      | error e =>
          change Prog.Returns _ (if e.kind = .notFound then _ else _ : EngineM (Path OsName)).run
          split
          · exact fun h => by cases h
          · exact fun h => EngineError.ofIo_ne_noSuchKey e (Except.error.inj h)
    · exact fun h => by cases h
  have dir : Views b k view (fun r => ∀ dir, r = .ok dir → dir = bucketDir b')
      (existingBucketDir b').run := views_of_returns (returnsOk_existingBucketDir b')
  exact dir.with_returns errors

theorem reports_error {P : VersionEntry → Bytes → α → Prop} {err : EngineError}
    (h : err ≠ .noSuchKey) : Reports P x (.error err) := by
  rcases x with _ | ⟨e, bytes⟩
  · trivial
  · exact h

theorem Reports.error {β : Type} {P : VersionEntry → Bytes → α → Prop}
    {P' : VersionEntry → Bytes → β → Prop} {err : EngineError} (h : Reports P x (.error err)) :
    Reports P' x (.error err) := by
  rcases x with _ | ⟨e, bytes⟩
  · trivial
  · exact h

theorem views_headObject (shows : ReadsAs C b k view x) :
    Views b k view (Reports (fun e _ answer => answer = .info (objectInfo k e)) x)
      (serve C (.headObject b k)) := by
  have info : Views b k view (Reports (fun e _ info => info = objectInfo k e) x)
      (headObject C b k).run := by
    refine .bindE (views_existingBucketDir b) (fun dir _ h => ?_) fun e _ h =>
      reports_error fun he => h.2 (congrArg _ he)
    obtain rfl := h.1 dir rfl
    refine .bindE (views_liveVersion shows) (fun e _ h => ?_) fun e _ h => h.error
    rcases x with _ | ⟨e', bytes⟩
    · exact h.elim
    · exact .pure (congrArg (objectInfo k) h)
  refine .bindE info (fun y _ h => ?_) fun e _ h => h.error
  rcases x with _ | ⟨e, bytes⟩
  · exact h.elim
  · exact .pure (congrArg Answer.info h)

/-- A file that cannot be positioned is no missing key. -/
theorem views_seekStart (size offset : Nat) : Views b k view (fun r => r ≠ .error .noSuchKey)
    (liftIo (seekStart size offset)).run := by
  have any : Views b k view (fun _ => True) (seekStart size offset).run :=
    views_of_returns (Prog.returns_of (fun _ => trivial) _)
  refine .adapt (any.mono fun r _ _ => ?_)
  cases r with
  | error e => exact fun he => EngineError.ofIo_ne_noSuchKey e (Except.error.inj he)
  | ok u => exact fun he => by cases he

theorem views_getObject (shows : ReadsAs C b k view x) (range : Option ByteRange) :
    Views b k view (Reports (GotObject k range) x) (serve C (.getObject b k range)) := by
  have object : Views b k view (Reports (fun e bytes y => GotObject k range e bytes
      (.object y.1 y.2.1 y.2.2.1 (collect (y.2.2.2 C.steady)))) x) (getObject C b k range).run := by
    refine .bindE (views_existingBucketDir b) (fun dir _ h => ?_) fun e _ h =>
      reports_error fun he => h.2 (congrArg _ he)
    obtain rfl := h.1 dir rfl
    refine .bindE (views_liveVersion shows) (fun e _ h => ?_) fun e _ h => h.error
    rcases x with _ | ⟨e', bytes⟩
    · exact h.elim
    obtain rfl : e = e' := h
    obtain ⟨hdata, -, hversion, -, hsize⟩ := shows
    cases hrange : resolveRange range e.size with
    | error err =>
        refine .pure (reports_error ?_)
        rw [(resolveRange_eq_error.mp hrange).1]
        exact EngineError.noConfusion
    | ok y =>
        obtain ⟨offset, len⟩ := y
        have path : dataPath (objectDir (bucketDir b) k) e.versionId = (Place.data b k).path := by
          rw [hversion]
          rfl
        have file : ObjectFile b k (dataPath (objectDir (bucketDir b) k) e.versionId) := .inr path
        refine .bindLift (views_read file) fun r _ h => ?_
        rw [path, hdata] at h
        cases r with
        | error err =>
            dsimp only
            split
            · rename_i kind
              cases h.2 err rfl kind
            · exact .pure (reports_error (EngineError.ofIo_ne_noSuchKey err))
        | ok d =>
            cases h.1 d rfl
            have within := resolveRange_le hrange
            refine .bindE (views_seekStart _ _) (fun _ _ _ => ?_) fun err _ h =>
              reports_error fun he => h (congrArg _ he)
            refine .pure ⟨offset, len, hrange, ?_⟩
            dsimp only
            rw [collect_fileStream C.steady_ok, sliceOf, if_pos (.inr (hsize ▸ within))]
  refine .bindE object (fun y _ h => ?_) fun e _ h => h.error
  rcases x with _ | ⟨e, bytes⟩
  · exact h.elim
  · exact .pure h

/-- Every request is answered from what there is to see. -/
theorem serve_views (shows : ReadsAs C b k view x) (r : Req) :
    Views b k view (Sees b k x r) (serve C r) := by
  have any : ∀ r, (∀ resp, Sees b k x r resp) → Views b k view (Sees b k x r) (serve C r) :=
    fun r h => views_of_returns (Prog.returns_of h _)
  cases r with
  | getObject b' k' range =>
      by_cases heq : b' = b ∧ k' = k
      · obtain ⟨rfl, rfl⟩ := heq
        exact (views_getObject shows range).mono fun _ _ h _ _ => h
      · exact any _ fun _ hb hk => absurd ⟨hb, hk⟩ heq
  | headObject b' k' =>
      by_cases heq : b' = b ∧ k' = k
      · obtain ⟨rfl, rfl⟩ := heq
        exact (views_headObject shows).mono fun _ _ h _ _ => h
      · exact any _ fun _ hb hk => absurd ⟨hb, hk⟩ heq
  | _ => exact any _ fun _ => trivial

end Reading

/-! ## Runs in which nobody takes the lock -/

section Runs

variable {env : Env OsName} {C : Crates} {b k : String} {view : Path OsName → Option Bytes}
  {x : Sighting} {s s' : Pool} {first later later' : List Event} {t : TaskId} {task : Task}

/-- Somebody took the lock of the key. -/
def Taken (b k : String) (events : List Event) : Prop := ∃ t m, .took t (.key b k) m ∈ events

/-- Since `first`, nobody has held the lock of the key, its files are as in `view`, and requests
have seen `x`. -/
structure Pool.Watched (b k : String) (view : Path OsName → Option Bytes) (x : Sighting)
    (first : List Event) (s : Pool) (later : List Event) : Prop where
  events : s.events = later ++ first
  free : ∀ t m, (.key b k, m) ∉ (s.tasks t).held
  files : ∀ p, ObjectFile b k p → s.world.tree.fileAt p = view p
  /-- A request that began since then finds the files so. -/
  tasks : ∀ t, s.tasks t ≠ .idle → ∀ r, lastRequest t later = some r →
    (viewing b k view).Kept (Ends (Sees b k x) r) (s.tasks t).rest ()
  answers : AnswersMeet (Sees b k x) later

namespace Pool.Watched

theorem update (h : s.Watched b k view x first later)
    (tasks : s'.tasks = Function.update s.tasks t task) (events : s'.events = later' ++ first)
    (held : ∀ m, (.key b k, m) ∉ task.held)
    (files : ∀ p, ObjectFile b k p → s'.world.tree.fileAt p = s.world.tree.fileAt p)
    (last : ∀ u, u ≠ t → lastRequest u later' = lastRequest u later)
    (own : task ≠ .idle → ∀ r, lastRequest t later' = some r →
      (viewing b k view).Kept (Ends (Sees b k x) r) task.rest ())
    (answers : AnswersMeet (Sees b k x) later') : s'.Watched b k view x first later' := by
  refine ⟨events, fun u m hu => ?_, fun p hp => (files p hp).trans (h.files p hp),
    fun u hu r hr => ?_,
    answers⟩
  · rw [tasks] at hu
    by_cases hut : u = t
    · subst hut
      rw [Function.update_self] at hu
      exact held m hu
    · rw [Function.update_of_ne hut] at hu
      exact h.free u m hu
  · rw [tasks] at hu ⊢
    by_cases hut : u = t
    · subst hut
      rw [Function.update_self] at hu ⊢
      exact own hu r hr
    · rw [Function.update_of_ne hut] at hu ⊢
      exact h.tasks u hu r (last u hut ▸ hr)

/-- A step on the tables, unless it takes the lock. -/
theorem lockStep (h : s.Watched b k view x first later) {l : LockName} {step : LockStep}
    {k' : Unit → WalkProg (Option Resp)} (busy : s.tasks t ≠ .idle)
    (hrest : (s.tasks t).rest = .op (.lock l step) k') (world : s'.world = s.world)
    (tasks : s'.tasks = Function.update s.tasks t task) (rest : task.rest = k' ())
    (held : task.held = heldAfter l step (s.tasks t).held)
    (events : s'.events = lockEvents t l step ++ s.events) :
    Taken b k (lockEvents t l step ++ later) ∨
      s'.Watched b k view x first (lockEvents t l step ++ later) := by
  have last : ∀ u, lastRequest u (lockEvents t l step ++ later) = lastRequest u later := by
    intro u
    cases step <;> rfl
  have watched : (∀ m, (.key b k, m) ∉ task.held) →
      s'.Watched b k view x first (lockEvents t l step ++ later) := by
    intro free
    refine h.update tasks ?_ free (fun p _ => by rw [world])
      (fun u _ => last u) (fun _ r hr => ?_) ?_
    · rw [events, h.events, List.append_assoc]
    · have kept := h.tasks t busy r (last t ▸ hr)
      rw [hrest] at kept
      exact rest ▸ kept.2 () () trivial
    · cases step <;> exact h.answers
  by_cases hl : ∃ m, l = .key b k ∧ step = .take m
  · obtain ⟨m, rfl, rfl⟩ := hl
    exact .inl ⟨t, m, List.mem_cons_self⟩
  · refine .inr (watched fun m hm => h.free t m ?_)
    rw [held] at hm
    cases step with
    | take m' =>
        rcases List.mem_cons.mp hm with heq | hm
        · exact absurd ⟨m', (Prod.ext_iff.mp heq).1.symm, rfl⟩ hl
        · exact hm
    | drop m' => exact List.mem_of_mem_erase hm
    | _ => exact hm

theorem taskStep (C : Crates) {seen : TaskId → Option String}
    (h : s.Watched b k view x first later) (sighted : s.Sighted seen) {addr : Nat}
    {fault : Option (IoError × Nat)} (honest : Honest fault)
    (hs : s.taskStep env t addr fault = some s') :
    ∃ new, s'.events = new ++ s.events ∧
      (Taken b k (new ++ later) ∨ s'.Watched b k view x first (new ++ later)) := by
  obtain ⟨busy, -, task, -, tasks, hstep⟩ := Pool.taskStep_cases hs
  -- Nobody holds the lock, so the step leaves the files as they are.
  have files : ∀ p, ObjectFile b k p → s'.world.tree.fileAt p = s.world.tree.fileAt p := by
    intro p hp
    by_contra hchange
    have hnext : s.next env C (.step t addr fault) = some s' := hs
    obtain ⟨u, _, _, -, locked⟩ := sighted.change hnext hp hchange
    exact h.free u _ locked.1
  have free : ∀ {held : Held}, held = (s.tasks t).held → ∀ m, (.key b k, m) ∉ held := fun heq m =>
    heq ▸ h.free t m
  rcases hstep with ⟨resp, hrest, world, rfl, events⟩ | ⟨world, rest, held, -, events⟩ |
    ⟨l, step, k', hrest, world, rest, held, -, events⟩ |
    ⟨o, k', y, -, hrest, hy, world, rest, held, -, events⟩
  · refine ⟨[.ended t resp], events, .inr (h.update tasks (by rw [events, h.events]; rfl)
      (fun m hm => by cases hm) files (fun _ _ => rfl) (fun hne => absurd rfl hne) ?_)⟩
    cases resp with
    | none => exact h.answers
    | some resp =>
        refine ⟨fun r hr => ?_, h.answers⟩
        have kept := h.tasks t busy r hr
        rw [hrest] at kept
        exact kept resp rfl
  · exact ⟨[], events, .inr (h.update tasks (events.trans h.events)
      (free held) files (fun _ _ => rfl)
      (fun _ r hr => rest ▸ h.tasks t busy r hr) h.answers)⟩
  · exact ⟨lockEvents t l step, events, h.lockStep busy hrest world tasks rest held events⟩
  · refine ⟨[], events, .inr (h.update tasks (events.trans h.events)
      (free held) files (fun _ _ => rfl)
      (fun _ r hr => ?_) h.answers)⟩
    have kept := h.tasks t busy r hr
    rw [hrest] at kept
    exact rest ▸ kept.2 y.1 () (viewing_call honest h.files hy)

/-- **One step of the pool.** -/
theorem next {seen : TaskId → Option String} (h : s.Watched b k view x first later)
    (shows : ReadsAs C b k view x) (sighted : s.Sighted seen) {label : Label} (calm : label.Calm)
    (hs : s.next env C label = some s') : ∃ new, s'.events = new ++ s.events ∧
      (Taken b k (new ++ later) ∨ s'.Watched b k view x first (new ++ later)) := by
  cases label with
  | start t r =>
      obtain ⟨world, -, -, tasks⟩ := Pool.start_cases hs
      have events := Pool.start_events hs
      refine ⟨[.started t r], events, .inr (h.update tasks (by rw [events, h.events]; rfl)
        (fun m hm => by cases hm) (fun p _ => by rw [world]) (fun u hu => if_neg (Ne.symm hu))
        (fun _ r' hr' => ?_) h.answers)⟩
      cases (if_pos rfl).symm.trans hr'
      have kept : (viewing b k view).KeptBy Op.code (Ends (Sees b k x) r) (some <$> serve C r) () :=
        .map ((serve_views shows r).mono fun resp _ hG resp' h' => Option.some.inj h' ▸ hG)
      exact kept
  | step t addr fault => exact h.taskStep C sighted calm hs
  | grant addr =>
      obtain ⟨_, -, rfl⟩ := Option.map_eq_some_iff.mp hs
      exact ⟨[], rfl, .inr ⟨h.events, h.free, h.files, h.tasks, h.answers⟩⟩
  | drop t => exact calm.elim
  | orphan i fault =>
      change s.orphan env i fault = some s' at hs
      rw [Pool.orphan, sighted.orphans] at hs
      cases hs
  | clock now =>
      cases hs
      exact ⟨[], rfl, .inr ⟨h.events, h.free, h.files, h.tasks, h.answers⟩⟩
  | kill =>
      cases hs
      exact ⟨[.killed], rfl, .inr ⟨congrArg (Event.killed :: ·) h.events,
        fun _ _ hm => (by cases hm),
        h.files, fun _ hne => absurd rfl hne, h.answers⟩⟩

end Pool.Watched

/-- What was seen of a run stays seen. -/
theorem Pool.Sighted.events_next {seen : TaskId → Option String}
    (h : s.Sighted seen) {label : Label}
    (calm : label.Calm) (hs : s.next env C label = some s') :
    ∃ new, s'.events = new ++ s.events := by
  cases label with
  | start t r => exact ⟨[_], Pool.start_events hs⟩
  | step t addr fault =>
      obtain ⟨-, -, task, -, -, hstep⟩ := Pool.taskStep_cases hs
      rcases hstep with ⟨resp, -, -, -, events⟩ | ⟨-, -, -, -, events⟩ |
        ⟨l, step, k', -, -, -, -, -, events⟩ | ⟨o, k', y, -, -, -, -, -, -, -, events⟩
      · exact ⟨[_], events⟩
      · exact ⟨[], events⟩
      · exact ⟨_, events⟩
      · exact ⟨[], events⟩
  | grant addr =>
      obtain ⟨_, -, rfl⟩ := Option.map_eq_some_iff.mp hs
      exact ⟨[], rfl⟩
  | drop t => exact calm.elim
  | orphan i fault =>
      change s.orphan env i fault = some s' at hs
      rw [Pool.orphan, h.orphans] at hs
      cases hs
  | clock now =>
      cases hs
      exact ⟨[], rfl⟩
  | kill =>
      cases hs
      exact ⟨[_], rfl⟩

/-- Until somebody takes the lock, requests see what was there at first. -/
theorem Pool.watched_run (shows : ReadsAs C b k view x) :
    ∀ {ls : List Label} {s : Pool} {later : List Event}, (∀ l ∈ ls, l.Calm) →
      (∃ seen, s.Sighted seen) → s.events = later ++ first →
      Taken b k later ∨ s.Watched b k view x first later → s.run env C ls = some s' →
        ∃ later', s'.events = later' ++ first ∧
          (Taken b k later' ∨ s'.Watched b k view x first later')
  | [], _, later, _, _, events, h, hs => by
      cases hs
      exact ⟨later, events, h⟩
  | label :: ls, s, later, calm, ⟨_, sighted⟩, events, h, hs => by
      obtain ⟨s₁, hs₁, hs⟩ := Option.bind_eq_some_iff.mp hs
      have now := calm label List.mem_cons_self
      have grown : ∃ new, s₁.events = new ++ s.events ∧
          (Taken b k (new ++ later) ∨ s₁.Watched b k view x first (new ++ later)) := by
        rcases h with ⟨t, m, taken⟩ | h
        · obtain ⟨new, hnew⟩ := sighted.events_next now hs₁
          exact ⟨new, hnew, .inl ⟨t, m, List.mem_append_right new taken⟩⟩
        · exact h.next shows sighted now hs₁
      obtain ⟨new, hnew, h₁⟩ := grown
      have events₁ : s₁.events = (new ++ later) ++ first := by rw [hnew, events, List.append_assoc]
      exact Pool.watched_run shows (fun l hl => calm l (List.mem_cons_of_mem _ hl))
        (sighted.next now (serve_guarded C) hs₁) events₁ h₁ hs

variable {w : World OsName} {ls ls' : List Label} {r : Req}

/-- **Reads that begin after a write was answered, and end before another request takes the lock of
the key, see that write.** -/
theorem reads_see_confirmed (calm : ∀ l ∈ ls ++ ls', l.Calm)
    (hs : (Pool.init w).run env C ls = some s) (confirmed : standing b k s.events = .confirmed r)
    (hs' : s.run env C ls' = some s') : ∃ later, s'.events = later ++ s.events ∧
      (Taken b k later ∨ ∃ x, WrittenBy C r x ∧ AnswersMeet (Sees b k x) later) := by
  obtain ⟨acc, journaled⟩ :=
    Pool.journaled_of_run (fun l hl => calm l (List.mem_append_left _ hl)) hs
  have stands := journaled.stands b k
  rw [confirmed] at stands
  obtain ⟨x, written, shows⟩ := LeftBy.shows stands
  have watched : s.Watched b k s.world.tree.fileAt x s.events [] := by
    refine ⟨rfl, fun t m hm => ?_, fun _ _ => rfl, fun _ _ _ hr => (by cases hr), trivial⟩
    cases confirmed.symm.trans (journaled.holder t b k m hm)
  obtain ⟨later, events, h⟩ := Pool.watched_run shows
    (fun l hl => calm l (List.mem_append_right _ hl)) journaled.sighted rfl (.inr watched) hs'
  exact ⟨later, events, h.imp_right fun h => ⟨x, written, h.answers⟩⟩

/-- A request was answered that it is done. -/
def Event.succeeded : Event → Bool
  | .ended _ (some (.ok _)) => true
  | _ => false

/-- The object is read by another task. -/
def getAfter : List Label := [.start 2 (.getObject "abc" "k" none)] ++ steps 2 10

/-- The `GET` ends well, and nobody takes a lock meanwhile. -/
theorem reads_see_confirmed_get : ∃ s s' r later x,
    (Pool.init (World.empty OsName)).run sampleEnv sampleCrates putDone = some s ∧
    standing "abc" "k" s.events = .confirmed r ∧ s.run sampleEnv sampleCrates getAfter = some s' ∧
    s'.events = later ++ s.events ∧ later.any Event.succeeded = true ∧
    WrittenBy sampleCrates r x ∧ AnswersMeet (Sees "abc" "k" x) later := by
  have hrun : ((Pool.init (World.empty OsName)).run sampleEnv sampleCrates putDone).any (fun s =>
      (standing "abc" "k" s.events).isConfirmed &&
      (s.run sampleEnv sampleCrates getAfter).any fun s' =>
        (s'.events.take (s'.events.length - s.events.length)).all Event.bounds &&
          (s'.events.take (s'.events.length - s.events.length)).any Event.succeeded) = true := by
    decide +kernel
  obtain ⟨s, hs, hend⟩ := (Option.any_eq_true ..).mp hrun
  rw [Bool.and_eq_true] at hend
  obtain ⟨s', hs', hread⟩ := (Option.any_eq_true ..).mp hend.2
  rw [Bool.and_eq_true] at hread
  have calm : ∀ l ∈ putDone ++ getAfter, l.Calm := by decide +kernel
  cases hst : standing "abc" "k" s.events with
  | confirmed r =>
      obtain ⟨later, hlater, seen⟩ := reads_see_confirmed calm hs hst hs'
      have new : s'.events.take (s'.events.length - s.events.length) = later := by
        rw [hlater, List.length_append, Nat.add_sub_cancel, List.take_left]
      rw [new] at hread
      rcases seen with ⟨t, m, taken⟩ | ⟨x, written, answers⟩
      · cases List.all_eq_true.mp hread.1 _ taken
      · exact ⟨s, s', r, later, x, hs, hst, hs', hlater, hread.2, written, answers⟩
  | _ =>
      rw [hst] at hend
      cases hend.1

end Runs

end Aks3.Engine
