import Aks3.Engine.Laid
import Aks3.Engine.Threads
import Aks3.Lib.Contents

/-!
# Object files change under their key's lock

The manifest and the data file of a key are changed only by a task that holds the key's lock,
and with it its bucket's (`object_changes_locked`). For `put_object` and `delete_object` this is
how they are written. For `delete_bucket`, and for `create_bucket` when it takes a bucket back,
it is not: they remove whole directories. What they remove holds no object, because they hold
the bucket's lock exclusively from the time they saw that it holds none, and nobody can add one
meanwhile. So no `delete_bucket` ever destroys an object.

This is about runs in which no request is dropped: a dropped request gives its locks back while
a job of it may still run. A call may fail, but not by claiming that something is not there.
-/

set_option autoImplicit false

namespace Aks3.Engine

open Lib

/-- The manifest or the data file of a key. -/
def ObjectFile (b k : String) (p : Path OsName) : Prop :=
  p = (Place.manifest b k).path ∨ p = (Place.data b k).path

/-- The locks under which a key's files are changed. -/
def KeyLocked (held : Held) (b k : String) : Prop :=
  (.key b k, .exclusive) ∈ held ∧ (.bucket b, .shared) ∈ held

/-- There is nothing in the object tree of a bucket. -/
def NoObjects (b : String) (t : FileTree OsName) : Prop :=
  ∀ n, t.find (n :: objectsDir (bucketDir b)) = none

/-! ## The protocol -/

/-- The locks a task holds, and the bucket it has seen to be without objects since it holds the
bucket's lock exclusively. -/
abbrev Sight := Held × Option String

/-- What a task that looks at bucket `b` comes to know. -/
def learn (held : Held) (seen : Option String) : Option String → Option String
  | some b => if (.bucket b, .exclusive) ∈ held then some b else seen
  | none => seen

/-- The bucket whose object tree has its root at a path. -/
def objectsOf (p : Path OsName) : Option String :=
  match Place.ofPath p with
  | some (.objects b) => if p = objectsDir (bucketDir b) then some b else none
  | _ => none

/-- The bucket whose directory is at a path. -/
def bucketAt (p : Path OsName) : Option String :=
  match Place.ofPath p with
  | some (.bucket b) => if p = bucketDir b then some b else none
  | _ => none

/-- A directory is empty or not there. -/
def noEntries : Except IoError (List (OsName × Kind)) → Bool
  | .ok entries => entries.isEmpty
  | .error e => e.kind = .notFound

/-- Something is put into an object tree only under the bucket's lock. -/
def MayFill (a : Sight) (p : Path OsName) : Prop :=
  ∀ b n, p = n :: objectsDir (bucketDir b) → (∃ m, (.bucket b, m) ∈ a.1) ∧ a.2 ≠ some b

/-- Object files are changed under their locks, or removed with a bucket that has none. -/
def guarding : Protocol (sysSig OsName LockName) Sight where
  pre a
    | .mkdir p => MayFill a p
    | .createNew p => MayFill a p ∧ ∀ b k, ¬ ObjectFile b k p
    | .append p _ => ∀ b k, ¬ ObjectFile b k p
    | .rename src p =>
      MayFill a p ∧ (∀ b k, ¬ ObjectFile b k src) ∧ ∀ b k, ObjectFile b k p → KeyLocked a.1 b k
    | .unlink p => ∀ b k, ObjectFile b k p → KeyLocked a.1 b k ∨ a.2 = some b
    | _ => True
  post a
    | .lock l step, _, a' => a' = (heldAfter l step a.1, none)
    | .readDir p, r, a' => a' = (a.1, learn a.1 a.2 (if noEntries r then objectsOf p else none))
    | .mkdir p, .ok _, a' => a' = (a.1, learn a.1 a.2 (bucketAt p))
    | _, _, a' => a' = a

/-! ## One call -/

section Calls

variable {env : Env OsName} {w : World OsName} {b k : String} {p : Path OsName}

/-- A call that may fail, but not as if something were not there. -/
def Honest : Option (IoError × Nat) → Prop
  | none => True
  | some (e, _) => e.kind ≠ .notFound

instance decidableHonest : DecidablePred Honest
  | none => isTrue trivial
  | some (e, _) => inferInstanceAs (Decidable (e.kind ≠ .notFound))

theorem NoObjects.find_none {t : FileTree OsName} (h : NoObjects b t) : ∀ {rel : Path OsName},
    rel ≠ [] → t.find (rel ++ objectsDir (bucketDir b)) = none := by
  intro rel
  induction rel with
  | nil => exact fun hne => absurd rfl hne
  | cons n rel ih =>
      intro _
      by_contra hne
      cases rel with
      | nil => exact hne (h n)
      | cons m rel =>
          obtain ⟨i, hi⟩ := FileTree.isDir_of_find hne
          cases hi.symm.trans (ih (List.cons_ne_nil m rel))

theorem NoObjects.fileAt_none {t : FileTree OsName} (h : NoObjects b t) (hp : ObjectFile b k p) :
    t.fileAt p = none := by
  have absent : t.find p = none := by
    rcases hp with rfl | rfl
    · exact h.find_none (List.cons_ne_nil (utf8 META_FILE) (keyToRelPath k))
    · exact h.find_none (List.cons_ne_nil (utf8 (dataFileName NULL_VERSION_ID)) (keyToRelPath k))
  rw [FileTree.fileAt, absent]

theorem NoObjects.of_not_isDir {t : FileTree OsName} (h : ¬ t.IsDir (objectsDir (bucketDir b))) :
    NoObjects b t := by
  intro n
  by_contra hne
  exact h (FileTree.isDir_of_find hne)

/-- A call that puts nothing into an object tree leaves it empty. -/
theorem NoObjects.call (h : NoObjects b w.tree) {fault : Option (IoError × Nat)}
    {o : Sys OsName LockName} {x : o.Res × World OsName}
    (ho : ∀ n, ¬ o.Makes (n :: objectsDir (bucketDir b)))
    (hx : Pool.callOrFault env fault o w = some x) : NoObjects b x.2.tree := by
  intro n
  cases fault with
  | none =>
      cases hx
      exact World.find_exec_none env (ho n) (h n)
  | some f =>
      rcases World.execFault_world hx with hw | ⟨q, bs, hw⟩
      · rw [hw]
        exact h n
      · rw [hw]
        exact World.find_exec_none env (o := (.append q bs : Sys OsName LockName)) id (h n)

/-- A call that keeps to its locks changes an object file only under them. -/
theorem fileAt_guarded {a : Sight} {fault : Option (IoError × Nat)} {o : Sys OsName LockName}
    {x : o.Res × World OsName} (pre : guarding.pre a o)
    (sight : ∀ b, a.2 = some b → NoObjects b w.tree)
    (hx : Pool.callOrFault env fault o w = some x) (hp : ObjectFile b k p)
    (hchange : x.2.tree.fileAt p ≠ w.tree.fileAt p) : KeyLocked a.1 b k := by
  have touches : o.Touches p := by
    by_contra untouched
    refine hchange ?_
    cases fault with
    | none =>
        cases hx
        exact World.fileAt_exec_of env untouched
    | some f => exact World.fileAt_execFault_of hx untouched
  cases o with
  | createNew q => exact absurd (touches ▸ hp) (pre.2 b k)
  | append q bs => exact absurd (touches ▸ hp) (pre b k)
  | rename src q =>
      rcases touches with rfl | rfl
      · exact absurd hp (pre.2.1 b k)
      · exact pre.2.2 b k hp
  | unlink q =>
      obtain rfl : q = p := touches
      refine (pre b k hp).resolve_right fun seen => hchange ?_
      -- There is no such file, and removing it makes none.
      have absent := (sight b seen).fileAt_none hp
      rw [absent]
      by_contra hne
      obtain ⟨d, hd⟩ := Option.ne_none_iff_exists'.mp hne
      have old : w.tree.fileAt q = some d := by
        cases fault with
        | none =>
            cases hx
            exact ((World.fileAt_exec hd).resolve_right id).1
        | some f =>
            cases hx
            exact hd
      cases absent.symm.trans old
  | _ => exact touches.elim

/-- A call of another task leaves an object tree empty, unless it holds the bucket's lock. -/
theorem NoObjects.kept (h : NoObjects b w.tree) {a : Sight} {fault : Option (IoError × Nat)}
    {o : Sys OsName LockName} {x : o.Res × World OsName} (pre : guarding.pre a o)
    (hx : Pool.callOrFault env fault o w = some x)
    (other : (∀ m, (.bucket b, m) ∉ a.1) ∨ a.2 = some b) : NoObjects b x.2.tree := by
  have fill : ∀ {q n}, MayFill a q → q = n :: objectsDir (bucketDir b) → False := by
    intro q n hq heq
    obtain ⟨⟨m, hm⟩, hseen⟩ := hq b n heq
    rcases other with none | seen
    · exact none m hm
    · exact hseen seen
  refine h.call (fun n makes => ?_) hx
  cases o with
  | mkdir q => exact fill pre makes
  | createNew q => exact fill pre.1 makes
  | rename src q => exact fill pre.1 makes
  | _ => exact makes

theorem learn_eq_some {held : Held} {seen x : Option String} (h : learn held seen x = some b) :
    seen = some b ∨ x = some b ∧ (.bucket b, .exclusive) ∈ held := by
  cases x with
  | none => exact .inl h
  | some b' =>
      rw [learn] at h
      split_ifs at h with hheld
      · obtain rfl := Option.some.inj h
        exact .inr ⟨rfl, hheld⟩
      · exact .inl h

theorem objectsOf_eq_some (h : objectsOf p = some b) : p = objectsDir (bucketDir b) := by
  unfold objectsOf at h
  split at h
  · split_ifs at h with hp
    obtain rfl := Option.some.inj h
    exact hp
  · cases h

theorem bucketAt_eq_some (h : bucketAt p = some b) : p = bucketDir b := by
  unfold bucketAt at h
  split at h
  · split_ifs at h with hp
    obtain rfl := Option.some.inj h
    exact hp
  · cases h

theorem objectsOf_objects (b : String) : objectsOf (objectsDir (bucketDir b)) = some b := by
  have place : Place.ofPath (objectsDir (bucketDir b)) = some (.objects b) :=
    Place.ofPath_path (.objects b)
  rw [objectsOf, place]
  exact if_pos rfl

theorem bucketAt_bucket (b : String) : bucketAt (bucketDir b) = some b := by
  have place : Place.ofPath (bucketDir b) = some (.bucket b) := Place.ofPath_path (.bucket b)
  rw [bucketAt, place]
  exact if_pos rfl

theorem find_none_of_resolve {fits : OsName → Bool} {t : FileTree OsName} : ∀ {p : Path OsName},
    t.resolve fits p = .error .notFound → ∀ n, t.find (n :: p) = none := by
  intro p
  induction p with
  | nil => exact fun h => by cases h
  | cons m p ih =>
      intro h n
      by_contra hne
      obtain ⟨i, hi⟩ := FileTree.isDir_of_find hne
      rw [FileTree.resolve] at h
      split at h
      · rename_i e hp
        cases h
        cases hi.symm.trans (ih hp m)
      · cases h
      · split_ifs at h
        · rw [hi] at h
          cases h
        · cases h

/-- A bucket's object tree that shows no entries has no objects. -/
theorem NoObjects.of_readDir {fault : Option (IoError × Nat)} (honest : Honest fault)
    {x : Except IoError (List (OsName × Kind)) × World OsName}
    (hx : Pool.callOrFault env fault (.readDir (objectsDir (bucketDir b))) w = some x)
    (h : noEntries x.1 = true) : NoObjects b w.tree := by
  cases fault with
  | some f =>
      cases hx
      exact absurd (of_decide_eq_true h) honest
  | none =>
      cases hx
      change noEntries
        (((w.fs.readDir env.fits (objectsDir (bucketDir b))).mapError ErrorKind.os).map
        (env.order w.tick)) = true at h
      unfold Fs.readDir at h
      split at h
      · rename_i e he
        have kind : e = .notFound := of_decide_eq_true h
        exact find_none_of_resolve (kind ▸ he)
      · have kind : ErrorKind.notADirectory = .notFound := of_decide_eq_true h
        cases kind
      · intro n
        by_contra hne
        obtain ⟨y, hy⟩ := Option.ne_none_iff_exists'.mp hne
        have mem : (n, y.kind) ∈ w.fs.tree.children (objectsDir (bucketDir b)) :=
          FileTree.mem_children.mpr ⟨y, hy, rfl⟩
        have listed := (env.order_perm w.tick _).mem_iff.mpr mem
        have empty : env.order w.tick (w.fs.tree.children (objectsDir (bucketDir b))) = [] :=
          List.isEmpty_iff.mp h
        rw [empty] at listed
        cases listed

/-- A bucket that was just made has no objects. -/
theorem NoObjects.of_mkdir {fault : Option (IoError × Nat)} {x : Except IoError Unit × World OsName}
    (hx : Pool.callOrFault env fault (.mkdir (bucketDir b)) w = some x) (h : x.1 = .ok ()) :
    NoObjects b x.2.tree := by
  cases fault with
  | some f =>
      cases hx
      cases h
  | none =>
      have free : w.tree.find (bucketDir b) = none := by
        cases hx
        rcases Fs.mkdir_cases env.fits w.fs (bucketDir b) with
          ⟨n, q, i, -, -, -, -, -, hfree, -⟩ | ⟨e, he⟩
        · exact hfree
        · have ok := mapError_eq_ok.mp h
          rw [he] at ok
          cases ok
      have empty : NoObjects b w.tree := .of_not_isDir fun hdir => by
        obtain ⟨i, hi⟩ := FileTree.isDir_tail hdir
        cases hi.symm.trans free
      refine empty.call (fun n makes => ?_) hx
      have := congrArg List.length makes
      simp only [objectsDir, List.length_cons] at this
      omega

/-- What a task has seen stays true over its own calls. -/
theorem sight_call {a : Sight} {fault : Option (IoError × Nat)} {o : Sys OsName LockName}
    {x : o.Res × World OsName} (pre : guarding.pre a o) (honest : Honest fault)
    (hlock : ∀ l step, o ≠ .lock l step) (sight : ∀ b, a.2 = some b → NoObjects b w.tree)
    (hx : Pool.callOrFault env fault o w = some x) :
    ∃ a', guarding.post a o x.1 a' ∧ a'.1 = a.1 ∧ ∀ b, a'.2 = some b →
      NoObjects b x.2.tree ∧ (a.2 = some b ∨ (.bucket b, .exclusive) ∈ a.1) := by
  have own : ∀ b, a.2 = some b → NoObjects b x.2.tree := fun b seen =>
    (sight b seen).kept pre hx (.inr seen)
  have same : ∀ b, a.2 = some b → NoObjects b x.2.tree ∧
      (a.2 = some b ∨ (.bucket b, .exclusive) ∈ a.1) :=
    fun b seen => ⟨own b seen, .inl seen⟩
  cases o with
  | lock l step => exact absurd rfl (hlock l step)
  | readDir p =>
      refine ⟨_, rfl, rfl, fun b hb => ?_⟩
      rcases learn_eq_some hb with seen | ⟨looked, hheld⟩
      · exact same b seen
      · split_ifs at looked with hempty
        obtain rfl := objectsOf_eq_some looked
        have empty : NoObjects b w.tree := .of_readDir honest hx hempty
        exact ⟨empty.call (fun _ => id) hx, .inr hheld⟩
  | mkdir p =>
      obtain ⟨r, w'⟩ := x
      cases r with
      | error e => exact ⟨a, rfl, rfl, same⟩
      | ok u =>
          refine ⟨_, rfl, rfl, fun b hb => ?_⟩
          rcases learn_eq_some hb with seen | ⟨made, hheld⟩
          · exact same b seen
          · obtain rfl := bucketAt_eq_some made
            exact ⟨.of_mkdir hx rfl, .inr hheld⟩
  | _ => exact ⟨a, rfl, rfl, same⟩

end Calls

/-! ## The pool -/

section Steps

variable {env : Env OsName} {C : Crates} {s s' : Pool} {t : TaskId}

/-! ### Runs in which no request is dropped -/

/-- What every task has seen, besides the locks it holds. -/
structure Pool.Sighted (s : Pool) (seen : TaskId → Option String) : Prop where
  locks : s.Inv
  orphans : s.orphans = []
  jobs : ∀ t, (s.tasks t).JobFree
  tasks : ∀ t, s.tasks t ≠ .idle →
    guarding.Kept (fun _ _ => True) (s.tasks t).rest ((s.tasks t).held, seen t)
  sight : ∀ t b, seen t = some b →
    (.bucket b, .exclusive) ∈ (s.tasks t).held ∧ NoObjects b s.world.tree

variable {seen : TaskId → Option String}

theorem Pool.Inv.bucket_alone (h : s.Inv) {u : TaskId} {b : String} {m : Mode}
    (hu : (.bucket b, .exclusive) ∈ (s.tasks u).held) (ht : (.bucket b, m) ∈ (s.tasks t).held) :
    t = u := by
  have hu' := (h.holds_iff (.bucket b) .exclusive).mp hu
  have ht' := (h.holds_iff (.bucket b) m).mp ht
  exact (h.ok.exclusive hu' ht').1

/-- One task goes on, and the others keep what they have seen. -/
theorem Pool.Sighted.update (h : s.Sighted seen) {task : Task} {c : Option String}
    (locks : s'.Inv) (orphans : s'.orphans = s.orphans)
    (tasks : s'.tasks = Function.update s.tasks t task) (job : task.JobFree)
    (kept : task ≠ .idle → guarding.Kept (fun _ _ => True) task.rest (task.held, c))
    (own : ∀ b, c = some b → (.bucket b, .exclusive) ∈ task.held ∧ NoObjects b s'.world.tree)
    (others : ∀ u b, u ≠ t → seen u = some b → NoObjects b s'.world.tree) :
    s'.Sighted (Function.update seen t c) := by
  have other : ∀ u, u ≠ t → s'.tasks u = s.tasks u := fun u hu => by
    rw [tasks, Function.update_of_ne hu]
  have here : s'.tasks t = task := by rw [tasks, Function.update_self]
  refine ⟨locks, orphans.trans h.orphans, fun u => ?_, fun u hu => ?_, fun u b hu => ?_⟩
  · by_cases hut : u = t
    · subst hut
      rwa [here]
    · rw [other u hut]
      exact h.jobs u
  · by_cases hut : u = t
    · subst hut
      rw [here] at hu ⊢
      rw [Function.update_self]
      exact kept hu
    · rw [other u hut] at hu ⊢
      rw [Function.update_of_ne hut]
      exact h.tasks u hu
  · by_cases hut : u = t
    · subst hut
      rw [Function.update_self] at hu
      rw [here]
      exact own b hu
    · rw [Function.update_of_ne hut] at hu
      rw [other u hut]
      exact ⟨(h.sight u b hu).1, others u b hut hu⟩

theorem Pool.Sighted.taskStep (h : s.Sighted seen) {addr : Nat} {fault : Option (IoError × Nat)}
    (honest : Honest fault) (locks : s'.Inv) (hs : s.taskStep env t addr fault = some s') :
    ∃ seen', s'.Sighted seen' := by
  obtain ⟨busy, orphans, task, job, tasks, hstep⟩ := Pool.taskStep_cases hs
  have job := job (h.jobs t)
  have kept := h.tasks t busy
  rcases hstep with ⟨-, -, world, rfl, -⟩ | ⟨world, rest, held, -⟩ |
    ⟨l, step, k, hrest, world, rest, held, -⟩ | ⟨o, k, x, hlock, hrest, hx, world, rest, held, -⟩
  · exact ⟨_, h.update (c := none) locks orphans tasks job (fun hne => absurd rfl hne)
      (fun b hb => by cases hb)
      fun u b _ hu => world ▸ (h.sight u b hu).2⟩
  · refine ⟨_, h.update locks orphans tasks job (fun _ => rest ▸ held ▸ kept) (fun b hb => ?_)
      fun u b _ hu => world ▸ (h.sight u b hu).2⟩
    exact held ▸ world ▸ h.sight t b hb
  · rw [hrest] at kept
    have next := kept.2 () _ rfl
    exact ⟨_, h.update locks orphans tasks job (fun _ => rest ▸ held ▸ next)
      (fun b hb => by cases hb)
      fun u b _ hu => world ▸ (h.sight u b hu).2⟩
  · rw [hrest] at kept
    obtain ⟨a, post, same, sight⟩ := sight_call kept.1 honest (hlock (h.jobs t))
      (fun b hb => (h.sight t b hb).2) hx
    have next := kept.2 x.1 a post
    obtain ⟨held', know⟩ := a
    obtain rfl : held' = (s.tasks t).held := same
    refine ⟨_, h.update locks orphans tasks job (fun _ => rest ▸ held ▸ next) (fun b hb => ?_)
      fun u b hut hu => ?_⟩
    · obtain ⟨empty, seen | hheld⟩ := sight b hb
      · exact ⟨held ▸ (h.sight t b seen).1, world ▸ empty⟩
      · exact ⟨held ▸ hheld, world ▸ empty⟩
    · -- Another task has the bucket to itself, so this one holds no lock of it.
      obtain ⟨alone, empty⟩ := h.sight u b hu
      rw [world]
      refine empty.kept kept.1 hx (.inl fun m hm => hut ?_)
      exact (h.locks.bucket_alone alone hm).symm

theorem Pool.Sighted.start (h : s.Sighted seen) {r : Req} (locks : s'.Inv)
    (kept : guarding.KeptBy Op.code (fun _ _ => True) (serve C r) ([], none))
    (hs : s.start C t r = some s') : ∃ seen', s'.Sighted seen' := by
  obtain ⟨world, orphans, -, tasks⟩ := Pool.start_cases hs
  exact ⟨_, h.update (c := none) locks orphans tasks trivial (fun _ => Protocol.KeptBy.map kept)
    (fun b hb => by cases hb) fun u b _ hu => world ▸ (h.sight u b hu).2⟩

/-- No request is dropped, and no call claims in vain that something is not there. -/
def Label.Calm : Label → Prop
  | .drop _ => False
  | .step _ _ fault => Honest fault
  | _ => True

instance decidableCalm : DecidablePred Label.Calm
  | .drop _ => isFalse id
  | .step _ _ fault => decidableHonest fault
  | .start _ _ | .grant _ | .orphan _ _ | .clock _ | .kill => isTrue trivial

theorem Pool.Sighted.next (h : s.Sighted seen) {label : Label} (calm : label.Calm)
    (kept : ∀ r, guarding.KeptBy Op.code (fun _ _ => True) (serve C r) ([], none))
    (hs : s.next env C label = some s') : ∃ seen', s'.Sighted seen' := by
  have locks : s'.Inv := h.locks.next hs
  cases label with
  | start t r => exact h.start locks (kept r) hs
  | step t addr fault => exact h.taskStep calm locks hs
  | grant addr =>
      obtain ⟨_, -, rfl⟩ := Option.map_eq_some_iff.mp hs
      exact ⟨seen, locks, h.orphans, h.jobs, h.tasks, h.sight⟩
  | drop t => exact calm.elim
  | orphan i fault =>
      change s.orphan env i fault = some s' at hs
      rw [Pool.orphan, h.orphans] at hs
      cases hs
  | clock now =>
      cases hs
      exact ⟨seen, locks, h.orphans, h.jobs, h.tasks, h.sight⟩
  | kill =>
      cases hs
      exact ⟨fun _ => none, locks, rfl, fun _ => trivial, fun _ hne => absurd rfl hne,
        fun _ _ hb => by cases hb⟩

theorem Pool.sighted_run (kept : ∀ r, guarding.KeptBy Op.code (fun _ _ => True)
    (serve C r) ([], none)) :
    ∀ {ls : List Label} {s : Pool} {seen : TaskId → Option String}, (∀ l ∈ ls, l.Calm) →
      s.Sighted seen → s.run env C ls = some s' → ∃ seen', s'.Sighted seen'
  | [], _, seen, _, h, hs => by
      cases hs
      exact ⟨seen, h⟩
  | label :: ls, _, _, calm, h, hs => by
      obtain ⟨s₁, hs₁, hs⟩ := Option.bind_eq_some_iff.mp hs
      obtain ⟨_, h₁⟩ := h.next (calm label List.mem_cons_self) kept hs₁
      exact Pool.sighted_run kept (fun l hl => calm l (List.mem_cons_of_mem _ hl)) h₁ hs

theorem Pool.sighted_init (w : World OsName) : (Pool.init w).Sighted fun _ => none :=
  ⟨Pool.inv_init w, rfl, fun _ => trivial, fun _ hne => absurd rfl hne, fun _ _ hb => by cases hb⟩

/-- A step changes an object file only if a task takes it that holds the locks for it. -/
theorem Pool.Sighted.change (h : s.Sighted seen) {label : Label} (hs : s.next env C label = some s')
    {b k : String} {p : Path OsName} (hp : ObjectFile b k p)
    (hchange : s'.world.tree.fileAt p ≠ s.world.tree.fileAt p) :
    ∃ t addr fault, label = .step t addr fault ∧ KeyLocked (s.tasks t).held b k := by
  cases label with
  | start t r =>
      have world := (Pool.start_cases hs).1
      rw [world] at hchange
      exact absurd rfl hchange
  | step t addr fault =>
      obtain ⟨busy, -, task, -, -, hstep⟩ := Pool.taskStep_cases hs
      have kept := h.tasks t busy
      rcases hstep with ⟨-, -, world, -⟩ | ⟨world, -⟩ | ⟨l, step, k, -, world, -⟩ |
        ⟨o, k, x, -, hrest, hx, world, -⟩
      · rw [world] at hchange
        exact absurd rfl hchange
      · rw [world] at hchange
        exact absurd rfl hchange
      · rw [world] at hchange
        exact absurd rfl hchange
      · rw [hrest] at kept
        rw [world] at hchange
        exact ⟨t, addr, fault, rfl,
          fileAt_guarded kept.1 (fun b hb => (h.sight t b hb).2) hx hp hchange⟩
  | grant addr =>
      obtain ⟨_, -, rfl⟩ := Option.map_eq_some_iff.mp hs
      exact absurd rfl hchange
  | drop t =>
      have world := (Pool.drop_cases hs).2.1
      rw [world] at hchange
      exact absurd rfl hchange
  | orphan i fault =>
      change s.orphan env i fault = some s' at hs
      rw [Pool.orphan, h.orphans] at hs
      cases hs
  | clock now =>
      cases hs
      exact absurd rfl hchange
  | kill =>
      cases hs
      exact absurd rfl hchange

end Steps

end Aks3.Engine
