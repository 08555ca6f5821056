import Aks3.Engine.Guards
import Aks3.Engine.Methods
import Aks3.Engine.Stakes

/-!
# What a writer leaves behind

A task that holds the lock of a key keeps a journal: what it has published and removed since it
took the lock, and what it knew when it gave the lock back. Since the files of a key change only
under its lock, a journal stays true until the lock is taken again. So the order in which the
lock of a key was taken says whose journal describes its files (`standing`), also after the
request has ended (`Pool.journaled_run`).
-/

set_option autoImplicit false

namespace Aks3.Engine

open Lib

/-! ## Journals -/

/-- What is known of files: nothing, or the bytes of each, or that it is not there. -/
abbrev Known := Path OsName → Option (Option Bytes)

structure Journal where
  stakes : Stakes
  held : Held
  /-- What the task has made of files since it last took a lock. -/
  files : Known
  /-- The key whose lock it gave back, and what it knew then. -/
  left : Option (String × String × Known)

namespace Journal

/-- The journal of a task that has done nothing yet. -/
def fresh : Journal := ⟨fun _ => none, [], fun _ => none, none⟩

/-- Locks of keys are exclusive, and a task takes one of them, once. -/
def MayLock (j : Journal) : Sys OsName LockName → Prop
  | .lock (.key _ _) (.take m) => m = .exclusive
  | .lock (.key b k) (.drop m) => j.left = none ∧ (.key b k, m) ∈ j.held ∧
    ∀ m', (.key b k, m') ∉ j.held.erase (.key b k, m)
  | _ => True

def heldAfter (j : Journal) : Sys OsName LockName → Held
  | .lock l step => Engine.heldAfter l step j.held
  | _ => j.held

def filesAfter (j : Journal) : (o : Sys OsName LockName) → o.Res → Known
  | .rename src dst, .ok _ => Function.update j.files dst ((j.stakes src).join.map some)
  | .rename _ dst, .error _ => Function.update j.files dst none
  | .unlink p, .ok _ => Function.update j.files p (some none)
  | .unlink p, .error e => Function.update j.files p
      (if e.kind = .notFound then some none else none)
  | .lock _ (.take _), _ => fun _ => none
  | _, _ => j.files

def leftAfter (j : Journal) : Sys OsName LockName → Option (String × String × Known)
  | .lock (.key b k) (.drop _) => some (b, k, j.files)
  | _ => j.left

end Journal

/-- Writers that keep a journal. -/
def journaling (Fine : Path OsName → Bytes → Prop) : Protocol (sysSig OsName LockName) Journal where
  pre j o := (publishing Fine).pre j.stakes o ∧ j.MayLock o
  post j o r j' := (publishing Fine).post j.stakes o r j'.stakes ∧ j'.held = j.heldAfter o ∧
    j'.files = j.filesAfter o r ∧ j'.left = j.leftAfter o

/-! ## One call -/

section Calls

variable {env : Env OsName} {Fine : Path OsName → Bytes → Prop} {w : World OsName}
  {acc : Owner → Stakes} {u : Owner} {p : Path OsName}

theorem Staked.inTmp (h : Staked env Fine w acc) (hp : acc u p ≠ none) : InTmp p := by
  obtain ⟨i, -, rfl⟩ := h.drawn u p hp
  exact ⟨_, rfl⟩

/-- A file that was not found is not there. -/
theorem fileAt_of_unlink_notFound {fs : Fs OsName} {fits : OsName → Bool}
    (h : (fs.unlink fits p).1 = .error .notFound) : fs.tree.fileAt p = none := by
  have absent : fs.tree.find p = none := by
    cases p with
    | nil => cases h
    | cons n q =>
        simp only [Fs.unlink] at h
        split at h
        · rename_i e he
          cases h
          unfold FileTree.locate at he
          split at he
          · rename_i e' hq
            cases he
            exact find_none_of_resolve hq n
          · cases he
          · split_ifs at he
            cases he
        · rename_i i he
          exact (FileTree.find_of_locate he).2
        · cases h
        · cases h
  rw [FileTree.fileAt, absent]

/-- **What a journal says of a published file stays true over the calls of its task.** -/
theorem filesAfter_call {j : Journal} (h : Staked env Fine w acc) (hj : j.stakes = acc u)
    {fault : Option (IoError × Nat)} {o : Sys OsName LockName} {x : o.Res × World OsName}
    (pre : (publishing Fine).pre j.stakes o) (honest : Honest fault)
    (hx : Pool.callOrFault env fault o w = some x) (hp : ¬ InTmp p)
    (known : ∀ y, j.files p = some y → w.tree.fileAt p = y) :
    ∀ y, j.filesAfter o x.1 p = some y → x.2.tree.fileAt p = y := by
  have mine : ∀ {q}, j.stakes q ≠ none → q ≠ p := by
    rintro q hq rfl
    exact hp (h.inTmp (u := u) (hj ▸ hq))
  have same : ¬ o.Touches p → x.2.tree.fileAt p = w.tree.fileAt p := by
    intro untouched
    cases fault with
    | none =>
        cases hx
        exact World.fileAt_exec_of env untouched
    | some f => exact World.fileAt_execFault_of hx untouched
  have still : ¬ o.Touches p → ∀ y, j.files p = some y → x.2.tree.fileAt p = y :=
    fun untouched y hy => (same untouched).trans (known y hy)
  cases o with
  | rename src dst =>
      obtain ⟨-, bs, hbs, -⟩ := pre
      have hsrc : src ≠ p := mine (by simp [hbs])
      obtain ⟨r, w'⟩ := x
      by_cases hdst : p = dst
      · subst hdst
        intro y hy
        cases r with
        | error e =>
            simp only [Journal.filesAfter, Function.update_self] at hy
            cases hy
        | ok v =>
            simp only [Journal.filesAfter, Function.update_self, hbs, Option.join_some,
              Option.map_some] at hy
            cases hy
            cases fault with
            | some f => cases hx
            | none =>
                have moved := congrArg Prod.fst (Option.some.inj hx)
                obtain rfl : _ = w' := congrArg Prod.snd (Option.some.inj hx)
                have ok : (w.fs.rename env.fits src p).1 = .ok () := mapError_eq_ok.mp moved
                change (w.fs.rename env.fits src p).2.tree.fileAt p = some bs
                rw [Fs.fileAt_rename, if_pos ok, if_pos rfl]
                rcases Fs.rename_cases env.fits w.fs src p with
                  ⟨_, _, _, _, _, _, a, d, _, -, -, -, -, -, -, hfile, -, -⟩ | ⟨e, he⟩
                · have hd : w.fs.tree.fileAt src = some d := FileTree.fileAt_eq_some.mpr ⟨a, hfile⟩
                  rw [hd, h.bytes u src bs d (hj ▸ hbs) hd]
                · rw [he] at ok
                  cases ok
      · have untouched : ¬ Sys.Touches p (.rename src dst : Sys OsName LockName) := by
          rintro (heq | heq)
          · exact hsrc heq
          · exact hdst heq.symm
        intro y hy
        cases r with
        | error e =>
            simp only [Journal.filesAfter, Function.update_of_ne hdst] at hy
            exact still untouched y hy
        | ok v =>
            simp only [Journal.filesAfter, Function.update_of_ne hdst] at hy
            exact still untouched y hy
  | unlink q =>
      obtain ⟨r, w'⟩ := x
      by_cases hq : p = q
      · subst hq
        intro y hy
        cases r with
        | error e =>
            simp only [Journal.filesAfter, Function.update_self] at hy
            split_ifs at hy with kind
            cases hy
            cases fault with
            | some f =>
                cases hx
                exact absurd kind honest
            | none =>
                have failed := congrArg Prod.fst (Option.some.inj hx)
                obtain rfl : _ = w' := congrArg Prod.snd (Option.some.inj hx)
                change (w.fs.unlink env.fits p).1.mapError ErrorKind.os = .error e at failed
                change (w.fs.unlink env.fits p).2.tree.fileAt p = none
                cases hr : (w.fs.unlink env.fits p).1 with
                | ok v =>
                    rw [hr] at failed
                    cases failed
                | error e' =>
                    rw [hr] at failed
                    cases failed
                    have kind : e' = .notFound := kind
                    rw [Fs.fileAt_unlink, hr, if_neg (by simp)]
                    exact fileAt_of_unlink_notFound (kind ▸ hr)
        | ok v =>
            simp only [Journal.filesAfter, Function.update_self] at hy
            cases hy
            cases fault with
            | some f => cases hx
            | none =>
                have removed := congrArg Prod.fst (Option.some.inj hx)
                obtain rfl : _ = w' := congrArg Prod.snd (Option.some.inj hx)
                have ok : (w.fs.unlink env.fits p).1 = .ok () := mapError_eq_ok.mp removed
                change (w.fs.unlink env.fits p).2.tree.fileAt p = none
                rw [Fs.fileAt_unlink, if_pos ⟨ok, rfl⟩]
      · intro y hy
        have untouched : ¬ Sys.Touches p (.unlink q : Sys OsName LockName) := fun heq => hq heq.symm
        cases r with
        | error e =>
            simp only [Journal.filesAfter, Function.update_of_ne hq] at hy
            exact still untouched y hy
        | ok v =>
            simp only [Journal.filesAfter, Function.update_of_ne hq] at hy
            exact still untouched y hy
  | createNew q => exact still (mine pre)
  | append q bs => exact still (mine pre)
  | lock l step =>
      cases step with
      | take m => exact fun y hy => by cases hy
      | _ => exact still id
  | _ => exact still id

end Calls

/-! ## Whose journal counts -/

/-- How far the last request has come that took the lock of a key. -/
inductive Standing where
  /-- None has, or it came to no good end. -/
  | free
  | held (t : TaskId)
  /-- It has given the lock back, and was not answered yet. -/
  | pending (t : TaskId)
  /-- It was answered that it is done. -/
  | confirmed (r : Req)

/-- A task ends. Its request counts as done if it was answered so. -/
def Standing.ended (t : TaskId) (done : Option Req) : Standing → Standing
  | .held u => if u = t then .free else .held u
  | .pending u => if u = t then done.elim .free .confirmed else .pending u
  | st => st

def Standing.killed : Standing → Standing
  | .confirmed r => .confirmed r
  | _ => .free

def Standing.isConfirmed : Standing → Bool
  | .confirmed _ => true
  | _ => false

/-- The request, if it was answered that it is done. -/
def doneRequest (r : Option Req) : Option Resp → Option Req
  | some (.ok _) => r
  | _ => none

/-- How the key stands after what was seen of a run. -/
def standing (b k : String) : List Event → Standing
  | [] => .free
  | .took t l _ :: events => if l = .key b k then .held t else standing b k events
  | .gave t l _ :: events => if l = .key b k then .pending t else standing b k events
  | .ended t resp :: events =>
    (standing b k events).ended t (doneRequest (lastRequest t events) resp)
  | .killed :: events => (standing b k events).killed
  | _ :: events => standing b k events

/-- What is known of the files of a key is true. -/
def Agree (t : FileTree OsName) (b k : String) (f : Known) : Prop :=
  ∀ p, ObjectFile b k p → ∀ y, f p = some y → t.fileAt p = y

/-- The files of a key are as a request for it was to leave them: the body of a `PUT` with a
manifest whose latest version is the one it stored, and nothing after a `DELETE`. -/
def LeftBy (C : Crates) (b k : String) (t : FileTree OsName) : Req → Prop
  | .putObject b' k' body opts => b' = b ∧ k' = k ∧ ∃ bytes now m, collect body = .ok bytes ∧
    t.fileAt (Place.data b k).path = some bytes ∧
    t.fileAt (Place.manifest b k).path = some (C.manifestJson.toVec m) ∧
    m.latest = some (bodyEntry C opts bytes now)
  | .deleteObject b' k' => b' = b ∧ k' = k ∧ t.fileAt (Place.manifest b k).path = none ∧
    t.fileAt (Place.data b k).path = none
  | _ => False

/-- Whoever finds the files as the journal says finds what the request was to leave. -/
def Journal.Fulfils (C : Crates) (j : Journal) (r : Req) : Prop :=
  ∀ b k f, j.left = some (b, k, f) → ∀ t : FileTree OsName, Agree t b k f → LeftBy C b k t r

/-- The journal of a request that was answered that it is done. -/
def Concludes (C : Crates) (r : Req) (x : Option Resp) (j : Journal) : Prop :=
  ∀ answer, x = some (.ok answer) → j.Fulfils C r

theorem LeftBy.congr {C : Crates} {b k : String} {t t' : FileTree OsName} {r : Req}
    (h : LeftBy C b k t r) (same : ∀ p, ObjectFile b k p → t'.fileAt p = t.fileAt p) :
    LeftBy C b k t' r := by
  have manifest := same _ (.inl rfl)
  have data := same _ (.inr rfl)
  cases r with
  | putObject b' k' body opts =>
      obtain ⟨hb, hk, bytes, now, m, hbody, hdata, hmanifest, hlatest⟩ := h
      exact ⟨hb, hk, bytes, now, m, hbody, data.trans hdata, manifest.trans hmanifest, hlatest⟩
  | deleteObject b' k' =>
      obtain ⟨hb, hk, hmanifest, hdata⟩ := h
      exact ⟨hb, hk, manifest.trans hmanifest, data.trans hdata⟩
  | _ => exact h.elim

theorem ObjectFile.not_inTmp {b k : String} {p : Path OsName}
    (h : ObjectFile b k p) : ¬ InTmp p := by
  rintro ⟨n, rfl⟩
  have tail : Place.tmp.path = (Place.object b k).path := by
    rcases h with h | h
    · exact congrArg List.tail h
    · exact congrArg List.tail h
  cases Place.path_inj.mp tail

/-! ## The pool -/

section Pool

variable (env : Env OsName) (C : Crates) (Fine : Path OsName → Bytes → Prop)

/-- The staged files of the tasks; there are no other jobs. -/
def stakesOf (acc : TaskId → Journal) : Owner → Stakes
  | .inl t => (acc t).stakes
  | .inr _ => fun _ => none

/-- What the standing of a key says about its files. -/
def Stands (s : Pool) (acc : TaskId → Journal) (b k : String) : Standing → Prop
  | .free => True
  | .held t => (.key b k, .exclusive) ∈ (s.tasks t).held ∧ Agree s.world.tree b k (acc t).files
  | .pending t => s.tasks t ≠ .idle ∧
    ∃ f, (acc t).left = some (b, k, f) ∧ Agree s.world.tree b k f
  | .confirmed r => LeftBy C b k s.world.tree r

structure Pool.Journaled (s : Pool) (acc : TaskId → Journal) : Prop where
  sighted : ∃ seen, s.Sighted seen
  staked : Staked env Fine s.world (stakesOf acc)
  tasks : ∀ t, s.tasks t ≠ .idle → ∃ r, lastRequest t s.events = some r ∧
    (acc t).held = (s.tasks t).held ∧
    (journaling Fine).Kept (Concludes C r) (s.tasks t).rest (acc t)
  holder : ∀ t b k m, (.key b k, m) ∈ (s.tasks t).held → standing b k s.events = .held t
  stands : ∀ b k, Stands C s acc b k (standing b k s.events)

variable {env C Fine} {s s' : Pool} {acc : TaskId → Journal} {t : TaskId} {task : Task}
  {j : Journal} {b k : String}

theorem stakesOf_update : stakesOf (Function.update acc t j) =
    Function.update (stakesOf acc) (.inl t) j.stakes := by
  funext u
  cases u with
  | inl u =>
      by_cases hut : u = t
      · subst hut
        rw [Function.update_self, stakesOf, Function.update_self]
      · rw [Function.update_of_ne fun heq => hut (Sum.inl.inj heq), stakesOf,
          Function.update_of_ne hut]
        rfl
  | inr i =>
      rw [Function.update_of_ne Sum.inr_ne_inl]
      rfl

/-- A standing that is not of the task that takes a step lasts while the files do. -/
theorem Stands.carry {st : Standing} (h : Stands C s acc b k st)
    (tasks : s'.tasks = Function.update s.tasks t task)
    (files : st ≠ .held t → ∀ p, ObjectFile b k p → s'.world.tree.fileAt p = s.world.tree.fileAt p)
    (held : st = .held t → (.key b k, .exclusive) ∈ task.held ∧ Agree s'.world.tree b k j.files)
    (pending : st = .pending t → task ≠ .idle ∧ j.left = (acc t).left) :
    Stands C s' (Function.update acc t j) b k st := by
  have agree : ∀ {f}, st ≠ .held t → Agree s.world.tree b k f → Agree s'.world.tree b k f :=
    fun hst hf p hp y hy => (files hst p hp).trans (hf p hp y hy)
  cases st with
  | free => trivial
  | held u =>
      by_cases hut : u = t
      · subst hut
        rw [Stands, tasks, Function.update_self, Function.update_self]
        exact held rfl
      · rw [Stands, tasks, Function.update_of_ne hut, Function.update_of_ne hut]
        exact ⟨h.1, agree (fun heq => hut (Standing.held.inj heq)) h.2⟩
  | pending u =>
      obtain ⟨busy, f, hleft, hf⟩ := h
      have still : Agree s'.world.tree b k f := agree Standing.noConfusion hf
      by_cases hut : u = t
      · subst hut
        obtain ⟨hidle, same⟩ := pending rfl
        rw [Stands, tasks, Function.update_self, Function.update_self]
        exact ⟨hidle, f, same.trans hleft, still⟩
      · rw [Stands, tasks, Function.update_of_ne hut, Function.update_of_ne hut]
        exact ⟨busy, f, hleft, still⟩
  | confirmed r => exact LeftBy.congr h (files Standing.noConfusion)

namespace Pool.Journaled

/-- One task goes on with a new journal. -/
theorem update (h : s.Journaled env C Fine acc) (sighted : ∃ seen, s'.Sighted seen)
    (tasks : s'.tasks = Function.update s.tasks t task)
    (staked : Staked env Fine s'.world (Function.update (stakesOf acc) (.inl t) j.stakes))
    (last : ∀ u, u ≠ t → lastRequest u s'.events = lastRequest u s.events)
    (own : task ≠ .idle → ∃ r, lastRequest t s'.events = some r ∧ j.held = task.held ∧
      (journaling Fine).Kept (Concludes C r) task.rest j)
    (others : ∀ u b k m, u ≠ t → (.key b k, m) ∈ (s.tasks u).held →
      standing b k s'.events = standing b k s.events)
    (mine : ∀ b k m, (.key b k, m) ∈ task.held → standing b k s'.events = .held t)
    (stands : ∀ b k, Stands C s' (Function.update acc t j) b k (standing b k s'.events)) :
    s'.Journaled env C Fine (Function.update acc t j) := by
  refine ⟨sighted, stakesOf_update ▸ staked, fun u hu => ?_, fun u b k m hu => ?_, stands⟩
  · rw [tasks] at hu ⊢
    by_cases hut : u = t
    · subst hut
      rw [Function.update_self] at hu ⊢
      rw [Function.update_self]
      exact own hu
    · rw [Function.update_of_ne hut] at hu ⊢
      rw [Function.update_of_ne hut, last u hut]
      exact h.tasks u hu
  · rw [tasks] at hu
    by_cases hut : u = t
    · subst hut
      rw [Function.update_self] at hu
      exact mine b k m hu
    · rw [Function.update_of_ne hut] at hu
      exact (others u b k m hut hu).trans (h.holder u b k m hu)

/-- A step of a task changes the files of the key it has locked, and no others. -/
theorem files_step (h : s.Journaled env C Fine acc) {addr : Nat} {fault : Option (IoError × Nat)}
    (hs : s.taskStep env t addr fault = some s') (hst : standing b k s.events ≠ .held t)
    (p : Path OsName) (hp : ObjectFile b k p) :
    s'.world.tree.fileAt p = s.world.tree.fileAt p := by
  by_contra hchange
  obtain ⟨seen, sighted⟩ := h.sighted
  have hnext : s.next env C (.step t addr fault) = some s' := hs
  obtain ⟨u, _, _, heq, locked⟩ := sighted.change hnext hp hchange
  cases heq
  exact hst (h.holder t b k .exclusive locked.1)

theorem finish (h : s.Journaled env C Fine acc) (sighted : ∃ seen, s'.Sighted seen)
    {resp : Option Resp} {r : Req} (hr : lastRequest t s.events = some r)
    (done : Concludes C r resp (acc t)) (world : s'.world = s.world)
    (tasks : s'.tasks = Function.update s.tasks t .idle)
    (events : s'.events = .ended t resp :: s.events) : s'.Journaled env C Fine acc := by
  have same : Function.update acc t (acc t) = acc := Function.update_eq_self t acc
  have others : ∀ u b k m, u ≠ t → (.key b k, m) ∈ (s.tasks u).held →
      standing b k s'.events = standing b k s.events := by
    intro u b k m hut hu
    have hold := h.holder u b k m hu
    rw [events, standing, hold, Standing.ended, if_neg hut]
  have stands : ∀ b k, Stands C s' (Function.update acc t (acc t)) b k
      (standing b k s'.events) := by
    intro b k
    have before := h.stands b k
    have carry : ∀ {st}, Stands C s acc b k st → st ≠ .held t → st ≠ .pending t →
        Stands C s' (Function.update acc t (acc t)) b k st := fun hst hheld hpending =>
      hst.carry tasks (fun _ p _ => by rw [world]) (fun heq => absurd heq hheld)
        fun heq => absurd heq hpending
    rw [events, standing]
    cases hst : standing b k s.events with
    | free => trivial
    | confirmed r' =>
        rw [hst] at before
        exact carry before Standing.noConfusion Standing.noConfusion
    | held u =>
        rw [Standing.ended]
        split_ifs with hut
        · trivial
        · exact carry (hst ▸ before) (fun heq => hut (Standing.held.inj heq)) Standing.noConfusion
    | pending u =>
        rw [Standing.ended]
        split_ifs with hut
        · subst hut
          rw [hst] at before
          obtain ⟨-, f, hleft, hf⟩ := before
          rw [hr]
          rcases resp with _ | e | answer
          · trivial
          · trivial
          · exact done answer rfl b k f hleft _ (world ▸ hf)
        · exact carry (hst ▸ before) Standing.noConfusion fun heq => hut (Standing.pending.inj heq)
  have next := h.update (j := acc t) sighted tasks
    (by rw [← stakesOf_update, same, world]; exact h.staked) (fun u _ => by rw [events]; rfl)
    (fun hne => absurd rfl hne) others (fun b k m hm => by cases hm) stands
  rwa [same] at next

/-- A step on the tables. -/
theorem lockStep (h : s.Journaled env C Fine acc) (sighted : ∃ seen, s'.Sighted seen)
    {l : LockName} {step : LockStep} {k' : Unit → WalkProg (Option Resp)} {r : Req}
    (hr : lastRequest t s.events = some r) (hheld : (acc t).held = (s.tasks t).held)
    (kept : (journaling Fine).Kept (Concludes C r) (.op (.lock l step) k') (acc t))
    (world : s'.world = s.world) (tasks : s'.tasks = Function.update s.tasks t task)
    (busy : task ≠ .idle) (rest : task.rest = k' ())
    (held : task.held = heldAfter l step (s.tasks t).held)
    (events : s'.events = lockEvents t l step ++ s.events) :
    ∃ acc', s'.Journaled env C Fine acc' := by
  obtain ⟨⟨-, allowed⟩, next⟩ := kept
  let j : Journal := ⟨(acc t).stakes, heldAfter l step (acc t).held,
    (acc t).filesAfter (.lock l step) (), (acc t).leftAfter (.lock l step)⟩
  have last : ∀ u, lastRequest u s'.events = lastRequest u s.events := by
    intro u
    rw [events]
    cases step <;> rfl
  have apart : ∀ {b k}, l ≠ .key b k → standing b k s'.events = standing b k s.events := by
    intro b k hl
    rw [events]
    cases step with
    | take m => exact if_neg hl
    | drop m => exact if_neg hl
    | _ => rfl
  refine ⟨Function.update acc t j, h.update sighted tasks ?_ (fun u _ => last u)
    (fun _ => ⟨r, (last t).trans hr, ?_, ?_⟩) (fun u b k m hut hu => ?_) (fun b k m hm => ?_)
    fun b k => ?_⟩
  · have same : Function.update (stakesOf acc) (.inl t) j.stakes = stakesOf acc :=
      Function.update_eq_self (.inl t) (stakesOf acc)
    rw [same, world]
    exact h.staked
  · rw [held, ← hheld]
  · rw [rest]
    exact next () j ⟨rfl, rfl, rfl, rfl⟩
  · -- Nobody else holds a lock of a key that is taken, or was held.
    by_cases hl : l = .key b k
    · subst hl
      cases step with
      | take m' =>
          obtain ⟨seen, sighted⟩ := sighted
          obtain rfl : m' = .exclusive := allowed
          have hu' : (.key b k, m) ∈ (s'.tasks u).held := by rwa [tasks, Function.update_of_ne hut]
          have ht' : (.key b k, .exclusive) ∈ (s'.tasks t).held := by
            rw [tasks, Function.update_self, held]
            exact List.mem_cons_self
          exact absurd (sighted.locks.ok.exclusive ((sighted.locks.holds_iff _ _).mp ht')
            ((sighted.locks.holds_iff _ _).mp hu')).1 hut
      | drop m' =>
          have ht := h.holder t b k m' (hheld ▸ allowed.2.1)
          exact absurd (Standing.held.inj ((h.holder u b k m hu).symm.trans ht)) hut
      | _ =>
          rw [events]
          rfl
    · exact apart hl
  · rw [held] at hm
    by_cases hl : l = .key b k
    · subst hl
      rw [events]
      cases step with
      | take m' => exact if_pos rfl
      | drop m' => exact absurd hm (hheld ▸ allowed.2.2 m)
      | _ => exact h.holder t b k m hm
    · rw [apart hl]
      refine h.holder t b k m ?_
      cases step with
      | take m' =>
          rcases List.mem_cons.mp hm with heq | hm
          · exact absurd (Prod.ext_iff.mp heq).1.symm hl
          · exact hm
      | drop m' => exact List.mem_of_mem_erase hm
      | _ => exact hm
  · have before := h.stands b k
    -- What the lock of another key does to the journal leaves this one's part of it alone.
    have carry : (∀ m, step = .drop m → l ≠ .key b k) → Stands C s' (Function.update acc t j) b k
        (standing b k s.events) := by
      intro hdrop
      refine before.carry tasks (fun _ p _ => by rw [world]) (fun heq => ?_) fun heq => ⟨busy, ?_⟩
      · rw [heq] at before
        obtain ⟨hmem, hfiles⟩ := before
        rw [held, world]
        cases step with
        | take m => exact ⟨List.mem_cons_of_mem _ hmem, fun _ _ _ hy => by cases hy⟩
        | drop m =>
            refine ⟨(List.mem_erase_of_ne fun heq => ?_).mpr hmem, hfiles⟩
            exact hdrop m rfl (Prod.ext_iff.mp heq).1.symm
        | _ => exact ⟨hmem, hfiles⟩
      · rw [heq] at before
        obtain ⟨-, f, hleft, -⟩ := before
        cases l with
        | bucket b' => rfl
        | key b' k' =>
            cases step with
            | drop m =>
                rw [allowed.1] at hleft
                cases hleft
            | _ => rfl
    by_cases hl : l = .key b k
    · subst hl
      rw [events]
      cases step with
      | take m =>
          have now : standing b k (lockEvents t (.key b k) (.take m) ++ s.events) = .held t :=
            if_pos rfl
          obtain rfl : m = .exclusive := allowed
          rw [now, Stands, tasks, Function.update_self, Function.update_self, held]
          exact ⟨List.mem_cons_self, fun _ _ _ hy => by cases hy⟩
      | drop m =>
          have now : standing b k (lockEvents t (.key b k) (.drop m) ++ s.events) = .pending t :=
            if_pos rfl
          rw [h.holder t b k m (hheld ▸ allowed.2.1)] at before
          rw [now, Stands, tasks, Function.update_self, Function.update_self, world]
          exact ⟨busy, _, rfl, before.2⟩
      | _ => exact carry fun m hm => by cases hm
    · rw [apart hl]
      exact carry fun _ _ => hl

/-- A call that is not on the tables. -/
theorem call (h : s.Journaled env C Fine acc) (sighted : ∃ seen, s'.Sighted seen)
    {addr : Nat} {fault : Option (IoError × Nat)} (honest : Honest fault)
    (hs : s.taskStep env t addr fault = some s') {o : Sys OsName LockName}
    {k' : o.Res → WalkProg (Option Resp)} {x : o.Res × World OsName} {r : Req}
    (hlock : ∀ l step, o ≠ .lock l step)
    (hr : lastRequest t s.events = some r) (hheld : (acc t).held = (s.tasks t).held)
    (kept : (journaling Fine).Kept (Concludes C r) (.op o k') (acc t))
    (hx : Pool.callOrFault env fault o s.world = some x) (world : s'.world = x.2)
    (tasks : s'.tasks = Function.update s.tasks t task) (busy : task ≠ .idle)
    (rest : task.rest = k' x.1) (held : task.held = (s.tasks t).held)
    (events : s'.events = s.events) : ∃ acc', s'.Journaled env C Fine acc' := by
  obtain ⟨⟨pre, -⟩, next⟩ := kept
  obtain ⟨a, post, staked⟩ := h.staked.call (u := .inl t) pre hx
  have heldAfter : (acc t).heldAfter o = (acc t).held := by
    cases o with
    | lock l step => exact absurd rfl (hlock l step)
    | _ => rfl
  have leftAfter : (acc t).leftAfter o = (acc t).left := by
    cases o with
    | lock l step => exact absurd rfl (hlock l step)
    | _ => rfl
  let j : Journal := ⟨a, (acc t).heldAfter o, (acc t).filesAfter o x.1, (acc t).leftAfter o⟩
  refine ⟨Function.update acc t j, h.update sighted tasks (world ▸ staked)
    (fun u _ => by rw [events])
    (fun _ => ⟨r, events ▸ hr, ?_, ?_⟩) (fun u b k m _ _ => by rw [events]) (fun b k m hm => ?_)
    fun b k => ?_⟩
  · exact heldAfter.trans (hheld.trans held.symm)
  · rw [rest]
    exact next x.1 j ⟨post, rfl, rfl, rfl⟩
  · rw [events]
    exact h.holder t b k m (held ▸ hm)
  · rw [events]
    have before := h.stands b k
    refine before.carry tasks (h.files_step hs) (fun heq => ?_) fun _ => ⟨busy, leftAfter⟩
    rw [heq] at before
    refine ⟨held ▸ before.1, fun p hp => ?_⟩
    rw [world]
    exact filesAfter_call h.staked (u := .inl t) rfl pre honest hx hp.not_inTmp (before.2 p hp)

theorem taskStep (h : s.Journaled env C Fine acc) (sighted : ∃ seen, s'.Sighted seen)
    {addr : Nat} {fault : Option (IoError × Nat)} (honest : Honest fault)
    (hs : s.taskStep env t addr fault = some s') : ∃ acc', s'.Journaled env C Fine acc' := by
  obtain ⟨_, now⟩ := h.sighted
  obtain ⟨busy, -, task, -, tasks, hstep⟩ := Pool.taskStep_cases hs
  obtain ⟨r, hr, hheld, kept⟩ := h.tasks t busy
  rcases hstep with ⟨resp, hrest, world, rfl, events⟩ | ⟨world, rest, held, busy', events⟩ |
    ⟨l, step, k', hrest, world, rest, held, busy', events⟩ |
    ⟨o, k', x, hlock, hrest, hx, world, rest, held, busy', events⟩
  · rw [hrest] at kept
    exact ⟨acc, h.finish sighted hr kept world tasks events⟩
  · have same : Function.update acc t (acc t) = acc := Function.update_eq_self t acc
    refine ⟨_, h.update (j := acc t) sighted tasks ?_ (fun u _ => by rw [events])
      (fun _ => ⟨r, events ▸ hr, hheld.trans held.symm, rest ▸ kept⟩)
      (fun u b k m _ _ => by rw [events])
      (fun b k m hm => ?_) fun b k => ?_⟩
    · rw [← stakesOf_update, same, world]
      exact h.staked
    · rw [events]
      exact h.holder t b k m (held ▸ hm)
    · rw [events]
      have before := h.stands b k
      refine before.carry tasks (fun _ p _ => by rw [world]) (fun heq => ?_) fun _ => ⟨busy', rfl⟩
      rw [heq] at before
      exact ⟨held ▸ before.1, world ▸ before.2⟩
  · rw [hrest] at kept
    exact h.lockStep sighted hr hheld kept world tasks busy' rest held events
  · rw [hrest] at kept
    exact h.call sighted honest hs (hlock (now.jobs t)) hr hheld kept hx world
      tasks busy' rest held events

theorem start (h : s.Journaled env C Fine acc) (sighted : ∃ seen, s'.Sighted seen) {r : Req}
    (kept : (journaling Fine).KeptBy Op.code (fun resp j => Concludes C r (some resp) j) (serve C r)
      Journal.fresh)
    (hs : s.start C t r = some s') : ∃ acc', s'.Journaled env C Fine acc' := by
  obtain ⟨world, -, -, tasks⟩ := Pool.start_cases hs
  have events := Pool.start_events hs
  have idle := Pool.start_idle hs
  have last : ∀ u, lastRequest u s'.events = if t = u then some r else lastRequest u s.events := by
    intro u
    rw [events]
    rfl
  have same : ∀ b k, standing b k s'.events = standing b k s.events := fun b k => by
    rw [events]
    rfl
  refine ⟨_, h.update (j := .fresh) sighted tasks ?_
    (fun u hu => (last u).trans (if_neg (Ne.symm hu)))
    (fun _ => ⟨r, (last t).trans (if_pos rfl), rfl, Protocol.KeptBy.map kept⟩)
    (fun u b k m _ _ => same b k)
    (fun b k m hm => by cases hm) fun b k => ?_⟩
  · rw [world]
    exact h.staked.update (Nat.le_refl _) (fun p hp => absurd rfl hp) (fun p bs d hp => by cases hp)
      fun p d hd => .inl hd
  · rw [same]
    have before := h.stands b k
    -- The task was idle, so no key can stand with it.
    refine before.carry tasks (fun _ p _ => by rw [world]) (fun heq => ?_) fun heq => ?_
    · rw [heq] at before
      rw [Stands, idle] at before
      cases before.1
    · rw [heq] at before
      exact absurd idle before.1

/-- **One step of the pool.** -/
theorem next {R : Req → Prop} (h : s.Journaled env C Fine acc)
    (guarded : ∀ r, guarding.KeptBy Op.code (fun _ _ => True) (serve C r) ([], none))
    (kept : ∀ r, R r → (journaling Fine).KeptBy Op.code (fun resp j => Concludes C r (some resp) j)
      (serve C r) Journal.fresh)
    {label : Label} (calm : label.Calm) (hr : ∀ t r, label = .start t r → R r)
    (hs : s.next env C label = some s') : ∃ acc', s'.Journaled env C Fine acc' := by
  obtain ⟨_, now⟩ := h.sighted
  have sighted : ∃ seen, s'.Sighted seen := now.next calm guarded hs
  cases label with
  | start t r => exact h.start sighted (kept r (hr t r rfl)) hs
  | step t addr fault => exact h.taskStep sighted calm hs
  | grant addr =>
      obtain ⟨_, -, rfl⟩ := Option.map_eq_some_iff.mp hs
      exact ⟨acc, sighted, h.staked, h.tasks, h.holder, h.stands⟩
  | drop t => exact calm.elim
  | orphan i fault =>
      change s.orphan env i fault = some s' at hs
      rw [Pool.orphan, now.orphans] at hs
      cases hs
  | clock now =>
      cases hs
      exact ⟨acc, sighted, ⟨h.staked.apart, h.staked.drawn, h.staked.bytes, h.staked.fine⟩, h.tasks,
        h.holder, h.stands⟩
  | kill =>
      cases hs
      refine ⟨acc, sighted, h.staked, fun _ hne => absurd rfl hne, fun _ _ _ _ hm => (by cases hm),
        fun b k => ?_⟩
      have before := h.stands b k
      change Stands C s.kill acc b k (standing b k s.events).killed
      cases hst : standing b k s.events with
      | confirmed r =>
          rw [hst] at before
          exact before
      | _ => trivial

end Pool.Journaled

/-- **In every state of a run in which no request is dropped, the files of every key are as the last
request that took its lock knows them.** -/
theorem Pool.journaled_run {R : Req → Prop}
    (guarded : ∀ r, guarding.KeptBy Op.code (fun _ _ => True) (serve C r) ([], none))
    (kept : ∀ r, R r → (journaling Fine).KeptBy Op.code (fun resp j => Concludes C r (some resp) j)
      (serve C r) Journal.fresh) :
    ∀ {ls : List Label} {s : Pool} {acc : TaskId → Journal}, (∀ l ∈ ls, l.Calm) →
      (∀ t r, .start t r ∈ ls → R r) → s.Journaled env C Fine acc → s.run env C ls = some s' →
        ∃ acc', s'.Journaled env C Fine acc'
  | [], _, acc, _, _, h, hs => by
      cases hs
      exact ⟨acc, h⟩
  | label :: ls, _, _, calm, hr, h, hs => by
      obtain ⟨s₁, hs₁, hs⟩ := Option.bind_eq_some_iff.mp hs
      obtain ⟨_, h₁⟩ := h.next guarded kept (calm label List.mem_cons_self)
        (fun t r heq => hr t r (heq ▸ List.mem_cons_self)) hs₁
      exact Pool.journaled_run guarded kept (fun l hl => calm l (List.mem_cons_of_mem _ hl))
        (fun t r hm => hr t r (List.mem_cons_of_mem _ hm)) h₁ hs

theorem Pool.journaled_init {w : World OsName}
    (fine : ∀ p d, w.tree.fileAt p = some d → InTmp p ∨ Fine p d) :
    (Pool.init w).Journaled env C Fine fun _ => .fresh := by
  refine ⟨⟨_, Pool.sighted_init w⟩, ⟨fun u _ _ hu => ?_, fun u _ hu => ?_,
    fun u _ _ _ hu => ?_, fine⟩,
    fun _ hne => absurd rfl hne, fun _ _ _ _ hm => (by cases hm), fun _ _ => trivial⟩
  · cases u <;> exact absurd rfl hu
  · cases u <;> exact absurd rfl hu
  · cases u <;> cases hu

end Pool

end Aks3.Engine
