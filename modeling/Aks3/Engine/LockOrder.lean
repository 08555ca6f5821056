import Aks3.Engine.Effects
import Aks3.Engine.Pool

/-!
# The order in which locks are taken

A method takes no lock but through `withLock`: the lock of a bucket while it holds
none, and the lock of a key while it holds the lock of the key's bucket shared. Whatever
the calls in between return, it gives back what it took, in the reverse order
(`orderly_serve`), and so do the destructors of a task that is dropped
(`orderly_cleanup`).
-/

set_option autoImplicit false

namespace Aks3.Engine

open Lib

/-! ## Programs without lock steps -/

/-- An operation that is not a step on the lock tables. -/
def NoLock : Op → Prop
  | .prim (.lock _ _) => False
  | _ => True

/-- A program that takes and gives back no lock. -/
abbrev LockFree {α : Type} (p : EngineProg α) : Prop := Prog.All (S := engineSig) NoLock p

theorem noLock_of_reads (o : Op) (h : Reads o) : NoLock o := by
  cases o with
  | call c => trivial
  | prim s =>
      cases s with
      | lock l step => exact h.elim
      | _ => trivial

theorem ReadOnly.lockFree {α : Type} {p : EngineProg α} (h : ReadOnly p) : LockFree p :=
  h.mono noLock_of_reads

/-- Nothing about a staged file is a step on the lock tables. -/
theorem noLock_stages (p : Path OsName) : Stages NoLock p :=
  ⟨trivial, fun _ => trivial, trivial, trivial⟩

theorem noLock_commits (src dst : Path OsName) : Commits NoLock src dst :=
  ⟨noLock_stages src, trivial, trivial⟩

/-! ## Programs that take locks in order -/

/-- What a task has to do with the lock tables at a point of its program. -/
structure LockCtx where
  /-- The locks it holds, the last one first. -/
  held : List (LockName × Mode)
  /-- The lock it refers to and does not hold. -/
  refd : Option LockName
  /-- The lock whose entry it has yet to look at. -/
  prune : Option LockName
  deriving DecidableEq, Repr

/-- Holding locks, and nothing else. -/
def LockCtx.holding (held : List (LockName × Mode)) : LockCtx := ⟨held, none, none⟩

/-- Which lock may be asked for by whom: a bucket's by a task without locks, a key's by
one that holds the lock of its bucket shared, and no other. -/
def MayTake (held : List (LockName × Mode)) : LockName → Prop
  | .bucket _ => held = []
  | .key b _ => held = [(.bucket b, .shared)]

/-- A key is locked exclusively. -/
def MayMode (m : Mode) : LockName → Prop
  | .bucket _ => True
  | .key _ _ => m = .exclusive

/-- From `c` to `c'`, a program takes locks in order and gives back what it takes. -/
def Orderly {α : Type} (c' : LockCtx) : LockCtx → EngineProg α → Prop
  | c, .pure _ => c = c'
  | c, .op (.prim (.lock l .refer)) k =>
    c.refd = none ∧ c.prune = none ∧ MayTake c.held l ∧
      Orderly c' ⟨c.held, some l, none⟩ (k ())
  | c, .op (.prim (.lock l (.take m))) k =>
    c.refd = some l ∧ c.prune = none ∧ MayTake c.held l ∧ MayMode m l ∧
      Orderly c' (.holding ((l, m) :: c.held)) (k ())
  | c, .op (.prim (.lock l (.drop m))) k =>
    c.refd = none ∧ c.prune = none ∧
      ∃ held, c.held = (l, m) :: held ∧ Orderly c' ⟨held, none, some l⟩ (k ())
  | c, .op (.prim (.lock l .unref)) k =>
    c.refd = some l ∧ c.prune = none ∧ Orderly c' (.holding c.held) (k ())
  | c, .op (.prim (.lock l .prune)) k =>
    c.refd = none ∧ c.prune = some l ∧ Orderly c' (.holding c.held) (k ())
  | c, .op _ k => c.refd = none ∧ c.prune = none ∧ ∀ r, Orderly c' c (k r)

section Orderly

variable {α β ε : Type} {c c₁ c₂ : LockCtx} {held : List (LockName × Mode)}

theorem Orderly.bind {p : EngineProg α} {f : α → EngineProg β} (hp : Orderly c₁ c p)
    (hf : ∀ a, Orderly c₂ c₁ (f a)) : Orderly c₂ c (p >>= f) := by
  induction p generalizing c with
  | pure a =>
      obtain rfl : c = c₁ := hp
      exact hf a
  | op o k ih =>
      -- One case for each clause of the definition; all but the lock steps are the last.
      cases o with
      | call _ => exact ⟨hp.1, hp.2.1, fun r => ih r (hp.2.2 r)⟩
      | prim s =>
          cases s with
          | lock l step =>
              cases step with
              | refer => exact ⟨hp.1, hp.2.1, hp.2.2.1, ih () hp.2.2.2⟩
              | take m => exact ⟨hp.1, hp.2.1, hp.2.2.1, hp.2.2.2.1, ih () hp.2.2.2.2⟩
              | drop m =>
                  obtain ⟨hr, hp, held, hh, hk⟩ := hp
                  exact ⟨hr, hp, held, hh, ih () hk⟩
              | unref => exact ⟨hp.1, hp.2.1, ih () hp.2.2⟩
              | prune => exact ⟨hp.1, hp.2.1, ih () hp.2.2⟩
          | _ => exact ⟨hp.1, hp.2.1, fun r => ih r (hp.2.2 r)⟩

theorem LockFree.orderly {p : EngineProg α} (hp : LockFree p) :
    Orderly (.holding held) (.holding held) p := by
  induction p with
  | pure a => rfl
  | op o k ih =>
      cases o with
      | call _ => exact ⟨rfl, rfl, fun r => ih r (hp.2 r)⟩
      | prim s =>
          cases s with
          | lock l step => exact hp.1.elim
          | _ => exact ⟨rfl, rfl, fun r => ih r (hp.2 r)⟩

theorem Orderly.map {p : EngineProg α} {f : α → β} (hp : Orderly c₁ c p) :
    Orderly c₁ c (f <$> p) := by
  rw [← bind_pure_comp]
  exact hp.bind fun _ => rfl

theorem Orderly.bindE {x : ExceptT ε EngineProg α} {f : α → ExceptT ε EngineProg β}
    (hx : Orderly c₁ c x.run) (hf : ∀ a, Orderly c₁ c₁ (f a).run) : Orderly c₁ c (x >>= f).run := by
  rw [ExceptT.run_bind]
  refine hx.bind fun a => ?_
  cases a with
  | ok a => exact hf a
  | error e => rfl

theorem orderly_withLock {l : LockName} {m : Mode} {body : EngineProg α}
    (ht : MayTake held l) (hm : MayMode m l)
    (hb : Orderly (.holding ((l, m) :: held)) (.holding ((l, m) :: held)) body) :
    Orderly (.holding held) (.holding held) (withLock l m body) :=
  ⟨rfl, rfl, ht, rfl, rfl, ht, hm, hb.bind fun _ => ⟨rfl, rfl, held, rfl, rfl, rfl, rfl⟩⟩

/-- A method that holds both locks of a key. -/
theorem orderly_withLocks {b k : String} {body : EngineProg α} (hb : LockFree body) :
    Orderly (.holding []) (.holding [])
      (withLock (.bucket b) .shared (withLock (.key b k) .exclusive body)) :=
  orderly_withLock rfl trivial (orderly_withLock rfl rfl hb.orderly)

theorem orderly_putObject (C : Crates) (b k : String) (body : ByteStream) (opts : PutOpts) :
    Orderly (.holding []) (.holding []) (putObject C b k body opts).run := by
  refine .bindE (readOnly_existingBucketDir b).lockFree.orderly fun dir =>
    .bindE (LockFree.orderly (.adapt (all_create trivial fun _ => (noLock_stages _).openNew)))
      fun f => .bindE
        (LockFree.orderly (.lift (all_stageBody noLock_of_reads (noLock_stages _) body _)))
        fun r => ?_
  have hdrop : LockFree f.drop := all_drop (noLock_stages _)
  cases r with
  | error e => exact .bindE (LockFree.orderly (.lift hdrop)) fun _ => rfl
  | ok d =>
      refine .bindE (LockFree.orderly (.lift (Prog.all_call trivial)))
        fun now => .bindE ?_ fun r => ?_
      · rw [ExceptT.run_lift]
        exact (orderly_withLocks (all_putLocked noLock_of_reads C b trivial (noLock_commits _ _)
          (fun _ => noLock_commits _ _) _)).map
      · cases r with
        | inl e => exact .bindE (LockFree.orderly (.lift hdrop)) fun _ => rfl
        | inr r => cases r <;> rfl

/-- **Every method takes its locks in order.** -/
theorem orderly_serve (C : Crates) (r : Req) :
    Orderly (.holding []) (.holding []) (serve C r) := by
  cases r with
  | openEngine =>
      exact .bindE (LockFree.orderly (all_openEngine noLock_of_reads C trivial trivial trivial
        (fun _ => trivial) (fun _ => trivial) fun _ => noLock_commits _ _)) fun _ => rfl
  | createBucket b =>
      exact .bindE (.bindE (readOnly_checkedBucketDir b).lockFree.orderly fun dir =>
        orderly_withLock rfl trivial (LockFree.orderly (all_createBucketLocked noLock_of_reads C
          trivial trivial trivial fun _ => noLock_commits _ _))) fun _ => rfl
  | deleteBucket b =>
      exact .bindE (.bindE (readOnly_checkedBucketDir b).lockFree.orderly fun dir =>
        orderly_withLock rfl trivial
          (LockFree.orderly (all_deleteBucketLocked noLock_of_reads trivial))) fun _ => rfl
  | bucketExists b => exact .bindE (readOnly_bucketExists b).lockFree.orderly fun _ => rfl
  | listBuckets => exact .bindE (readOnly_listBuckets C).lockFree.orderly fun _ => rfl
  | putObject b k body opts => exact .bindE (orderly_putObject C b k body opts) fun _ => rfl
  | getObject b k range =>
      exact .bindE (readOnly_getObject C b k range).lockFree.orderly fun _ => rfl
  | headObject b k => exact .bindE (readOnly_headObject C b k).lockFree.orderly fun _ => rfl
  | deleteObject b k =>
      exact .bindE (.bindE (readOnly_existingBucketDir b).lockFree.orderly fun dir =>
        orderly_withLocks (all_deleteLocked noLock_of_reads trivial trivial
          fun _ _ _ _ => trivial)) fun _ => rfl
  | listObjectsV2 b p =>
      exact .bindE (.bindE (readOnly_checkedBucketDir b).lockFree.orderly fun _ =>
        orderly_withLock rfl trivial (readOnly_listLocked C b p).lockFree.orderly) fun _ => rfl

end Orderly

/-! ## Tasks that are dropped -/

/-- The locks among a task's locals. -/
def locksOf (owned : List Owned) : List (LockName × Mode) :=
  owned.filterMap fun
    | .lock l m => some (l, m)
    | .file _ => none

theorem orderly_destructors (owned : List Owned) :
    Orderly (.holding []) (.holding (locksOf owned)) (destructors owned) := by
  induction owned with
  | nil => rfl
  | cons o owned ih =>
      cases o with
      | lock l m => exact ⟨rfl, rfl, locksOf owned, rfl, rfl, rfl, ih⟩
      | file p => exact ⟨rfl, rfl, fun _ => ih⟩

/-- **The destructors of a task give back what it has.** -/
theorem orderly_cleanup (loc : Locals) :
    Orderly (.holding []) ⟨locksOf loc.owned, loc.refd, none⟩ loc.cleanup := by
  obtain ⟨refd, owned⟩ := loc
  cases refd with
  | none => exact orderly_destructors owned
  | some l => exact ⟨rfl, rfl, orderly_destructors owned⟩

end Aks3.Engine
