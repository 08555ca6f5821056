import Aks3.Engine.Paths
import Aks3.Lib.StdFs

/-!
# Walking a bucket's object tree back into keys

The tree under `objects/` is the keyspace, encoded: a directory that holds a
manifest is an object, and may also be a step towards deeper ones. The walk
reads one directory at a time with an explicit stack, follows only names the
codec could have written, and sorts what it found as whole keys. A directory
that vanishes meanwhile contributes nothing.
-/

set_option autoImplicit false

namespace Aks3.Engine

open Lib

/-- The locks of the engine's two tables. -/
inductive LockName where
  | bucket (bucket : String)
  | key (bucket key : String)
  deriving DecidableEq, Repr

/-- A blocking job: a run of system calls. -/
abbrev WalkProg (α : Type) := StdFs.SysProg OsName LockName α

/-- What one directory contributes to the walk. -/
structure DirEntries where
  hasManifest : Bool
  /-- Encoded names of the subdirectories, ordered by their decoded form. -/
  children : List OsName
  deriving DecidableEq, Repr

/-- A subdirectory to descend into, with its decoded name. -/
def childOf (entry : OsName × Kind) : Option (String × OsName) :=
  match fromUtf8 entry.1 with
  | none => none
  | some name =>
    if name = META_FILE then none
    -- Data files, and whatever else is kept beside them.
    else if Reserved name then none
    else
      match decodeComponent name with
      | .error _ => none
      | .ok decoded => if entry.2 = .dir then some (decoded, entry.1) else none

/-- Whether an entry is a manifest. -/
def isManifest (entry : OsName × Kind) : Bool := fromUtf8 entry.1 = some META_FILE

def dirEntries (entries : List (OsName × Kind)) : DirEntries where
  hasManifest := entries.any isManifest
  children :=
    ((entries.filterMap childOf).insertionSort fun a b => strLe a.1 b.1).map Prod.snd

/-- Read one directory of the object tree. -/
def readObjectDir (dir : Path OsName) : WalkProg (Except IoError DirEntries) := do
  match ← StdFs.readDir dir with
  | .error e => if e.kind = .notFound then pure (.ok ⟨false, []⟩) else pure (.error e)
  | .ok entries => pure (.ok (dirEntries entries))

/-- The key a directory of the tree stands for, if it is an object. The root is
the bucket's tree and not an object in it. -/
def foundKey (entries : DirEntries) (rel : Path OsName) : List String :=
  if entries.hasManifest && !rel.isEmpty then
    match relPathToKey rel with
    | .ok key => [key]
    | .error _ => []
  else []

/-- The loop of the walk: the stack of directories to read, the keys found. -/
def walkLoop : Nat → List (Path OsName × Path OsName) → List String →
    WalkProg (Except IoError (List String))
  | _, [], keys => pure (.ok keys)
  | 0, _ :: _, _ => pure (.error ErrorKind.other.os)
  | fuel + 1, (dir, rel) :: stack, keys => do
    match ← readObjectDir dir with
    | .error e => pure (.error e)
    | .ok entries =>
      walkLoop fuel (entries.children.map (fun name => (name :: dir, name :: rel)) ++ stack)
        (keys ++ foundKey entries rel)

/-- Every key under `objectsRoot`, in ascending order. -/
def sortedKeys (objectsRoot : Path OsName) : WalkProg (Except IoError (List String)) := do
  let fuel ← StdFs.budget
  match ← walkLoop fuel [(objectsRoot, [])] [] with
  | .error e => pure (.error e)
  | .ok keys => pure (.ok (keys.insertionSort strLe))

/-! ## What the walk can ask for -/

section All

variable {P : Sys OsName LockName → Prop}

theorem all_walkLoop (hr : ∀ p, P (.readDir p)) :
    ∀ (fuel : Nat) (stack : List (Path OsName × Path OsName)) (keys : List String),
      (walkLoop fuel stack keys).All P
  | 0, [], _ => Prog.all_pure _
  | _ + 1, [], _ => Prog.all_pure _
  | 0, _ :: _, _ => Prog.all_pure _
  | fuel + 1, (dir, rel) :: stack, keys => by
      rw [walkLoop]
      refine .bind (.bind (Prog.all_call (hr dir)) fun r => ?_) fun r => ?_
      · cases r with
        | error e =>
            dsimp only
            split <;> exact Prog.all_pure _
        | ok entries => exact Prog.all_pure _
      · cases r with
        | error e => exact Prog.all_pure _
        | ok entries => exact all_walkLoop hr fuel _ _

theorem all_sortedKeys (hb : P .budget) (hr : ∀ p, P (.readDir p)) (p : Path OsName) :
    (sortedKeys p).All P :=
  .bind (Prog.all_call hb) fun fuel => (all_walkLoop hr fuel _ _).bind fun r => by
    cases r <;> exact Prog.all_pure _

end All

end Aks3.Engine
