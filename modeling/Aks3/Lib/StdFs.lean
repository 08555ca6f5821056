import Aks3.Lib.Sys

/-!
# The compound calls of `std::fs`

`create_dir_all` and `remove_dir_all` are loops of system calls, and another
program may run between any two of them. `create_dir_all` tries the directory
itself, works up until a `mkdir` succeeds or finds a directory, and works down
again; a directory that appears meanwhile is as good as one it made.
`remove_dir_all` empties a directory before it removes it, and an entry that
vanishes meanwhile is as good as one it removed.
-/

set_option autoImplicit false

namespace Aks3.Lib.StdFs

variable {N L : Type}

abbrev SysProg (N L : Type) (α : Type) := Prog (sysSig N L) α

/-! ## Single calls -/

/-- Ask for one system call. -/
def sys (o : Sys N L) : SysProg N L o.Res := Prog.call (S := sysSig N L) o

def mkdir (p : Path N) : SysProg N L (Except IoError Unit) := sys (.mkdir p)
def rmdir (p : Path N) : SysProg N L (Except IoError Unit) := sys (.rmdir p)
def unlink (p : Path N) : SysProg N L (Except IoError Unit) := sys (.unlink p)
def rename (p q : Path N) : SysProg N L (Except IoError Unit) := sys (.rename p q)
def stat (p : Path N) : SysProg N L (Except IoError Stat) := sys (.stat p)
def createNew (p : Path N) : SysProg N L (Except IoError Unit) := sys (.createNew p)
def append (p : Path N) (bs : Bytes) : SysProg N L (Except IoError Unit) := sys (.append p bs)
def syncFile (p : Path N) : SysProg N L (Except IoError Unit) := sys (.syncFile p)
def openDir (p : Path N) : SysProg N L (Except IoError Nat) := sys (.openDir p)
def syncDir (ino : Nat) : SysProg N L (Except IoError Unit) := sys (.syncDir ino)
def readFile (p : Path N) : SysProg N L (Except IoError Bytes) := sys (.readFile p)
def seek (size offset : Nat) : SysProg N L (Except IoError Unit) := sys (.seek size offset)
def readDir (p : Path N) : SysProg N L (Except IoError (List (N × Kind))) := sys (.readDir p)
def budget : SysProg N L Nat := sys .budget

/-! ## Compound calls -/

/-- `Path::is_dir`. -/
def isDir (p : Path N) : SysProg N L Bool := do
  match ← stat p with
  | .ok s => pure (s.kind = .dir)
  | .error _ => pure false

/-- A failed `mkdir` that found the directory in place is no failure. -/
def orPresent (p : Path N) (e : IoError) : SysProg N L (Except IoError Unit) := do
  if e.kind = .alreadyExists then
    if ← isDir p then pure (.ok ()) else pure (.error e)
  else pure (.error e)

/-- `std::fs::create_dir_all`. -/
def createDirAll : Path N → SysProg N L (Except IoError Unit)
  | [] => pure (.ok ())
  | n :: p => do
    match ← mkdir (n :: p) with
    | .ok () => pure (.ok ())
    | .error e =>
      if e.kind = .notFound then
        match ← createDirAll p with
        | .error e => pure (.error e)
        | .ok () =>
          match ← mkdir (n :: p) with
          | .ok () => pure (.ok ())
          | .error e => orPresent (n :: p) e
      else orPresent (n :: p) e

/-- Run over the entries of a directory, stopping at a failure other than an
entry that is gone. -/
def forEntries (f : N × Kind → SysProg N L (Except IoError Unit)) :
    List (N × Kind) → SysProg N L (Except IoError Unit)
  | [] => pure (.ok ())
  | c :: cs => do
    match ← f c with
    | .ok () => forEntries f cs
    | .error e => if e.kind = .notFound then forEntries f cs else pure (.error e)

/-- Remove one entry of a directory. -/
def removeEntry (removeDir : Path N → SysProg N L (Except IoError Unit)) (p : Path N)
    (c : N × Kind) : SysProg N L (Except IoError Unit) :=
  match c.2 with
  | .dir => removeDir (c.1 :: p)
  | .file => unlink (c.1 :: p)

/-- Empty a directory and remove it, descending at most `fuel` levels. -/
def removeTree : Nat → Path N → SysProg N L (Except IoError Unit)
  | 0, _ => pure (.error ErrorKind.other.os)
  | fuel + 1, p => do
    match ← readDir p with
    | .error e => pure (.error e)
    | .ok entries =>
      match ← forEntries (removeEntry (removeTree fuel) p) entries with
      | .error e => pure (.error e)
      | .ok () =>
        match ← rmdir p with
        | .ok () => pure (.ok ())
        | .error e => if e.kind = .notFound then pure (.ok ()) else pure (.error e)

/-- `std::fs::remove_dir_all`. -/
def removeDirAll (p : Path N) : SysProg N L (Except IoError Unit) := do
  let fuel ← budget
  removeTree fuel p

/-! ## What the compound calls can ask for -/

section All

variable {P : Sys N L → Prop}

theorem all_orPresent (hs : ∀ p, P (.stat p)) (p : Path N) (e : IoError) :
    (orPresent p e : SysProg N L _).All P := by
  unfold orPresent
  split
  · refine .bind (.bind (Prog.all_call (hs p)) fun r => by cases r <;> exact Prog.all_pure _)
      fun b => ?_
    split <;> exact Prog.all_pure _
  · exact Prog.all_pure _

theorem all_createDirAll (hs : ∀ p, P (.stat p)) : ∀ {p : Path N},
    (∀ n q, n :: q <:+ p → P (.mkdir (n :: q))) → (createDirAll p : SysProg N L _).All P
  | [], _ => Prog.all_pure _
  | n :: p, hm => by
      have here : (mkdir (n :: p) : SysProg N L _).All P := Prog.all_call (hm n p List.suffix_rfl)
      rw [createDirAll]
      refine here.bind fun r => ?_
      cases r with
      | ok u => exact Prog.all_pure _
      | error e =>
          dsimp only
          split
          · refine (all_createDirAll hs fun m q hq => hm m q (hq.trans (List.suffix_cons n p))).bind
              fun r => ?_
            cases r with
            | error e => exact Prog.all_pure _
            | ok u =>
                refine here.bind fun r => ?_
                cases r with
                | ok u => exact Prog.all_pure _
                | error e => exact all_orPresent hs _ e
          · exact all_orPresent hs _ e

end All

end Aks3.Lib.StdFs
