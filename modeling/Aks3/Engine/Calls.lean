import Aks3.Engine.Meta
import Aks3.Engine.Walk

/-!
# What the engine awaits

The engine's methods are asynchronous. Almost everything they await is a job on
the blocking pool: one call of `tokio::fs`, or the walk of an object tree. A job
runs to its end whether or not anybody still waits for it, so the method and its
jobs are kept apart: `Call` names the jobs, `code` says which system calls each
of them makes, and a method is a program over jobs and over the few steps it
takes itself (`prim`): the lock tables, the clock, a random name, the wait for
the next chunk of a body, and the file a destructor removes.
-/

set_option autoImplicit false

namespace Aks3.Engine

open Lib

/-- A job on the blocking pool. -/
inductive Call where
  | metadata (p : Path OsName)
  | tryExists (p : Path OsName)
  | createDir (p : Path OsName)
  | createDirAll (p : Path OsName)
  | removeDir (p : Path OsName)
  | removeFile (p : Path OsName)
  | removeDirAll (p : Path OsName)
  | rename (src dst : Path OsName)
  | openNew (p : Path OsName)
  | writeAll (p : Path OsName) (buf : Bytes)
  | syncAll (p : Path OsName)
  | openDir (p : Path OsName)
  | syncDir (ino : Nat)
  | read (p : Path OsName)
  | seek (size offset : Nat)
  | readDir (p : Path OsName)
  | sortedKeys (p : Path OsName)
  deriving DecidableEq, Repr

namespace Call

def Res : Call → Type
  | .createDir _ | .createDirAll _ | .removeDir _ | .removeFile _ | .removeDirAll _ | .rename _ _
  | .openNew _ | .writeAll _ _ | .syncAll _ | .syncDir _ | .seek _ _ => Except IoError Unit
  | .metadata _ => Except IoError Stat
  | .tryExists _ => Except IoError Bool
  | .openDir _ => Except IoError Nat
  | .read _ => Except IoError Bytes
  | .readDir _ => Except IoError (List (OsName × Kind))
  | .sortedKeys _ => Except IoError (List String)

/-- `std::fs::exists`: only a missing entry reads as absence. -/
def tryExistsCode (p : Path OsName) : WalkProg (Except IoError Bool) := do
  match ← StdFs.stat p with
  | .ok _ => pure (.ok true)
  | .error e => if e.kind = .notFound then pure (.ok false) else pure (.error e)

/-- The system calls of a job. -/
def code : (c : Call) → WalkProg c.Res
  | .metadata p => StdFs.stat p
  | .tryExists p => tryExistsCode p
  | .createDir p => StdFs.mkdir p
  | .createDirAll p => StdFs.createDirAll p
  | .removeDir p => StdFs.rmdir p
  | .removeFile p => StdFs.unlink p
  | .removeDirAll p => StdFs.removeDirAll p
  | .rename src dst => StdFs.rename src dst
  | .openNew p => StdFs.createNew p
  | .writeAll p buf => StdFs.append p buf
  | .syncAll p => StdFs.syncFile p
  | .openDir p => StdFs.openDir p
  | .syncDir ino => StdFs.syncDir ino
  | .read p => StdFs.readFile p
  | .seek size offset => StdFs.seek size offset
  | .readDir p => StdFs.readDir p
  | .sortedKeys p => Engine.sortedKeys p

end Call

/-- A job, or a step of the method itself. -/
inductive Op where
  | call (c : Call)
  | prim (s : Sys OsName LockName)
  deriving DecidableEq, Repr

namespace Op

def Res : Op → Type
  | .call c => c.Res
  | .prim s => s.Res

def code : (o : Op) → WalkProg o.Res
  | .call c => c.code
  | .prim s => StdFs.sys s

end Op

abbrev engineSig : Sig := ⟨Op, Op.Res⟩

/-- A method of the engine. -/
abbrev EngineProg (α : Type) := Prog engineSig α

/-- A method that can fail with a filesystem error. -/
abbrev IoM := ExceptT IoError EngineProg

/-- A method that can fail with an error of the storage contract. -/
abbrev EngineM := ExceptT EngineError EngineProg

/-- Wait for a job. -/
def await (c : Call) : EngineProg c.Res := Prog.call (S := engineSig) (.call c)

/-- Take a step that is not a job. -/
def prim (s : Sys OsName LockName) : EngineProg s.Res := Prog.call (S := engineSig) (.prim s)

/-- The `?` operator on a filesystem error. -/
def liftIo {α : Type} (x : IoM α) : EngineM α := ExceptT.adapt EngineError.ofIo x

namespace TokioFs

def metadata (p : Path OsName) : IoM Stat := ExceptT.mk (await (.metadata p))
def tryExists (p : Path OsName) : IoM Bool := ExceptT.mk (await (.tryExists p))
def createDir (p : Path OsName) : IoM Unit := ExceptT.mk (await (.createDir p))
def createDirAll (p : Path OsName) : IoM Unit := ExceptT.mk (await (.createDirAll p))
def removeDir (p : Path OsName) : IoM Unit := ExceptT.mk (await (.removeDir p))
def removeFile (p : Path OsName) : IoM Unit := ExceptT.mk (await (.removeFile p))
def removeDirAll (p : Path OsName) : IoM Unit := ExceptT.mk (await (.removeDirAll p))
def rename (src dst : Path OsName) : IoM Unit := ExceptT.mk (await (.rename src dst))
def openNew (p : Path OsName) : IoM Unit := ExceptT.mk (await (.openNew p))
def writeAll (p : Path OsName) (buf : Bytes) : IoM Unit := ExceptT.mk (await (.writeAll p buf))
def syncAll (p : Path OsName) : IoM Unit := ExceptT.mk (await (.syncAll p))
def openDir (p : Path OsName) : IoM Nat := ExceptT.mk (await (.openDir p))
def syncDir (ino : Nat) : IoM Unit := ExceptT.mk (await (.syncDir ino))
def read (p : Path OsName) : IoM Bytes := ExceptT.mk (await (.read p))
def seek (size offset : Nat) : IoM Unit := ExceptT.mk (await (.seek size offset))
def readDir (p : Path OsName) : IoM (List (OsName × Kind)) := ExceptT.mk (await (.readDir p))

end TokioFs

/-- Hold a lock of the engine's tables while `body` runs. Taking it looks the
lock up and then waits for it; giving it back removes the entry when nothing
refers to it any more. -/
def withLock {α : Type} (l : LockName) (m : Mode) (body : EngineProg α) : EngineProg α := do
  prim (.lock l .refer)
  prim (.lock l (.take m))
  let r ← body
  prim (.lock l (.drop m))
  prim (.lock l .prune)
  pure r

end Aks3.Engine
