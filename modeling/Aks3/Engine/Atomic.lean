import Aks3.Engine.Calls

/-!
# Staged writes

Nothing writes to a final path directly. A writer stages its bytes in a file of
the temporary directory and publishes them with one rename, after an `fsync` of
the file and before one of every directory whose entries the publication
changed. A staged file that is given up before its rename removes itself.
-/

set_option autoImplicit false

namespace Aks3.Engine

open Lib

/-- A file being written to the temporary directory. -/
structure StagedFile where
  path : Path OsName
  deriving DecidableEq, Repr

/-- The name of a staged file. -/
def tmpName (uuid : String) : OsName := utf8 (uuid ++ ".tmp")

/-- Directory that will hold `dest`. -/
def parentDir (dest : Path OsName) : Path OsName := dest.tail

/-- `try_exists(..).unwrap_or(false)`. -/
def existsOr (p : Path OsName) : EngineProg Bool := do
  match ← await (.tryExists p) with
  | .ok b => pure b
  | .error _ => pure false

/-- The directories a commit must sync, deepest first: `dir`, every ancestor that
is missing, and the deepest one that is there. -/
def dirsToSync : Path OsName → EngineProg (List (Path OsName))
  | [] => do
    let _ ← existsOr []
    pure [[]]
  | n :: p => do
    if ← existsOr (n :: p) then pure [n :: p]
    else do
      let chain ← dirsToSync p
      pure ((n :: p) :: chain)

/-- Make a directory's entries durable. -/
def fsyncDir (dir : Path OsName) : IoM Unit := do
  let ino ← TokioFs.openDir dir
  TokioFs.syncDir ino

def syncDirs : List (Path OsName) → IoM Unit
  | [] => pure ()
  | dir :: dirs => do
    fsyncDir dir
    syncDirs dirs

namespace StagedFile

/-- Create a uniquely named file inside `tmpDir`. -/
def create (tmpDir : Path OsName) : IoM StagedFile := do
  let uuid ← ExceptT.lift (prim .uuid)
  let path := tmpName uuid :: tmpDir
  TokioFs.openNew path
  pure ⟨path⟩

/-- The destructor of a file that was not committed. -/
def drop (staged : StagedFile) : EngineProg Unit := do
  let _ ← prim (.unlink staged.path)
  pure ()

/-- `commit` up to the rename, returning the directories left to sync. -/
def publish (staged : StagedFile) (dest : Path OsName) : IoM (List (Path OsName)) := do
  TokioFs.syncAll staged.path
  let parent := parentDir dest
  -- Before anything is created: afterwards there is no telling what is new.
  let toSync ← ExceptT.lift (dirsToSync parent)
  TokioFs.createDirAll parent
  TokioFs.rename staged.path dest
  pure toSync

/-- Publish the staged bytes at `dest`, replacing anything already there. -/
def commit (staged : StagedFile) (dest : Path OsName) : IoM Unit := ExceptT.mk do
  match ← (staged.publish dest).run with
  | .error e =>
    staged.drop
    pure (.error e)
  | .ok toSync => (syncDirs toSync).run

end StagedFile

/-- Write `bytes` atomically to `dest`, staging through `tmpDir`. -/
def writeJsonAtomic (tmpDir dest : Path OsName) (bytes : Bytes) : IoM Unit := do
  let staged ← StagedFile.create tmpDir
  match ← ExceptT.lift (TokioFs.writeAll staged.path bytes).run with
  | .error e =>
    ExceptT.lift staged.drop
    throw e
  | .ok () => staged.commit dest

end Aks3.Engine
