import Aks3.Engine.Reads

/-!
# Paths as they are written

The rest of the model names a file by its components below one root. `StagedFile::commit`
takes any path: absolute, relative to the current directory, a bare file name, with `..` in
it. Here is its code once more on such paths, with `Path::parent` and `Path::ancestors` as
`std` computes them and each system call looking its path up in the tree it meets. On
absolute paths without `..` it is the `commit` the engine uses (`commit_ofPath`).
-/

set_option autoImplicit false

namespace Aks3.Engine

open Lib

/-- A component after the start of a path. -/
inductive Component where
  | normal (name : OsName)
  /-- The component `..`. -/
  | parentDir
  deriving DecidableEq, Repr

/-- A path by its components, as `std::path::Path` reads it. -/
inductive PathText where
  /-- The path of no characters. -/
  | empty
  /-- The path `.`, or the start of one that begins with it. -/
  | curDir
  | rootDir
  | join (p : PathText) (c : Component)
  deriving DecidableEq, Repr

namespace PathText

/-- `Path::parent`. -/
def parent : PathText → Option PathText
  | .empty | .rootDir => none
  | .curDir => some .empty
  | .join p _ => some p

/-- `Path::ancestors`. -/
def ancestors : PathText → List PathText
  | .empty => [.empty]
  | .rootDir => [.rootDir]
  | .curDir => [.curDir, .empty]
  | .join p c => .join p c :: p.ancestors

/-- The empty path names no directory; the one it means is the current one. -/
def orCurDir : PathText → PathText
  | .empty => .curDir
  | p => p

/-- Directory that will hold `dest`. -/
def parentDir (dest : PathText) : PathText :=
  match dest.parent with
  | some p => p.orCurDir
  | none => .curDir

section Walk

variable (fits : OsName → Bool) (t : FileTree OsName) (cwd : Path OsName)

/-- Where a path leads, the start being `cwd` or the root. -/
def walk : PathText → Except ErrorKind (Path OsName)
  | .empty | .curDir => .ok cwd
  | .rootDir => .ok []
  | .join p (.normal n) =>
    match p.walk with
    | .error e => .error e
    | .ok q => .ok (n :: q)
  | .join p .parentDir =>
    match p.walk with
    | .error e => .error e
    | .ok q =>
      match t.resolve fits q with
      | .error e => .error e
      | .ok (.file _ _) => .error .notADirectory
      | .ok (.dir _) => .ok q.tail

/-- What a system call makes of a path. -/
def lookup : PathText → Except ErrorKind (Path OsName)
  | .empty => .error .notFound
  | p => p.walk fits t cwd

end Walk

/-- The absolute path with the given components. -/
def ofPath : Path OsName → PathText
  | [] => .rootDir
  | n :: p => .join (ofPath p) (.normal n)

end PathText

/-! ## The system calls on them -/

/-- The system calls of a commit. -/
inductive PathCall where
  | mkdir (p : PathText)
  | stat (p : PathText)
  | rename (src dst : PathText)
  | unlink (p : PathText)
  | syncFile (p : PathText)
  | openDir (p : PathText)
  | syncDir (ino : Nat)
  deriving DecidableEq, Repr

namespace PathCall

def Res : PathCall → Type
  | .mkdir _ | .rename _ _ | .unlink _ | .syncFile _ | .syncDir _ => Except IoError Unit
  | .stat _ => Except IoError Stat
  | .openDir _ => Except IoError Nat

/-- A call at the place a path leads to. -/
def atPlace {α : Type} (fits : OsName → Bool) (cwd : Path OsName) (w : World OsName) (p : PathText)
    (call : Path OsName → Except IoError α × World OsName) : Except IoError α × World OsName :=
  match p.lookup fits w.tree cwd with
  | .error e => (.error e.os, w)
  | .ok q => call q

/-- One call, made from the directory `cwd`. -/
def exec (env : Env OsName) (cwd : Path OsName) : (o : PathCall) → World OsName →
    o.Res × World OsName
  | .mkdir p, w => atPlace env.fits cwd w p fun q => World.exec (L := LockName) env (.mkdir q) w
  | .stat p, w => atPlace env.fits cwd w p fun q => World.exec (L := LockName) env (.stat q) w
  | .rename src dst, w => atPlace env.fits cwd w src fun q => atPlace env.fits cwd w dst fun r =>
      World.exec (L := LockName) env (.rename q r) w
  | .unlink p, w => atPlace env.fits cwd w p fun q => World.exec (L := LockName) env (.unlink q) w
  | .syncFile p, w => atPlace env.fits cwd w p fun q => World.exec
      (L := LockName) env (.syncFile q) w
  | .openDir p, w => atPlace env.fits cwd w p fun q => World.exec (L := LockName) env (.openDir q) w
  | .syncDir i, w => World.exec (L := LockName) env (.syncDir i) w

end PathCall

abbrev pathSig : Sig := ⟨PathCall, PathCall.Res⟩

/-- A program that names files by written paths. -/
abbrev PathProg (α : Type) := Prog pathSig α

namespace PathProg

/-- Ask for one call. -/
def ask (o : PathCall) : PathProg o.Res := Prog.call (S := pathSig) o

/-- `try_exists(..).unwrap_or(false)`. -/
def existsOr (p : PathText) : PathProg Bool := do
  match ← ask (.stat p) with
  | .ok _ => pure true
  | .error _ => pure false

/-- The loop of `dirs_to_sync` over the ancestors. -/
def syncLoop : List PathText → PathProg (List PathText)
  | [] => pure []
  | a :: rest => do
    if ← existsOr a.orCurDir then pure [a.orCurDir]
    else do
      let chain ← syncLoop rest
      pure (a.orCurDir :: chain)

def dirsToSync (dir : PathText) : PathProg (List PathText) := syncLoop dir.ancestors

/-- A failed `mkdir` that found the directory in place is no failure. -/
def orPresent (p : PathText) (e : IoError) : PathProg (Except IoError Unit) := do
  if e.kind = .alreadyExists then
    match ← ask (.stat p) with
    | .ok s => if s.kind = .dir then pure (.ok ()) else pure (.error e)
    | .error _ => pure (.error e)
  else pure (.error e)

/-- One directory of `create_dir_all`, `up` making those above it. -/
def createDirWith (up : PathProg (Except IoError Unit)) (p : PathText) :
    PathProg (Except IoError Unit) := do
  match ← ask (.mkdir p) with
  | .ok () => pure (.ok ())
  | .error e =>
    if e.kind = .notFound then
      match ← up with
      | .error e => pure (.error e)
      | .ok () =>
        match ← ask (.mkdir p) with
        | .ok () => pure (.ok ())
        | .error e => orPresent p e
    else orPresent p e

/-- `std::fs::create_dir_all`, which has nothing to do for the empty path and the root. -/
def createDirAll : PathText → PathProg (Except IoError Unit)
  | .empty | .rootDir => pure (.ok ())
  | .curDir => createDirWith (pure (.ok ())) .curDir
  | .join p c => createDirWith (createDirAll p) (.join p c)

/-- Make the entries of directories durable, one after the other. -/
def syncDirs : List PathText → ExceptT IoError PathProg Unit
  | [] => pure ()
  | dir :: dirs => do
    let ino ← ExceptT.mk (ask (.openDir dir))
    ExceptT.mk (ask (.syncDir ino))
    syncDirs dirs

/-- `commit` up to the rename, returning the directories left to sync. -/
def publish (staged dest : PathText) : ExceptT IoError PathProg (List PathText) := do
  ExceptT.mk (ask (.syncFile staged))
  let parent := dest.parentDir
  let toSync ← ExceptT.lift (dirsToSync parent)
  ExceptT.mk (createDirAll parent)
  ExceptT.mk (ask (.rename staged dest))
  pure toSync

/-- `StagedFile::commit`. -/
def commit (staged dest : PathText) : ExceptT IoError PathProg Unit := ExceptT.mk do
  match ← (publish staged dest).run with
  | .error e =>
    let _ ← ask (.unlink staged)
    pure (.error e)
  | .ok toSync => (syncDirs toSync).run

end PathProg

/-! ## The engine's own commit -/

section OfPath

variable {env : Env OsName} {cwd : Path OsName} {w : World OsName}

namespace PathText

@[simp] theorem walk_ofPath (fits : OsName → Bool) (t : FileTree OsName) (cwd : Path OsName) :
    ∀ p : Path OsName, (ofPath p).walk fits t cwd = .ok p
  | [] => rfl
  | n :: p => by
      rw [ofPath, walk, walk_ofPath fits t cwd p]

@[simp] theorem lookup_ofPath (fits : OsName → Bool) (t : FileTree OsName) (cwd p : Path OsName) :
    (ofPath p).lookup fits t cwd = .ok p := by
  cases p with
  | nil => rfl
  | cons n p => exact walk_ofPath fits t cwd (n :: p)

@[simp] theorem orCurDir_ofPath (p : Path OsName) : (ofPath p).orCurDir = ofPath p := by
  cases p <;> rfl

end PathText

open PathText (ofPath)

@[simp] theorem PathCall.atPlace_ofPath {α : Type} (fits : OsName → Bool) (p : Path OsName)
    (call : Path OsName → Except IoError α × World OsName) :
    atPlace fits cwd w (ofPath p) call = call p := by
  rw [atPlace, PathText.lookup_ofPath]

theorem existsOr_ofPath (env : Env OsName) (cwd p : Path OsName) (w : World OsName) :
    (PathProg.existsOr (ofPath p)).run (PathCall.exec env cwd) w =
      (existsOr p).run (engineExec env) w := by
  have text : (PathProg.ask (.stat (ofPath p))).run (PathCall.exec env cwd) w =
      World.exec (L := LockName) env (.stat p) w := PathCall.atPlace_ofPath env.fits p _
  have here : (await (.tryExists p)).run (engineExec env) w =
      (Call.tryExistsCode p).run (World.exec env) w := rfl
  rw [PathProg.existsOr, Prog.run_bind, text, existsOr, Prog.run_bind, here, Call.tryExistsCode,
    Prog.run_bind, StdFs.stat_run]
  dsimp only [World.exec]
  cases w.fs.stat env.fits p with
  | ok k => rfl
  | error e => cases e <;> rfl

/-- A round of the loop: it ends at the first ancestor that is there. -/
theorem PathProg.syncLoop_run {a : PathText} (rest : List PathText) {b : Bool} {w₁ : World OsName}
    (h : (existsOr a.orCurDir).run (PathCall.exec env cwd) w = (b, w₁)) :
    (syncLoop (a :: rest)).run (PathCall.exec env cwd) w =
      if b then ([a.orCurDir], w₁) else
        (a.orCurDir :: ((syncLoop rest).run (PathCall.exec env cwd) w₁).1,
          ((syncLoop rest).run (PathCall.exec env cwd) w₁).2) := by
  simp only [syncLoop, Prog.run_bind, h]
  cases b with
  | true => rfl
  | false =>
      simp only [Bool.false_eq_true, if_false, Prog.run_bind]
      rfl

theorem dirsToSync_ofPath (env : Env OsName) (cwd : Path OsName) :
    ∀ (p : Path OsName) (w : World OsName),
    (PathProg.dirsToSync (ofPath p)).run (PathCall.exec env cwd) w =
      (((dirsToSync p).run (engineExec env) w).1.map ofPath,
        ((dirsToSync p).run (engineExec env) w).2)
  | [], w => by
      have root := existsOr_ofPath env cwd [] w
      change (PathProg.syncLoop [.rootDir]).run _ w = _
      simp only [dirsToSync, Prog.run_bind]
      generalize (existsOr []).run (engineExec env) w = y at root ⊢
      obtain ⟨b, w₁⟩ := y
      rw [PathProg.syncLoop_run (a := .rootDir) [] root]
      cases b <;> rfl
  | n :: p, w => by
      have here := existsOr_ofPath env cwd (n :: p) w
      change (PathProg.syncLoop (ofPath (n :: p) :: (ofPath p).ancestors)).run _ w = _
      simp only [dirsToSync, Prog.run_bind]
      generalize (existsOr (n :: p)).run (engineExec env) w = y at here ⊢
      obtain ⟨b, w₁⟩ := y
      have up := dirsToSync_ofPath env cwd p w₁
      rw [PathProg.dirsToSync] at up
      rw [PathProg.syncLoop_run (a := ofPath (n :: p)) _ here]
      cases b with
      | true => rfl
      | false =>
          simp only [Bool.false_eq_true, if_false, Prog.run_bind, up]
          rfl

theorem orPresent_ofPath (p : Path OsName) (e : IoError) (w : World OsName) :
    (PathProg.orPresent (ofPath p) e).run (PathCall.exec env cwd) w =
      (StdFs.orPresent (L := LockName) p e).run (World.exec env) w := by
  have text : (PathProg.ask (.stat (ofPath p))).run (PathCall.exec env cwd) w =
      World.exec (L := LockName) env (.stat p) w := PathCall.atPlace_ofPath env.fits p _
  rw [PathProg.orPresent, StdFs.orPresent]
  by_cases he : e.kind = .alreadyExists
  · rw [if_pos he, if_pos he, Prog.run_bind, text, Prog.run_bind, StdFs.isDir, Prog.run_bind,
      StdFs.stat_run]
    dsimp only [World.exec]
    cases w.fs.stat env.fits p with
    | ok k => cases k <;> rfl
    | error _ => rfl
  · rw [if_neg he, if_neg he]
    rfl

theorem createDirAll_ofPath : ∀ (p : Path OsName) (w : World OsName),
    (PathProg.createDirAll (ofPath p)).run (PathCall.exec env cwd) w =
      (StdFs.createDirAll (L := LockName) p).run (World.exec env) w
  | [], w => rfl
  | n :: p, w => by
      have text : ∀ w, (PathProg.ask (.mkdir (ofPath (n :: p)))).run (PathCall.exec env cwd) w =
          (StdFs.mkdir (L := LockName) (n :: p)).run (World.exec env) w :=
        fun w => PathCall.atPlace_ofPath env.fits (n :: p) _
      rw [ofPath, PathProg.createDirAll, PathProg.createDirWith, StdFs.createDirAll, Prog.run_bind,
        Prog.run_bind]
      rw [ofPath] at text
      rw [text]
      generalize (StdFs.mkdir (L := LockName) (n :: p)).run (World.exec env) w = first
      obtain ⟨r, w₁⟩ := first
      cases r with
      | ok _ => rfl
      | error e =>
          dsimp only
          by_cases he : e.kind = .notFound
          · rw [if_pos he, if_pos he, Prog.run_bind, Prog.run_bind, createDirAll_ofPath p]
            generalize (StdFs.createDirAll (L := LockName) p).run (World.exec env) w₁ = second
            obtain ⟨r, w₂⟩ := second
            cases r with
            | error _ => rfl
            | ok _ =>
                dsimp only
                rw [Prog.run_bind, Prog.run_bind, text]
                generalize (StdFs.mkdir (L := LockName) (n :: p)).run (World.exec env) w₂ = third
                obtain ⟨r, w₃⟩ := third
                cases r with
                | ok _ => rfl
                | error e => exact orPresent_ofPath (n :: p) e w₃
          · rw [if_neg he, if_neg he]
            exact orPresent_ofPath (n :: p) e w₁

theorem syncDirs_ofPath : ∀ (ps : List (Path OsName)) (w : World OsName),
    (PathProg.syncDirs (ps.map ofPath)).run.run (PathCall.exec env cwd) w =
      (syncDirs ps).run.run (engineExec env) w
  | [], w => rfl
  | p :: ps, w => by
      have text : (ExceptT.mk (PathProg.ask (.openDir (ofPath p)))).run.run
            (PathCall.exec env cwd) w =
          (TokioFs.openDir p).run.run (engineExec env) w := PathCall.atPlace_ofPath env.fits p _
      rw [List.map_cons, PathProg.syncDirs, syncDirs, fsyncDir, bind_assoc, ExceptT.run_bind,
        Prog.run_bind, text, ExceptT.run_bind, Prog.run_bind]
      generalize (TokioFs.openDir p).run.run (engineExec env) w = opened
      obtain ⟨r, w₁⟩ := opened
      cases r with
      | error e => rfl
      | ok i => exact syncDirs_ofPath ps _

theorem publish_ofPath (src : Path OsName) (n : OsName) (p : Path OsName) :
    (PathProg.publish (ofPath src) (ofPath (n :: p))).run.run (PathCall.exec env cwd) w =
      ((((⟨src⟩ : StagedFile).publish (n :: p)).run.run (engineExec env) w).1.map (·.map ofPath),
        (((⟨src⟩ : StagedFile).publish (n :: p)).run.run (engineExec env) w).2) := by
  have sync : (ExceptT.mk (PathProg.ask (.syncFile (ofPath src)))).run.run
      (PathCall.exec env cwd) w = (TokioFs.syncAll src).run.run (engineExec env) w :=
    PathCall.atPlace_ofPath env.fits src _
  have parent : (ofPath (n :: p)).parentDir = ofPath p := PathText.orCurDir_ofPath p
  rw [PathProg.publish, StagedFile.publish]
  dsimp only [parentDir]
  rw [parent, List.tail_cons]
  generalize hsync : (TokioFs.syncAll src).run.run (engineExec env) w = y at sync
  obtain ⟨r, w₁⟩ := y
  cases r with
  | error e => rw [Prog.run_bind_error sync, Prog.run_bind_error hsync]; rfl
  | ok _ =>
      rw [Prog.run_bind_ok sync, Prog.run_bind_ok hsync]
      have chain := dirsToSync_ofPath env cwd p w₁
      generalize hchain : (dirsToSync p).run (engineExec env) w₁ = y at chain
      obtain ⟨toSync, w₂⟩ := y
      rw [Prog.run_bind_lift chain, Prog.run_bind_lift hchain]
      have made : (ExceptT.mk (PathProg.createDirAll (ofPath p))).run.run
          (PathCall.exec env cwd) w₂ =
          (TokioFs.createDirAll p).run.run (engineExec env) w₂ := createDirAll_ofPath p w₂
      generalize hmade : (TokioFs.createDirAll p).run.run (engineExec env) w₂ = y at made
      obtain ⟨r, w₃⟩ := y
      cases r with
      | error e => rw [Prog.run_bind_error made, Prog.run_bind_error hmade]; rfl
      | ok _ =>
          rw [Prog.run_bind_ok made, Prog.run_bind_ok hmade]
          have moved : (ExceptT.mk (PathProg.ask (.rename (ofPath src) (ofPath (n :: p))))).run.run
              (PathCall.exec env cwd) w₃ =
              (TokioFs.rename src (n :: p)).run.run (engineExec env) w₃ :=
            (PathCall.atPlace_ofPath env.fits src _).trans
            (PathCall.atPlace_ofPath env.fits (n :: p) _)
          generalize hmoved : (TokioFs.rename src (n :: p)).run.run (engineExec env) w₃ = y at moved
          obtain ⟨r, w₄⟩ := y
          cases r with
          | error e => rw [Prog.run_bind_error moved, Prog.run_bind_error hmoved]; rfl
          | ok _ => rw [Prog.run_bind_ok moved, Prog.run_bind_ok hmoved]; rfl

/-- **On absolute paths without `..` the commit is the engine's.** -/
theorem commit_ofPath (src : Path OsName) (n : OsName) (p : Path OsName) :
    (PathProg.commit (ofPath src) (ofPath (n :: p))).run.run (PathCall.exec env cwd) w =
      ((⟨src⟩ : StagedFile).commit (n :: p)).run.run (engineExec env) w := by
  have drop : ∀ w, (PathProg.ask (.unlink (ofPath src))).run (PathCall.exec env cwd) w =
      (prim (.unlink src)).run (engineExec env) w :=
    fun w => PathCall.atPlace_ofPath env.fits src _
  rw [PathProg.commit, StagedFile.commit, Prog.run_mk, Prog.run_mk, Prog.run_bind, Prog.run_bind,
    publish_ofPath]
  generalize ((⟨src⟩ : StagedFile).publish (n :: p)).run.run (engineExec env) w = published
  obtain ⟨r, w₁⟩ := published
  cases r with
  | ok toSync => exact syncDirs_ofPath toSync w₁
  | error e =>
      simp only [Except.map, Prog.run_bind, StagedFile.drop, drop]
      rfl

end OfPath

end Aks3.Engine
