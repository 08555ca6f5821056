import Aks3.Engine.FsEngine
import Aks3.Lib.LockTableSpec

/-!
# The engine's methods running together

A pool of tasks, each with one request, over one filesystem and one pair of lock
tables. One step is one system call, or one step on the tables. A task that awaits a
job lets it run on the blocking pool, call by call; a task that awaits a lock goes on
once it was given the lock. Any file call can be made to fail.

A task can be dropped wherever it awaits something. Its destructors then run, the last
local first: a reference to a lock it does not hold yet, locks, a staged file that was
not renamed. A job it awaited runs on without it.
-/

set_option autoImplicit false

namespace Aks3.Engine

open Lib

abbrev TaskId := Nat

/-- A local with a destructor. -/
inductive Owned where
  | lock (l : LockName) (m : Mode)
  | file (p : Path OsName)
  deriving DecidableEq, Repr

/-- The locals of a task that a drop has to give back. -/
structure Locals where
  /-- A lock it refers to and does not hold. -/
  refd : Option LockName
  /-- The last one first. -/
  owned : List Owned
  deriving DecidableEq, Repr

def Locals.empty : Locals := ⟨none, []⟩

/-- A file that is being committed is the commit's, whose locals are the last. -/
def Locals.onSubmit (loc : Locals) : Call → Locals
  | .syncAll p =>
    if .file p ∈ loc.owned then { loc with owned := .file p :: loc.owned.erase (.file p) } else loc
  | _ => loc

/-- A file is the task's once it was created, and no longer once it was renamed. -/
def Locals.onReturn (loc : Locals) : (c : Call) → c.Res → Locals
  | .openNew p, .ok _ => { loc with owned := .file p :: loc.owned }
  | .rename src _, .ok _ => { loc with owned := loc.owned.erase (.file src) }
  | _, _ => loc

/-- A destructor that is run where the source runs it. -/
def Locals.onPrim (loc : Locals) : Sys OsName LockName → Locals
  | .unlink p => { loc with owned := loc.owned.erase (.file p) }
  | _ => loc

/-- A request in progress, or what is left of it. It ends with an answer unless it was
dropped. -/
inductive Task where
  | idle
  | run (loc : Locals) (p : EngineProg (Option Resp))
  /-- Awaiting a job. -/
  | busy (loc : Locals) (c : Call) (job : WalkProg c.Res) (k : c.Res → EngineProg (Option Resp))

/-- What the destructors of a task's locals do. -/
def destructor : Owned → EngineProg Unit
  | .lock l m => do
    prim (.lock l (.drop m))
    prim (.lock l .prune)
  | .file p => do
    let _ ← prim (.unlink p)
    pure ()

def destructors : List Owned → EngineProg (Option Resp)
  | [] => pure none
  | o :: owned => do
    destructor o
    destructors owned

/-- What a task does when it is dropped. -/
def Locals.cleanup (loc : Locals) : EngineProg (Option Resp) :=
  match loc.refd with
  | none => destructors loc.owned
  | some l => do
    prim (.lock l .unref)
    destructors loc.owned

/-- What can be seen of a run, each with the state of the machine then. -/
inductive Event where
  | started (t : TaskId) (r : Req)
  | took (t : TaskId) (l : LockName) (m : Mode)
  | gave (t : TaskId) (l : LockName) (m : Mode)
  | dropped (t : TaskId)
  | ended (t : TaskId) (resp : Option Resp)
  | killed

/-- The process: before it is opened, while a task opens it, and afterwards. -/
inductive Phase where
  | down
  | opening (t : TaskId)
  | up
  deriving DecidableEq, Repr

structure Pool where
  world : World OsName
  locks : LockTable LockName TaskId
  tasks : TaskId → Task
  /-- Jobs nobody awaits. -/
  orphans : List (WalkProg Unit)
  phase : Phase
  /-- The last event first. -/
  log : List (Event × World OsName)

inductive Label where
  | start (t : TaskId) (r : Req)
  /-- A step of a task, at a lock with the given address, or failing as given. -/
  | step (t : TaskId) (addr : Nat) (fault : Option (IoError × Nat))
  | grant (addr : Nat)
  | drop (t : TaskId)
  | orphan (i : Nat) (fault : Option (IoError × Nat))
  | clock (now : Nat)
  | kill

namespace Pool

def set (s : Pool) (t : TaskId) (task : Task) : Pool :=
  { s with tasks := Function.update s.tasks t task }

def record (s : Pool) (e : Event) : Pool := { s with log := (e, s.world) :: s.log }

/-- A system call, or its failure. -/
def callOrFault (env : Env OsName) (fault : Option (IoError × Nat)) (o : Sys OsName LockName)
    (w : World OsName) : Option (o.Res × World OsName) :=
  match fault with
  | none => some (World.exec env o w)
  | some (e, part) => World.execFault env e part o w

/-- Whether a task awaits something here. -/
def awaits : Task → Bool
  | .busy .. => true
  | .run _ (.op (.prim .recv) _) => true
  | .run _ (.op (.prim (.lock _ (.take _))) _) => true
  | _ => false

/-- A step at a lock that was made for the given name. -/
def atLock (s : Pool) (l : LockName) (addr : Nat) (f : LockObj LockName TaskId → Option Pool) :
    Option Pool :=
  match s.locks.obj addr with
  | none => none
  | some o => if o.name = l then f o else none

/-- A step of task `t` on the tables, before it goes on with `p`. -/
def lockStep (s : Pool) (t : TaskId) (loc : Locals) (l : LockName) (addr : Nat)
    (again p : EngineProg (Option Resp)) : LockStep → Option Pool
  | .refer =>
    (s.locks.refer t l addr).map fun locks =>
      { s with locks }.set t (.run { loc with refd := some l } p)
  | .take m =>
    s.atLock l addr fun o =>
      if t ∈ o.refs then
        (s.locks.onObj addr (LockObj.enqueue t m)).map fun locks =>
          { s with locks }.set t (.run loc again)
      else
        (s.locks.onObj addr (LockObj.claim t m)).map fun locks =>
          ({ s with locks }.set t (.run ⟨none, .lock l m :: loc.owned⟩ p)).record (.took t l m)
  | .drop m =>
    s.atLock l addr fun _ =>
      (s.locks.release t m addr).map fun locks =>
        ({ s with locks }.set t (.run { loc with owned := loc.owned.erase (.lock l m) } p)).record
          (.gave t l m)
  | .unref =>
    s.atLock l addr fun _ =>
      (s.locks.onObj addr (LockObj.cancel t)).map fun locks =>
        { s with locks }.set t (.run { loc with refd := none } p)
  | .prune => (s.locks.prune t l).map fun locks => { s with locks }.set t (.run loc p)

/-- A request comes to an end. -/
def finish (s : Pool) (t : TaskId) (resp : Option Resp) : Pool :=
  let phase :=
    if s.phase = .opening t then
      match resp with
      | some (.ok _) => .up
      | _ => .down
    else s.phase
  ({ s with phase }.set t .idle).record (.ended t resp)

def taskStep (env : Env OsName) (s : Pool) (t : TaskId) (addr : Nat)
    (fault : Option (IoError × Nat)) : Option Pool :=
  match s.tasks t with
  | .idle => none
  | .busy loc c (.pure r) k => some (s.set t (.run (loc.onReturn c r) (k r)))
  | .busy loc c (.op o j) k =>
    (callOrFault env fault o s.world).map fun x =>
      { s with world := x.2 }.set t (.busy loc c (j x.1) k)
  | .run _ (.pure resp) => some (s.finish t resp)
  | .run loc (.op (.call c) k) => some (s.set t (.busy (loc.onSubmit c) c c.code k))
  | .run loc (.op (.prim (.lock l step)) k) =>
    s.lockStep t loc l addr (.op (.prim (.lock l step)) k) (k ()) step
  | .run loc (.op (.prim o) k) =>
    (callOrFault env fault o s.world).map fun x =>
      { s with world := x.2 }.set t (.run (loc.onPrim o) (k x.1))

/-- Requests are served while the process is up; opening it is the first of them. -/
def start (C : Crates) (s : Pool) (t : TaskId) (r : Req) : Option Pool :=
  match s.tasks t, r, s.phase with
  | .idle, .openEngine, .down =>
    some (({ s with phase := .opening t }.set t
      (.run .empty (some <$> serve C .openEngine))).record (.started t .openEngine))
  | .idle, .openEngine, _ => none
  | .idle, r, .up => some ((s.set t (.run .empty (some <$> serve C r))).record (.started t r))
  | _, _, _ => none

def drop (s : Pool) (t : TaskId) : Option Pool :=
  match s.tasks t with
  | .busy loc _ job _ =>
    some (({ s with orphans := (job >>= fun _ => pure ()) :: s.orphans }.set t
      (.run loc loc.cleanup)).record (.dropped t))
  | .run loc p =>
    if awaits (.run loc p) then some ((s.set t (.run loc loc.cleanup)).record (.dropped t))
    else none
  | .idle => none

def orphan (env : Env OsName) (s : Pool) (i : Nat) (fault : Option (IoError × Nat)) :
    Option Pool :=
  match s.orphans[i]? with
  | none => none
  | some (.pure _) => some { s with orphans := s.orphans.eraseIdx i }
  | some (.op o j) =>
    (callOrFault env fault o s.world).map fun x =>
      { s with world := x.2, orphans := s.orphans.set i (j x.1) }

/-- The process is killed. What the system has written stays. -/
def kill (s : Pool) : Pool :=
  { s with
    locks := .empty _ _, tasks := fun _ => .idle, orphans := [], phase := .down }.record .killed

def next (env : Env OsName) (C : Crates) (s : Pool) : Label → Option Pool
  | .start t r => s.start C t r
  | .step t addr fault => s.taskStep env t addr fault
  | .grant addr => (s.locks.onObj addr LockObj.grant).map fun locks => { s with locks }
  | .drop t => s.drop t
  | .orphan i fault => s.orphan env i fault
  | .clock now => some { s with world := { s.world with clock := now } }
  | .kill => some s.kill

/-- A process that is not running yet, on a machine in any state. -/
def init (w : World OsName) : Pool := ⟨w, .empty _ _, fun _ => .idle, [], .down, []⟩

/-- The state after a schedule, if every step of it can be taken. -/
def run (env : Env OsName) (C : Crates) : Pool → List Label → Option Pool
  | s, [] => some s
  | s, l :: ls => (s.next env C l).bind fun s' => s'.run env C ls

end Pool

end Aks3.Engine
