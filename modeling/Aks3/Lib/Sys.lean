import Aks3.Lib.Fs

/-!
# System calls and their execution

`Sys` lists what a program can ask for: the filesystem calls, the clock, a
random name, a wait for input, and steps on named locks. `exec` runs one of
them alone, so a lock step has nobody to wait for. `execFault` is the same call
failing.

Four operations stand for what the surroundings decide. `uuid` draws a name
that was not drawn before. `readDir` returns the entries in any order. `seek`
goes to any offset of a file, but past its end only to those the surroundings
can represent. `budget`
bounds the rounds of a loop over a tree by the size of the tree, plus whatever
the environment adds: alone, that is always enough, and among other programs
every loop that ends is covered by some environment.
-/

set_option autoImplicit false

namespace Aks3.Lib

/-- How a reader-writer lock is held. -/
inductive Mode where
  | shared
  | exclusive
  deriving DecidableEq, Repr

/-- The steps of taking and giving back a lock from a table of locks. -/
inductive LockStep where
  /-- Look the lock up, or insert it, and take a reference to it. -/
  | refer
  | take (m : Mode)
  /-- Release the lock and give up the reference. -/
  | drop (m : Mode)
  /-- Give up a reference whose lock was never taken. -/
  | unref
  /-- Take the entry out of the table if nothing refers to it. -/
  | prune
  deriving DecidableEq, Repr

/-- `std::fs::Metadata`, as far as programs look at it. -/
structure Stat where
  kind : Kind
  modified : Nat
  deriving DecidableEq, Repr

inductive Sys (N L : Type) where
  | mkdir (p : Path N)
  | rmdir (p : Path N)
  | unlink (p : Path N)
  | rename (src dst : Path N)
  | stat (p : Path N)
  | createNew (p : Path N)
  | append (p : Path N) (bs : Bytes)
  | syncFile (p : Path N)
  | openDir (p : Path N)
  | syncDir (ino : Nat)
  | readFile (p : Path N)
  /-- Go to an offset of an open file that has `size` bytes. -/
  | seek (size offset : Nat)
  | readDir (p : Path N)
  | budget
  | now
  | uuid
  | recv
  | lock (l : L) (s : LockStep)
  deriving DecidableEq, Repr

namespace Sys

variable {N L : Type}

def Res : Sys N L → Type
  | .mkdir _ | .rmdir _ | .unlink _ | .rename _ _ | .createNew _ | .append _ _ | .syncFile _
  | .syncDir _ | .seek _ _ => Except IoError Unit
  | .stat _ => Except IoError Stat
  | .openDir _ => Except IoError Nat
  | .readFile _ => Except IoError Bytes
  | .readDir _ => Except IoError (List (N × Kind))
  | .budget | .now => Nat
  | .uuid => String
  | .recv | .lock _ _ => Unit

end Sys

/-- The signature of the system calls. -/
abbrev sysSig (N L : Type) : Sig := ⟨Sys N L, Sys.Res⟩

/-- What the surroundings decide. -/
structure Env (N : Type) where
  /-- The names the filesystem accepts. -/
  fits : N → Bool
  /-- The offsets past its end that a file can be positioned at. -/
  seeks : Nat → Bool
  /-- The order in which a directory is read. -/
  order : Nat → List (N × Kind) → List (N × Kind)
  order_perm : ∀ t l, (order t l).Perm l
  /-- The names a random generator draws. -/
  uuid : Nat → String
  uuid_injective : Function.Injective uuid
  /-- The modification time of a directory or file. -/
  modified : Nat → Path N → Nat
  /-- What is added to a loop's bound. -/
  slack : Nat → Nat

/-- A file of `size` bytes can be positioned at the offset. -/
def Env.reaches {N : Type} (env : Env N) (size offset : Nat) : Bool :=
  offset ≤ size || env.seeks offset

theorem Env.reaches_of_le {N : Type} (env : Env N) {size offset : Nat} (h : offset ≤ size) :
    env.reaches size offset = true := by
  rw [reaches, decide_eq_true h, Bool.true_or]

/-- The state of the machine: its filesystem, its clock, and how many choices
the surroundings have made. -/
structure World (N : Type) [DecidableEq N] where
  fs : Fs N
  clock : Nat
  tick : Nat

namespace World

variable {N L : Type} [DecidableEq N]

def empty (N : Type) [DecidableEq N] : World N := ⟨.empty, 0, 0⟩

/-- The tree, where only the namespace matters. -/
abbrev tree (w : World N) : FileTree N := w.fs.tree

def withFs {α : Type} (w : World N) (r : Except ErrorKind α × Fs N) :
    Except IoError α × World N :=
  (r.1.mapError ErrorKind.os, { w with fs := r.2 })

variable (env : Env N)

/-- One call, run alone. -/
def exec : (o : Sys N L) → World N → o.Res × World N
  | .mkdir p, w => w.withFs (w.fs.mkdir env.fits p)
  | .rmdir p, w => w.withFs (w.fs.rmdir env.fits p)
  | .unlink p, w => w.withFs (w.fs.unlink env.fits p)
  | .rename p q, w => w.withFs (w.fs.rename env.fits p q)
  | .stat p, w =>
    (((w.fs.stat env.fits p).mapError ErrorKind.os).map fun k => ⟨k, env.modified w.tick p⟩,
      { w with tick := w.tick + 1 })
  | .createNew p, w => w.withFs (w.fs.createNew env.fits p)
  | .append p bs, w => w.withFs (w.fs.append env.fits bs p)
  | .syncFile p, w => w.withFs (w.fs.syncFile env.fits p)
  | .openDir p, w => ((w.fs.openDir env.fits p).mapError ErrorKind.os, w)
  | .syncDir i, w => (.ok (), { w with fs := w.fs.syncDir i })
  | .readFile p, w => ((w.fs.readFile env.fits p).mapError ErrorKind.os, w)
  | .seek size offset, w =>
    (if env.reaches size offset then .ok () else .error (ErrorKind.os .invalidInput), w)
  | .readDir p, w =>
    (((w.fs.readDir env.fits p).mapError ErrorKind.os).map (env.order w.tick),
      { w with tick := w.tick + 1 })
  | .budget, w =>
    (w.fs.tree.nodes.keys.length + 1 + env.slack w.tick, { w with tick := w.tick + 1 })
  | .now, w => (w.clock, w)
  | .uuid, w => (env.uuid w.tick, { w with tick := w.tick + 1 })
  | .recv, w => ((), w)
  | .lock _ _, w => ((), w)

/-- A call that fails with `e`. Of a write, any part may have been made. -/
def execFault (e : IoError) (part : Nat) : (o : Sys N L) → World N → Option (o.Res × World N)
  | .mkdir _, w | .rmdir _, w | .unlink _, w | .rename _ _, w | .createNew _, w
  | .syncFile _, w | .syncDir _, w | .seek _ _, w => some (.error e, w)
  | .append p bs, w => some (.error e, { w with fs := (w.fs.append env.fits (bs.take part) p).2 })
  | .stat _, w => some (.error e, w)
  | .openDir _, w => some (.error e, w)
  | .readFile _, w => some (.error e, w)
  | .readDir _, w => some (.error e, w)
  | .budget, _ | .now, _ | .uuid, _ | .recv, _ | .lock _ _, _ => none

end World

end Aks3.Lib
