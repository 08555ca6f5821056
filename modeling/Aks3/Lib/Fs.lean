import Aks3.Lib.Prog
import Aks3.Lib.FileTree

/-!
# A POSIX filesystem, one system call at a time

The state is the tree the calls see, together with what is known about the
disk: for every directory and name the values that entry may have on disk (the
current one first), and for every file the bytes its last `fsync` wrote. A
change to a directory adds a value to the entry's list; an `fsync` of the
directory leaves only the current one. `PowerLoss` picks any listed value for
every entry.

`Sys` names the calls a program makes and `exec` says what each of them does.
What a call's result depends on besides the tree (the order in which a
directory is read, a clock, the names a random generator draws) comes from
`Env`, and nothing is assumed of it beyond what the interface promises.
-/

set_option autoImplicit false

namespace Aks3.Lib

/-- A failed call: its kind, the text it carries, and which of its maker's own errors it
boxes, if it boxes one (what a downcast of it finds). -/
structure IoError where
  kind : ErrorKind
  message : String
  boxed : Option Nat
  deriving DecidableEq, Repr

/-- The error of a system call, which carries no text of the program's. -/
def ErrorKind.os (k : ErrorKind) : IoError := ⟨k, "", none⟩

@[simp] theorem ErrorKind.kind_os (k : ErrorKind) : k.os.kind = k := rfl

/-- What a directory entry points at. -/
abbrev Slot := Option (Kind × Nat)

def Node.slot (x : Node) : Slot := some (x.kind, x.ino)

structure Fs (N : Type) [DecidableEq N] where
  tree : FileTree N
  nextIno : Nat
  /-- What the entry of a directory may be on disk, its current value first. -/
  disk : Nat → N → List Slot
  /-- The bytes a file's last `fsync` made durable. -/
  synced : Nat → Option Bytes

namespace Fs

variable {N : Type} [DecidableEq N]

/-- A filesystem whose root is empty and on disk. -/
def empty : Fs N where
  tree := .empty
  nextIno := 1
  disk := fun _ _ => [none]
  synced := fun _ => none

/-- Record a new value of an entry. -/
def note (fs : Fs N) (i : Nat) (n : N) (v : Slot) : Nat → N → List Slot :=
  fun j m => if j = i ∧ m = n then v :: fs.disk i n else fs.disk j m

/-- The entry of a node that is new to the tree. -/
def link (fs : Fs N) (i : Nat) (n : N) (p : Path N) (x : Node) (hp : fs.tree.IsDir p)
    (hx : x.kind = .dir ∨ fs.tree.hasChild (n :: p) = false) : Fs N :=
  { fs with tree := fs.tree.insert n p x hp hx, disk := fs.note i n x.slot }

def unlinkAt (fs : Fs N) (i : Nat) (n : N) (p : Path N)
    (h : fs.tree.hasChild (n :: p) = false) : Fs N :=
  { fs with tree := fs.tree.remove n p h, disk := fs.note i n none }

/-- A new inode: an empty directory or an empty file, of which nothing is on disk. -/
def alloc (fs : Fs N) : Fs N :=
  { fs with
    nextIno := fs.nextIno + 1
    disk := fun i n => if i = fs.nextIno then [none] else fs.disk i n
    synced := fun i => if i = fs.nextIno then none else fs.synced i }

/-! ## The calls -/

variable (fits : N → Bool)

def mkdir (fs : Fs N) : Path N → Except ErrorKind Unit × Fs N
  | [] => (.error .alreadyExists, fs)
  | n :: p =>
    match h : fs.tree.locate fits n p with
    | .error e => (.error e, fs)
    | .ok (_, some _) => (.error .alreadyExists, fs)
    | .ok (i, none) =>
      (.ok (), fs.alloc.link i n p (.dir fs.nextIno) ⟨i, (FileTree.find_of_locate h).1⟩ (.inl rfl))

def rmdir (fs : Fs N) : Path N → Except ErrorKind Unit × Fs N
  | [] => (.error .other, fs)
  | n :: p =>
    match fs.tree.locate fits n p with
    | .error e => (.error e, fs)
    | .ok (_, none) => (.error .notFound, fs)
    | .ok (_, some (.file _ _)) => (.error .notADirectory, fs)
    | .ok (i, some (.dir _)) =>
      if h : fs.tree.hasChild (n :: p) = false then (.ok (), fs.unlinkAt i n p h)
      else (.error .directoryNotEmpty, fs)

def unlink (fs : Fs N) : Path N → Except ErrorKind Unit × Fs N
  | [] => (.error .isADirectory, fs)
  | n :: p =>
    match h : fs.tree.locate fits n p with
    | .error e => (.error e, fs)
    | .ok (_, none) => (.error .notFound, fs)
    | .ok (_, some (.dir _)) => (.error .isADirectory, fs)
    | .ok (i, some (.file _ _)) =>
      (.ok (), fs.unlinkAt i n p (FileTree.hasChild_of_file (FileTree.find_of_locate h).2))

/-- `open` with `O_CREAT | O_EXCL`. -/
def createNew (fs : Fs N) : Path N → Except ErrorKind Unit × Fs N
  | [] => (.error .alreadyExists, fs)
  | n :: p =>
    match h : fs.tree.locate fits n p with
    | .error e => (.error e, fs)
    | .ok (_, some _) => (.error .alreadyExists, fs)
    | .ok (i, none) =>
      (.ok (), fs.alloc.link i n p (.file fs.nextIno []) ⟨i, (FileTree.find_of_locate h).1⟩
        (.inr (FileTree.hasChild_of_none (FileTree.find_of_locate h).2)))

/-- Append to a file. No directory entry changes, and nothing of the file counts
as durable until its next `fsync`. -/
def append (fs : Fs N) (bs : Bytes) : Path N → Except ErrorKind Unit × Fs N
  | [] => (.error .isADirectory, fs)
  | n :: p =>
    match h : fs.tree.locate fits n p with
    | .error e => (.error e, fs)
    | .ok (_, none) => (.error .notFound, fs)
    | .ok (_, some (.dir _)) => (.error .isADirectory, fs)
    | .ok (i, some (.file j d)) =>
      (.ok (), { fs with
        tree := fs.tree.insert n p (.file j (d ++ bs)) ⟨i, (FileTree.find_of_locate h).1⟩
          (.inr (FileTree.hasChild_of_file (FileTree.find_of_locate h).2))
        synced := fun m => if m = j then none else fs.synced m })

def syncFile (fs : Fs N) (p : Path N) : Except ErrorKind Unit × Fs N :=
  match fs.tree.resolve fits p with
  | .error e => (.error e, fs)
  | .ok (.dir _) => (.error .isADirectory, fs)
  | .ok (.file i d) =>
      (.ok (), { fs with synced := fun j => if j = i then some d else fs.synced j })

/-- Open a directory for `fsync`; the handle is its inode. -/
def openDir (fs : Fs N) (p : Path N) : Except ErrorKind Nat :=
  match fs.tree.resolve fits p with
  | .error e => .error e
  | .ok x => .ok x.ino

/-- `fsync` of a directory: of every entry only the current value is left. -/
def syncDir (fs : Fs N) (i : Nat) : Fs N :=
  { fs with disk := fun j n => if j = i then (fs.disk j n).take 1 else fs.disk j n }

/-- Rename a file over whatever file the destination names. The source goes
first; its directory and the destination's each record the change to their own
entry. A directory is never renamed by the programs this models. -/
def rename (fs : Fs N) : Path N → Path N → Except ErrorKind Unit × Fs N
  | n :: p, m :: q =>
    match h : fs.tree.locate fits n p with
    | .error e => (.error e, fs)
    | .ok (_, none) => (.error .notFound, fs)
    | .ok (_, some (.dir _)) => (.error .other, fs)
    | .ok (i, some (.file a d)) =>
      let out := fs.unlinkAt i n p (FileTree.hasChild_of_file (FileTree.find_of_locate h).2)
      match h' : out.tree.locate fits m q with
      | .error e => (.error e, fs)
      | .ok (_, some (.dir _)) => (.error .isADirectory, fs)
      | .ok (j, none) =>
        (.ok (), out.link j m q (.file a d) ⟨j, (FileTree.find_of_locate h').1⟩
          (.inr (FileTree.hasChild_of_none (FileTree.find_of_locate h').2)))
      | .ok (j, some (.file _ _)) =>
        (.ok (), out.link j m q (.file a d) ⟨j, (FileTree.find_of_locate h').1⟩
          (.inr (FileTree.hasChild_of_file (FileTree.find_of_locate h').2)))
  | _, _ => (.error .other, fs)

def readFile (fs : Fs N) (p : Path N) : Except ErrorKind Bytes :=
  match fs.tree.resolve fits p with
  | .error e => .error e
  | .ok (.dir _) => .error .isADirectory
  | .ok (.file _ d) => .ok d

def readDir (fs : Fs N) (p : Path N) : Except ErrorKind (List (N × Kind)) :=
  match fs.tree.resolve fits p with
  | .error e => .error e
  | .ok (.file _ _) => .error .notADirectory
  | .ok (.dir _) => .ok (fs.tree.children p)

def stat (fs : Fs N) (p : Path N) : Except ErrorKind Kind :=
  match fs.tree.resolve fits p with
  | .error e => .error e
  | .ok x => .ok x.kind

end Fs

end Aks3.Lib
