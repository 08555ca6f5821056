import Aks3.Lib.Text

/-!
# Directory trees

The namespace of a filesystem as a finite map from paths to nodes. A path is
the list of its components with the last one first, so that the parent of a
path is its tail and the directories on the way to it are its suffixes; the
empty path is the root, which is always there. Every node's parent is a
directory: that is a field of `FileTree`, so no operation can leave a node hanging.

`resolve` follows a path from the root the way the kernel does, component by
component, and says which component it stops at.
-/

set_option autoImplicit false

namespace Aks3.Lib

/-- A path, its last component first. -/
abbrev Path (N : Type) := List N

inductive Kind where
  | file
  | dir
  deriving DecidableEq, Repr

/-- A file with its bytes, or a directory. The number is the inode's. -/
inductive Node where
  | file (ino : Nat) (data : Bytes)
  | dir (ino : Nat)
  deriving DecidableEq, Repr

namespace Node

def kind : Node → Kind
  | .file _ _ => .file
  | .dir _ => .dir

def ino : Node → Nat
  | .file i _ => i
  | .dir i => i

@[simp] theorem kind_file (i : Nat) (d : Bytes) : (Node.file i d).kind = .file := rfl
@[simp] theorem kind_dir (i : Nat) : (Node.dir i).kind = .dir := rfl

theorem kind_eq_dir {x : Node} : x.kind = .dir ↔ ∃ i, x = .dir i := by
  cases x <;> simp [kind]

end Node

/-- Why a filesystem call failed, by the name `std::io::ErrorKind` gives it. -/
inductive ErrorKind where
  | notFound
  | alreadyExists
  | notADirectory
  | isADirectory
  | directoryNotEmpty
  | invalidFilename
  | invalidInput
  | storageFull
  | invalidData
  | unexpectedEof
  | other
  deriving DecidableEq, Repr

/-- A finite directory tree. -/
structure FileTree (N : Type) [DecidableEq N] where
  nodes : AList (fun _ : Path N => Node)
  /-- The root has no entry of its own. -/
  rootless : nodes.lookup [] = none
  /-- Every node but those of the root directory has a directory above it. -/
  closed : ∀ n p, nodes.lookup (n :: p) ≠ none → p ≠ [] → ∃ i, nodes.lookup p = some (.dir i)

namespace FileTree

variable {N : Type} [DecidableEq N]

/-- The tree that holds nothing but its root. -/
def empty : FileTree N where
  nodes := ∅
  rootless := rfl
  closed := fun _ _ h => absurd rfl h

/-- The node at a path. The root is inode 0. -/
def find (t : FileTree N) : Path N → Option Node
  | [] => some (.dir 0)
  | p => t.nodes.lookup p

@[simp] theorem find_nil (t : FileTree N) : t.find [] = some (.dir 0) := rfl

theorem find_cons (t : FileTree N) (n : N) (p : Path N) :
    t.find (n :: p) = t.nodes.lookup (n :: p) := rfl

def IsDir (t : FileTree N) (p : Path N) : Prop := ∃ i, t.find p = some (.dir i)

instance (t : FileTree N) (p : Path N) : Decidable (t.IsDir p) :=
  match h : t.find p with
  | some (.dir i) => .isTrue ⟨i, h⟩
  | some (.file _ _) => .isFalse fun ⟨_, hi⟩ => by simp [h] at hi
  | none => .isFalse fun ⟨_, hi⟩ => by simp [h] at hi

@[simp] theorem isDir_nil (t : FileTree N) : t.IsDir [] := ⟨0, rfl⟩

/-- What a node hangs from is a directory. -/
theorem isDir_of_find {t : FileTree N} {n : N} {p : Path N} (h : t.find (n :: p) ≠ none) :
    t.IsDir p := by
  cases p with
  | nil => exact t.isDir_nil
  | cons m q => exact t.closed n (m :: q) h (by simp)

theorem isDir_tail {t : FileTree N} {n : N} {p : Path N} (h : t.IsDir (n :: p)) : t.IsDir p := by
  obtain ⟨i, hi⟩ := h
  have present : t.find (n :: p) ≠ none := by simp [hi]
  exact isDir_of_find present

/-- Every directory on the way to a node is there. -/
theorem isDir_of_suffix {t : FileTree N} {p q : Path N} (h : t.IsDir q) (hs : p <:+ q) :
    t.IsDir p := by
  induction q with
  | nil =>
      rw [List.suffix_nil.mp hs]
      exact t.isDir_nil
  | cons n q ih =>
      rcases List.suffix_cons_iff.mp hs with rfl | hs
      · exact h
      · exact ih (isDir_tail h) hs

theorem find_none_of_child {t : FileTree N} {n : N} {p : Path N} (h : ¬ t.IsDir p) :
    t.find (n :: p) = none := by
  by_contra hne
  exact h (isDir_of_find hne)

/-! ## Children -/

/-- Whether a directory has an entry. -/
def hasChild (t : FileTree N) (p : Path N) : Bool :=
  t.nodes.keys.any fun q => q != [] && q.tail == p

theorem hasChild_eq_true {t : FileTree N} {p : Path N} :
    t.hasChild p = true ↔ ∃ n, t.find (n :: p) ≠ none := by
  simp only [hasChild, List.any_eq_true, Bool.and_eq_true, bne_iff_ne, beq_iff_eq]
  constructor
  · rintro ⟨q, hq, hne, rfl⟩
    cases q with
    | nil => exact absurd rfl hne
    | cons n q =>
        refine ⟨n, ?_⟩
        rw [List.tail_cons, find_cons, ← Option.isSome_iff_ne_none, AList.lookup_isSome]
        exact AList.mem_keys.mp hq
  · rintro ⟨n, hn⟩
    refine ⟨n :: p, ?_, by simp, rfl⟩
    rw [find_cons, ← Option.isSome_iff_ne_none, AList.lookup_isSome] at hn
    exact AList.mem_keys.mpr hn

theorem hasChild_eq_false {t : FileTree N} {p : Path N} :
    t.hasChild p = false ↔ ∀ n, t.find (n :: p) = none := by
  rw [← Bool.not_eq_true, hasChild_eq_true]
  push Not
  rfl

theorem hasChild_of_file {t : FileTree N} {p : Path N} {i : Nat} {d : Bytes}
    (h : t.find p = some (.file i d)) : t.hasChild p = false := by
  refine hasChild_eq_false.mpr fun n => find_none_of_child ?_
  rintro ⟨j, hj⟩
  simp [h] at hj

theorem hasChild_of_none {t : FileTree N} {p : Path N} (h : t.find p = none) :
    t.hasChild p = false := by
  refine hasChild_eq_false.mpr fun n => find_none_of_child ?_
  rintro ⟨j, hj⟩
  simp [h] at hj

/-- The entries of a directory, in the order the map keeps them. -/
def children (t : FileTree N) (p : Path N) : List (N × Kind) :=
  t.nodes.entries.filterMap fun e =>
    match e.1 with
    | [] => none
    | n :: q => if q = p then some (n, e.2.kind) else none

theorem mem_children {t : FileTree N} {p : Path N} {n : N} {k : Kind} :
    (n, k) ∈ t.children p ↔ ∃ x, t.find (n :: p) = some x ∧ x.kind = k := by
  simp only [children, List.mem_filterMap]
  constructor
  · rintro ⟨⟨q, x⟩, he, hk⟩
    cases q with
    | nil => simp at hk
    | cons m q =>
        simp only [Option.ite_none_right_eq_some, Option.some.injEq, Prod.mk.injEq] at hk
        obtain ⟨rfl, rfl, rfl⟩ := hk
        exact ⟨x, AList.mem_lookup_iff.mpr he, rfl⟩
  · rintro ⟨x, hx, rfl⟩
    exact ⟨⟨n :: p, x⟩, AList.mem_lookup_iff.mp hx, by simp⟩

theorem nodup_children (t : FileTree N) (p : Path N) : ((t.children p).map Prod.fst).Nodup := by
  have hk : t.nodes.entries.NodupKeys := t.nodes.nodupKeys
  unfold children
  generalize t.nodes.entries = l at hk
  induction l with
  | nil => simp
  | cons e l ih =>
      obtain ⟨hnot, hl⟩ := List.nodupKeys_cons.mp hk
      obtain ⟨q, x⟩ := e
      cases q with
      | nil => simpa using ih hl
      | cons n q =>
          by_cases hq : q = p
          · subst hq
            simp only [List.filterMap_cons, if_true, List.map_cons, List.nodup_cons]
            refine ⟨?_, ih hl⟩
            intro hmem
            obtain ⟨⟨m, k⟩, hm, rfl⟩ := List.mem_map.mp hmem
            obtain ⟨⟨r, y⟩, hr, hy⟩ := List.mem_filterMap.mp hm
            cases r with
            | nil => simp at hy
            | cons m' r =>
                simp only [Option.ite_none_right_eq_some, Option.some.injEq, Prod.mk.injEq] at hy
                obtain ⟨rfl, rfl, -⟩ := hy
                exact hnot (List.mem_map.mpr ⟨_, hr, rfl⟩)
          · simpa [hq] using ih hl

/-! ## Adding and removing a node -/

/-- Put a node at a name of a directory. Only a directory may take the place of
a node that has children. -/
def insert (t : FileTree N) (n : N) (p : Path N) (x : Node) (hp : t.IsDir p)
    (hx : x.kind = .dir ∨ t.hasChild (n :: p) = false) : FileTree N where
  nodes := t.nodes.insert (n :: p) x
  rootless := by
    rw [AList.lookup_insert_ne (by simp)]
    exact t.rootless
  closed := by
    intro m q hm hq
    by_cases hq' : q = n :: p
    · subst hq'
      rw [AList.lookup_insert]
      rcases hx with hx | hx
      · obtain ⟨i, rfl⟩ := Node.kind_eq_dir.mp hx
        exact ⟨i, rfl⟩
      · rw [AList.lookup_insert_ne (by simp)] at hm
        exact absurd (hasChild_eq_false.mp hx m) hm
    · rw [AList.lookup_insert_ne hq']
      by_cases hmq : m :: q = n :: p
      · obtain ⟨rfl, rfl⟩ := List.cons_eq_cons.mp hmq
        obtain ⟨i, hi⟩ := hp
        cases q with
        | nil => exact absurd rfl hq
        | cons _ _ => exact ⟨i, hi⟩
      · rw [AList.lookup_insert_ne hmq] at hm
        exact t.closed m q hm hq

/-- Take away a node without children. -/
def remove (t : FileTree N) (n : N) (p : Path N) (h : t.hasChild (n :: p) = false) :
    FileTree N where
  nodes := t.nodes.erase (n :: p)
  rootless := by
    rw [AList.lookup_erase_ne (by simp)]
    exact t.rootless
  closed := by
    intro m q hm hq
    have hmq : m :: q ≠ n :: p := by
      rintro he
      rw [he, AList.lookup_erase] at hm
      exact hm rfl
    rw [AList.lookup_erase_ne hmq] at hm
    have hqp : q ≠ n :: p := by
      rintro rfl
      exact hm (hasChild_eq_false.mp h m)
    rw [AList.lookup_erase_ne hqp]
    exact t.closed m q hm hq

theorem find_insert (t : FileTree N) (n : N) (p : Path N) (x : Node) (hp hx) (q : Path N) :
    (t.insert n p x hp hx).find q = if q = n :: p then some x else t.find q := by
  cases q with
  | nil => simp
  | cons m q =>
      by_cases h : m :: q = n :: p
      · rw [if_pos h, h]
        exact AList.lookup_insert _
      · rw [if_neg h]
        exact AList.lookup_insert_ne h

theorem find_remove (t : FileTree N) (n : N) (p : Path N) (h) (q : Path N) :
    (t.remove n p h).find q = if q = n :: p then none else t.find q := by
  cases q with
  | nil => simp
  | cons m q =>
      by_cases hq : m :: q = n :: p
      · rw [if_pos hq, hq]
        exact AList.lookup_erase _ t.nodes
      · rw [if_neg hq]
        exact AList.lookup_erase_ne hq

/-! ## Following a path -/

/-- The node at the end of a path, every component looked up in turn. `fits`
says which names the filesystem accepts. -/
def resolve (fits : N → Bool) (t : FileTree N) : Path N → Except ErrorKind Node
  | [] => .ok (.dir 0)
  | n :: p =>
    match t.resolve fits p with
    | .error e => .error e
    | .ok (.file _ _) => .error .notADirectory
    | .ok (.dir _) =>
      if fits n then
        match t.find (n :: p) with
        | some x => .ok x
        | none => .error .notFound
      else .error .invalidFilename

/-- The directory a last component is looked up in, and what is there. -/
def locate (fits : N → Bool) (t : FileTree N) (n : N) (p : Path N) :
    Except ErrorKind (Nat × Option Node) :=
  match t.resolve fits p with
  | .error e => .error e
  | .ok (.file _ _) => .error .notADirectory
  | .ok (.dir i) => if fits n then .ok (i, t.find (n :: p)) else .error .invalidFilename

theorem find_of_resolve {fits : N → Bool} {t : FileTree N} : ∀ {p : Path N} {x : Node},
    t.resolve fits p = .ok x → t.find p = some x
  | [], x, h => by
      cases h
      rfl
  | n :: p, x, h => by
      rw [resolve] at h
      split at h <;> try cases h
      split at h
      · split at h
        · rename_i hx
          cases h
          exact hx
        · cases h
      · cases h

theorem find_of_locate {fits : N → Bool} {t : FileTree N} {n : N} {p : Path N} {i : Nat}
    {o : Option Node} (h : t.locate fits n p = .ok (i, o)) :
    t.find p = some (.dir i) ∧ t.find (n :: p) = o := by
  rw [locate] at h
  split at h <;> try cases h
  rename_i hp
  split at h
  · cases h
    exact ⟨find_of_resolve hp, rfl⟩
  · cases h

/-- With names the filesystem accepts, a node that is there is found. -/
theorem resolve_of_find {fits : N → Bool} {t : FileTree N} : ∀ {p : Path N} {x : Node},
    (∀ n ∈ p, fits n = true) → t.find p = some x → t.resolve fits p = .ok x
  | [], x, _, h => by
      cases h
      rfl
  | n :: p, x, hn, h => by
      obtain ⟨i, hi⟩ := isDir_of_find (t := t) (n := n) (p := p) (by simp [h])
      rw [resolve, resolve_of_find (fun m hm => hn m (by simp [hm])) hi]
      simp only [hn n (by simp), if_true, h]

theorem locate_of_dir {fits : N → Bool} {t : FileTree N} {n : N} {p : Path N} {i : Nat}
    (hn : ∀ m ∈ n :: p, fits m = true) (h : t.find p = some (.dir i)) :
    t.locate fits n p = .ok (i, t.find (n :: p)) := by
  rw [locate, resolve_of_find (fun m hm => hn m (by simp [hm])) h]
  simp only [hn n (by simp), if_true]

/-- No directory on the way to a path is a file in its place. -/
def Clear (t : FileTree N) (p : Path N) : Prop := ∀ q, q <:+ p → ∀ i d, t.find q ≠ some (.file i d)

theorem Clear.tail {t : FileTree N} {n : N} {p : Path N} (h : t.Clear (n :: p)) : t.Clear p :=
  fun q hq => h q (hq.trans (List.suffix_cons n p))

/-- On a clear path the only way to fail is a missing directory. -/
theorem resolve_clear {fits : N → Bool} {t : FileTree N} : ∀ {p : Path N},
    (∀ n ∈ p, fits n = true) → t.Clear p →
      t.resolve fits p = match t.find p with
        | some x => .ok x
        | none => .error .notFound
  | [], _, _ => rfl
  | n :: p, hn, hc => by
      have ih := resolve_clear (fun m hm => hn m (by simp [hm])) hc.tail
      rw [resolve, ih]
      cases hp : t.find p with
      | none => simp [find_none_of_child (t := t) (n := n) (p := p) (by simp [IsDir, hp])]
      | some x =>
          cases x with
          | file i d => exact absurd hp (hc p (List.suffix_cons n p) i d)
          | dir i => simp [hn n (by simp)]

theorem locate_clear {fits : N → Bool} {t : FileTree N} {n : N} {p : Path N}
    (hn : ∀ m ∈ n :: p, fits m = true) (hc : t.Clear p) (h : t.find p = none) :
    t.locate fits n p = .error .notFound := by
  rw [locate, resolve_clear (fun m hm => hn m (by simp [hm])) hc, h]

end FileTree

end Aks3.Lib
