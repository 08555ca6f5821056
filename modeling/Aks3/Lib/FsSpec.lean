import Aks3.Lib.StdFs

/-!
# What each call does

A call either changes one entry of one directory or leaves the filesystem as it
was. For every call there is an inversion lemma that says which (`mkdir_cases`
and its siblings), and lemmas for the outcomes a caller can count on, stated for
a path whose names the filesystem accepts.

Most arguments do not look at inode numbers. `fileAt` is the content of the file
at a path, and with `IsDir` it says everything about a tree that a program can
observe.
-/

set_option autoImplicit false

namespace Aks3.Lib

namespace FileTree

variable {N : Type} [DecidableEq N]

/-- The content of the file at a path. -/
def fileAt (t : FileTree N) (p : Path N) : Option Bytes :=
  match t.find p with
  | some (.file _ d) => some d
  | _ => none

theorem fileAt_eq_some {t : FileTree N} {p : Path N} {d : Bytes} :
    t.fileAt p = some d ↔ ∃ i, t.find p = some (.file i d) := by
  unfold fileAt
  cases h : t.find p with
  | none => simp
  | some x => cases x <;> simp

theorem fileAt_of_isDir {t : FileTree N} {p : Path N} (h : t.IsDir p) : t.fileAt p = none := by
  obtain ⟨i, hi⟩ := h
  simp [fileAt, hi]

theorem find_eq_none {t : FileTree N} {p : Path N} :
    t.find p = none ↔ t.fileAt p = none ∧ ¬ t.IsDir p := by
  unfold fileAt IsDir
  cases h : t.find p with
  | none => simp
  | some x => cases x <;> simp

theorem find_ne_none_of_fileAt {t : FileTree N} {p : Path N} (h : t.fileAt p ≠ none) :
    t.find p ≠ none := fun hp => h (find_eq_none.mp hp).1

theorem isDir_of_fileAt {t : FileTree N} {n : N} {p : Path N} (h : t.fileAt (n :: p) ≠ none) :
    t.IsDir p := by
  refine isDir_of_find (n := n) fun hn => h ?_
  simp [fileAt, hn]

/-- Two trees that look alike where only contents count. -/
theorem fileAt_congr {t t' : FileTree N} {p : Path N} (h : t'.find p = t.find p) :
    t'.fileAt p = t.fileAt p := by
  simp [fileAt, h]

theorem isDir_congr {t t' : FileTree N} {p : Path N} (h : t'.find p = t.find p) :
    t'.IsDir p ↔ t.IsDir p := by
  simp [IsDir, h]

end FileTree

/-- A path whose names the filesystem accepts. -/
def Fit {N : Type} (fits : N → Bool) (p : Path N) : Prop := ∀ n ∈ p, fits n = true

namespace Fit

variable {N : Type} {fits : N → Bool} {n : N} {p q : Path N}

theorem tail (h : Fit fits (n :: p)) : Fit fits p := fun m hm => h m (List.mem_cons_of_mem n hm)

theorem suffix (h : Fit fits p) (hq : q <:+ p) : Fit fits q := fun m hm => h m (hq.subset hm)

end Fit

namespace FileTree

variable {N : Type} [DecidableEq N] {fits : N → Bool}

theorem fit_of_resolve {t : FileTree N} : ∀ {p : Path N} {x : Node}, t.resolve fits p = .ok x →
    Fit fits p
  | [], _, _ => fun _ hm => absurd hm List.not_mem_nil
  | n :: p, x, h => by
      rw [resolve] at h
      split at h <;> try cases h
      rename_i hp
      split at h
      · rename_i hn
        intro m hm
        rcases List.mem_cons.mp hm with rfl | hm
        · exact hn
        · exact fit_of_resolve hp m hm
      · cases h

theorem fit_of_locate {t : FileTree N} {n : N} {p : Path N} {r : Nat × Option Node}
    (h : t.locate fits n p = .ok r) : Fit fits (n :: p) := by
  rw [locate] at h
  split at h <;> try cases h
  rename_i hp
  split at h
  · rename_i hn
    intro m hm
    rcases List.mem_cons.mp hm with rfl | hm
    · exact hn
    · exact fit_of_resolve hp m hm
  · cases h

end FileTree

namespace Fs

variable {N : Type} [DecidableEq N] {fits : N → Bool} {fs : Fs N}

/-! ## The two ways an entry changes -/

@[simp] theorem find_link (i : Nat) (n : N) (p : Path N) (x : Node) (hp hx) (q : Path N) :
    (fs.link i n p x hp hx).tree.find q = if q = n :: p then some x else fs.tree.find q :=
  fs.tree.find_insert n p x hp hx q

@[simp] theorem disk_link (i : Nat) (n : N) (p : Path N) (x : Node) (hp hx) :
    (fs.link i n p x hp hx).disk = fs.note i n x.slot := rfl

@[simp] theorem synced_link (i : Nat) (n : N) (p : Path N) (x : Node) (hp hx) :
    (fs.link i n p x hp hx).synced = fs.synced := rfl

@[simp] theorem nextIno_link (i : Nat) (n : N) (p : Path N) (x : Node) (hp hx) :
    (fs.link i n p x hp hx).nextIno = fs.nextIno := rfl

@[simp] theorem find_unlinkAt (i : Nat) (n : N) (p : Path N) (h) (q : Path N) :
    (fs.unlinkAt i n p h).tree.find q = if q = n :: p then none else fs.tree.find q :=
  fs.tree.find_remove n p h q

@[simp] theorem disk_unlinkAt (i : Nat) (n : N) (p : Path N) (h) :
    (fs.unlinkAt i n p h).disk = fs.note i n none := rfl

@[simp] theorem synced_unlinkAt (i : Nat) (n : N) (p : Path N) (h) :
    (fs.unlinkAt i n p h).synced = fs.synced := rfl

@[simp] theorem nextIno_unlinkAt (i : Nat) (n : N) (p : Path N) (h) :
    (fs.unlinkAt i n p h).nextIno = fs.nextIno := rfl

@[simp] theorem tree_alloc : fs.alloc.tree = fs.tree := rfl

@[simp] theorem nextIno_alloc : fs.alloc.nextIno = fs.nextIno + 1 := rfl

/-! ## Making and removing directories -/

theorem mkdir_cases (fits : N → Bool) (fs : Fs N) (p : Path N) :
    (∃ n q i, ∃ hp hx, p = n :: q ∧ Fit fits p ∧ fs.tree.find q = some (.dir i) ∧
        fs.tree.find p = none ∧
        fs.mkdir fits p = (.ok (), fs.alloc.link i n q (.dir fs.nextIno) hp hx)) ∨
      ∃ e, fs.mkdir fits p = (.error e, fs) := by
  cases p with
  | nil => exact .inr ⟨_, rfl⟩
  | cons n q =>
      simp only [mkdir]
      split
      · exact .inr ⟨_, rfl⟩
      · exact .inr ⟨_, rfl⟩
      · rename_i i h
        obtain ⟨hq, hn⟩ := FileTree.find_of_locate h
        exact .inl ⟨n, q, i, ⟨i, hq⟩, .inl rfl, rfl, FileTree.fit_of_locate h, hq, hn, rfl⟩

theorem mkdir_ok {n : N} {p : Path N} (hf : Fit fits (n :: p)) (hp : fs.tree.IsDir p)
    (hn : fs.tree.find (n :: p) = none) :
    ∃ i hp hx, fs.tree.find p = some (.dir i) ∧
      fs.mkdir fits (n :: p) = (.ok (), fs.alloc.link i n p (.dir fs.nextIno) hp hx) := by
  obtain ⟨i, hi⟩ := hp
  have hl := FileTree.locate_of_dir hf hi
  rw [hn] at hl
  refine ⟨i, ⟨i, hi⟩, .inl rfl, hi, ?_⟩
  simp only [mkdir]
  split <;> rename_i h <;> rw [hl] at h <;> cases h
  rfl

theorem mkdir_exists {n : N} {p : Path N} (hf : Fit fits (n :: p))
    (hn : fs.tree.find (n :: p) ≠ none) :
    fs.mkdir fits (n :: p) = (.error .alreadyExists, fs) := by
  obtain ⟨i, hi⟩ := FileTree.isDir_of_find hn
  have hl := FileTree.locate_of_dir hf hi
  obtain ⟨x, hx⟩ := Option.ne_none_iff_exists'.mp hn
  rw [hx] at hl
  simp only [mkdir]
  split <;> rename_i h <;> rw [hl] at h <;> cases h

theorem mkdir_missing {n : N} {p : Path N} (hf : Fit fits (n :: p)) (hc : fs.tree.Clear p)
    (hp : ¬ fs.tree.IsDir p) : fs.mkdir fits (n :: p) = (.error .notFound, fs) := by
  have hnone : fs.tree.find p = none := by
    cases h : fs.tree.find p with
    | none => rfl
    | some x =>
        cases x with
        | file i d => exact absurd h (hc p List.suffix_rfl i d)
        | dir i => exact absurd ⟨i, h⟩ hp
  have hl := FileTree.locate_clear hf hc hnone
  simp only [mkdir]
  split <;> rename_i h <;> rw [hl] at h <;> cases h
  rfl

theorem rmdir_cases (fits : N → Bool) (fs : Fs N) (p : Path N) :
    (∃ n q i j, ∃ h, p = n :: q ∧ fs.tree.find q = some (.dir i) ∧ fs.tree.find p = some (.dir j) ∧
        fs.rmdir fits p = (.ok (), fs.unlinkAt i n q h)) ∨
      ∃ e, fs.rmdir fits p = (.error e, fs) := by
  cases p with
  | nil => exact .inr ⟨_, rfl⟩
  | cons n q =>
      simp only [rmdir]
      split
      · exact .inr ⟨_, rfl⟩
      · exact .inr ⟨_, rfl⟩
      · exact .inr ⟨_, rfl⟩
      · rename_i i j h
        obtain ⟨hq, hn⟩ := FileTree.find_of_locate h
        split
        · rename_i hc
          exact .inl ⟨n, q, i, j, hc, rfl, hq, hn, rfl⟩
        · exact .inr ⟨_, rfl⟩

theorem rmdir_eq {n : N} {p : Path N} (hf : Fit fits (n :: p)) (hd : fs.tree.IsDir (n :: p)) :
    ∃ i, fs.tree.find p = some (.dir i) ∧ fs.rmdir fits (n :: p) =
      if h : fs.tree.hasChild (n :: p) = false then (.ok (), fs.unlinkAt i n p h)
      else (.error .directoryNotEmpty, fs) := by
  obtain ⟨i, hi⟩ := FileTree.isDir_tail hd
  obtain ⟨j, hj⟩ := hd
  have hl := FileTree.locate_of_dir hf hi
  rw [hj] at hl
  refine ⟨i, hi, ?_⟩
  simp only [rmdir]
  split <;> rename_i h <;> rw [hl] at h <;> cases h
  rfl

/-! ## Removing and creating files -/

theorem unlink_cases (fits : N → Bool) (fs : Fs N) (p : Path N) :
    (∃ n q i a d, ∃ h, p = n :: q ∧ fs.tree.find q = some (.dir i) ∧
        fs.tree.find p = some (.file a d) ∧
        fs.unlink fits p = (.ok (), fs.unlinkAt i n q h)) ∨
      ∃ e, fs.unlink fits p = (.error e, fs) := by
  cases p with
  | nil => exact .inr ⟨_, rfl⟩
  | cons n q =>
      simp only [unlink]
      split
      · exact .inr ⟨_, rfl⟩
      · exact .inr ⟨_, rfl⟩
      · exact .inr ⟨_, rfl⟩
      · rename_i i a d h
        obtain ⟨hq, hn⟩ := FileTree.find_of_locate h
        exact .inl ⟨n, q, i, a, d, FileTree.hasChild_of_file hn, rfl, hq, hn, rfl⟩

theorem unlink_ok {n : N} {p : Path N} {a : Nat} {d : Bytes} (hf : Fit fits (n :: p))
    (hn : fs.tree.find (n :: p) = some (.file a d)) :
    ∃ i h, fs.tree.find p = some (.dir i) ∧
      fs.unlink fits (n :: p) = (.ok (), fs.unlinkAt i n p h) := by
  obtain ⟨i, hi⟩ := FileTree.isDir_of_find (t := fs.tree) (n := n) (p := p) (by simp [hn])
  have hl := FileTree.locate_of_dir hf hi
  rw [hn] at hl
  refine ⟨i, FileTree.hasChild_of_file hn, hi, ?_⟩
  simp only [unlink]
  split <;> rename_i h <;> rw [hl] at h <;> cases h
  rfl

/-- With nothing in the way, what is not there cannot be found. -/
theorem unlink_missing {n : N} {p : Path N} (hf : Fit fits (n :: p)) (hc : fs.tree.Clear p)
    (hn : fs.tree.find (n :: p) = none) :
    fs.unlink fits (n :: p) = (.error .notFound, fs) := by
  cases hp : fs.tree.find p with
  | none =>
      have hl := FileTree.locate_clear hf hc hp
      simp only [unlink]
      split <;> rename_i h <;> rw [hl] at h <;> cases h
      rfl
  | some x =>
      cases x with
      | file i d => exact absurd hp (hc p List.suffix_rfl i d)
      | dir i =>
          have hl := FileTree.locate_of_dir hf hp
          rw [hn] at hl
          simp only [unlink]
          split <;> rename_i h <;> rw [hl] at h <;> cases h

theorem createNew_cases (fits : N → Bool) (fs : Fs N) (p : Path N) :
    (∃ n q i, ∃ hp hx, p = n :: q ∧ Fit fits p ∧ fs.tree.find q = some (.dir i) ∧
        fs.tree.find p = none ∧
        fs.createNew fits p = (.ok (), fs.alloc.link i n q (.file fs.nextIno []) hp hx)) ∨
      ∃ e, fs.createNew fits p = (.error e, fs) := by
  cases p with
  | nil => exact .inr ⟨_, rfl⟩
  | cons n q =>
      simp only [createNew]
      split
      · exact .inr ⟨_, rfl⟩
      · exact .inr ⟨_, rfl⟩
      · rename_i i h
        obtain ⟨hq, hn⟩ := FileTree.find_of_locate h
        exact .inl ⟨n, q, i, ⟨i, hq⟩, .inr (FileTree.hasChild_of_none hn), rfl,
          FileTree.fit_of_locate h, hq, hn, rfl⟩

theorem createNew_ok {n : N} {p : Path N} (hf : Fit fits (n :: p)) (hp : fs.tree.IsDir p)
    (hn : fs.tree.find (n :: p) = none) :
    ∃ i hp hx, fs.tree.find p = some (.dir i) ∧
      fs.createNew fits (n :: p) = (.ok (), fs.alloc.link i n p (.file fs.nextIno []) hp hx) := by
  obtain ⟨i, hi⟩ := hp
  have hl := FileTree.locate_of_dir hf hi
  rw [hn] at hl
  refine ⟨i, ⟨i, hi⟩, .inr (FileTree.hasChild_of_none hn), hi, ?_⟩
  simp only [createNew]
  split <;> rename_i h <;> rw [hl] at h <;> cases h
  rfl

/-! ## Writing -/

/-- The filesystem with the bytes of one file replaced. -/
structure Rewritten (fs fs' : Fs N) (p : Path N) (j : Nat) (d : Bytes) : Prop where
  find : ∀ q, fs'.tree.find q = if q = p then some (.file j d) else fs.tree.find q
  disk : fs'.disk = fs.disk
  synced : fs'.synced = fun m => if m = j then none else fs.synced m
  nextIno : fs'.nextIno = fs.nextIno

theorem append_cases (fits : N → Bool) (fs : Fs N) (bs : Bytes) (p : Path N) :
    (∃ j d fs', fs.tree.find p = some (.file j d) ∧ Rewritten fs fs' p j (d ++ bs) ∧
        fs.append fits bs p = (.ok (), fs')) ∨
      ∃ e, fs.append fits bs p = (.error e, fs) := by
  cases p with
  | nil => exact .inr ⟨_, rfl⟩
  | cons n q =>
      simp only [append]
      split
      · exact .inr ⟨_, rfl⟩
      · exact .inr ⟨_, rfl⟩
      · exact .inr ⟨_, rfl⟩
      · rename_i i j d h
        obtain ⟨hq, hn⟩ := FileTree.find_of_locate h
        refine .inl ⟨j, d, _, hn, ?_, rfl⟩
        exact ⟨FileTree.find_insert _ _ _ _ ⟨i, hq⟩ (.inr (FileTree.hasChild_of_file hn)),
          rfl, rfl, rfl⟩

theorem append_ok {bs : Bytes} {p : Path N} {j : Nat} {d : Bytes} (hf : Fit fits p)
    (hp : fs.tree.find p = some (.file j d)) :
    ∃ fs', Rewritten fs fs' p j (d ++ bs) ∧ fs.append fits bs p = (.ok (), fs') := by
  cases p with
  | nil => simp at hp
  | cons n q =>
      obtain ⟨i, hi⟩ := FileTree.isDir_of_find (t := fs.tree) (n := n) (p := q) (by simp [hp])
      have hl := FileTree.locate_of_dir hf hi
      rw [hp] at hl
      simp only [append]
      split <;> rename_i h <;> rw [hl] at h <;> cases h
      refine ⟨_, ?_, rfl⟩
      exact ⟨FileTree.find_insert _ _ _ _ ⟨i, hi⟩ (.inr (FileTree.hasChild_of_file hp)),
        rfl, rfl, rfl⟩

theorem syncFile_cases (fits : N → Bool) (fs : Fs N) (p : Path N) :
    (∃ i d, fs.tree.find p = some (.file i d) ∧ fs.syncFile fits p =
        (.ok (), { fs with synced := fun j => if j = i then some d else fs.synced j })) ∨
      ∃ e, fs.syncFile fits p = (.error e, fs) := by
  simp only [syncFile]
  split
  · exact .inr ⟨_, rfl⟩
  · exact .inr ⟨_, rfl⟩
  · rename_i i d h
    exact .inl ⟨i, d, FileTree.find_of_resolve h, rfl⟩

theorem syncFile_ok {p : Path N} {i : Nat} {d : Bytes} (hf : Fit fits p)
    (hp : fs.tree.find p = some (.file i d)) : fs.syncFile fits p =
      (.ok (), { fs with synced := fun j => if j = i then some d else fs.synced j }) := by
  simp only [syncFile, FileTree.resolve_of_find hf hp]

/-! ## Renaming a file -/

/-- The filesystem after a file has moved from `n :: p` to `m :: q`, in directories
`i` and `j`. -/
def Moved (fs fs' : Fs N) (n : N) (p : Path N) (i : Nat) (m : N) (q : Path N) (j a : Nat)
    (d : Bytes) : Prop :=
  ∃ h hp hx, fs' = (fs.unlinkAt i n p h).link j m q (.file a d) hp hx

namespace Moved

variable {fs' : Fs N} {n : N} {p : Path N} {i : Nat} {m : N} {q : Path N} {j a : Nat} {d : Bytes}

theorem find (h : Moved fs fs' n p i m q j a d) (r : Path N) : fs'.tree.find r =
    if r = m :: q then some (.file a d) else if r = n :: p then none else fs.tree.find r := by
  obtain ⟨hc, hp, hx, rfl⟩ := h
  rw [find_link, find_unlinkAt]

theorem synced (h : Moved fs fs' n p i m q j a d) : fs'.synced = fs.synced := by
  obtain ⟨hc, hp, hx, rfl⟩ := h
  rfl

end Moved

theorem rename_cases (fits : N → Bool) (fs : Fs N) (src dst : Path N) :
    (∃ n p i m q j a d fs', src = n :: p ∧ dst = m :: q ∧ Fit fits dst ∧ ¬ fs.tree.IsDir dst ∧
        fs.tree.find p = some (.dir i) ∧ fs.tree.find q = some (.dir j) ∧
        fs.tree.find src = some (.file a d) ∧
        Moved fs fs' n p i m q j a d ∧ fs.rename fits src dst = (.ok (), fs')) ∨
      ∃ e, fs.rename fits src dst = (.error e, fs) := by
  cases src with
  | nil => exact .inr ⟨_, rfl⟩
  | cons n p =>
      cases dst with
      | nil => exact .inr ⟨_, rfl⟩
      | cons m q =>
          simp only [rename]
          split
          · exact .inr ⟨_, rfl⟩
          · exact .inr ⟨_, rfl⟩
          · exact .inr ⟨_, rfl⟩
          · rename_i i a d h
            obtain ⟨hp, hn⟩ := FileTree.find_of_locate h
            -- whether or not something is replaced, the entry is written the same way
            have done : ∀ {j : Nat} {o : Option Node} (hj : (fs.unlinkAt i n p
                  (FileTree.hasChild_of_file hn)).tree.locate fits m q = .ok (j, o))
                (ho : ∀ k, o ≠ some (.dir k)) (hp' hx'),
                ∃ n' p' i' m' q' j' a' d' fs', n :: p = n' :: p' ∧ m :: q = m' :: q' ∧
                  Fit fits (m :: q) ∧ ¬ fs.tree.IsDir (m :: q) ∧ fs.tree.find p' = some (.dir i') ∧
                  fs.tree.find q' = some (.dir j') ∧ fs.tree.find (n :: p) = some (.file a' d') ∧
                  Moved fs fs' n' p' i' m' q' j' a' d' ∧
                  ((.ok (), (fs.unlinkAt i n p (FileTree.hasChild_of_file hn)).link j m q
                    (.file a d) hp' hx') : Except ErrorKind Unit × Fs N) = (.ok (), fs') := by
              intro j o hj ho hp' hx'
              obtain ⟨hq, hm⟩ := FileTree.find_of_locate hj
              rw [find_unlinkAt] at hq hm
              have hfree : ¬ fs.tree.IsDir (m :: q) := by
                rintro ⟨k, hk⟩
                split at hm
                · rename_i heq
                  rw [heq, hn] at hk
                  cases hk
                · exact ho k (hm ▸ hk)
              split at hq
              · cases hq
              · refine ⟨n, p, i, m, q, j, a, d, _, rfl, rfl,
                  FileTree.fit_of_locate hj, hfree, hp, hq,
                  hn, ⟨_, hp', hx', rfl⟩, rfl⟩
            split
            · exact .inr ⟨_, rfl⟩
            · exact .inr ⟨_, rfl⟩
            · rename_i j hj
              exact .inl (done hj (by simp) _ _)
            · rename_i j b c hj
              exact .inl (done hj (by simp) _ _)

theorem rename_ok {n m : N} {p q : Path N} {a : Nat} {d : Bytes} (hf : Fit fits (n :: p))
    (hf' : Fit fits (m :: q)) (hs : fs.tree.find (n :: p) = some (.file a d))
    (hq : fs.tree.IsDir q) (hm : ¬ fs.tree.IsDir (m :: q)) :
    ∃ i j fs', fs.tree.find p = some (.dir i) ∧ fs.tree.find q = some (.dir j) ∧
      Moved fs fs' n p i m q j a d ∧ fs.rename fits (n :: p) (m :: q) = (.ok (), fs') := by
  rcases rename_cases fits fs (n :: p) (m :: q) with
    ⟨n', p', i, m', q', j, a', d', fs', hsrc, hdst, -, -, hp, hqj, hsf, moved, he⟩ | ⟨e, he⟩
  · obtain ⟨rfl, rfl⟩ := List.cons_eq_cons.mp hsrc
    obtain ⟨rfl, rfl⟩ := List.cons_eq_cons.mp hdst
    rw [hs] at hsf
    cases hsf
    exact ⟨i, j, fs', hp, hqj, moved, he⟩
  · -- every failing branch contradicts one of the assumptions
    exfalso
    obtain ⟨i, hi⟩ := FileTree.isDir_of_find (t := fs.tree) (n := n) (p := p) (by simp [hs])
    have hl := FileTree.locate_of_dir hf hi
    rw [hs] at hl
    obtain ⟨j, hj⟩ := hq
    have hne : q ≠ n :: p := by
      rintro rfl
      rw [hs] at hj
      cases hj
    simp only [rename] at he
    split at he <;> rename_i h <;> rw [hl] at h <;> cases h
    have hj' : (fs.unlinkAt i n p (FileTree.hasChild_of_file hs)).tree.find q = some (.dir j) := by
      rw [find_unlinkAt, if_neg hne, hj]
    have hl' := FileTree.locate_of_dir hf' hj'
    split at he
    · rename_i h'
      rw [hl'] at h'
      cases h'
    · rename_i h'
      have hb := (FileTree.find_of_locate h').2
      rw [find_unlinkAt] at hb
      split at hb
      · cases hb
      · exact hm ⟨_, hb⟩
    · cases he
    · cases he

/-! ## Effects on files and directories -/

theorem fileAt_link (i : Nat) (n : N) (p : Path N) (x : Node) (hp hx) (q : Path N) :
    (fs.link i n p x hp hx).tree.fileAt q =
      if q = n :: p then (match x with | .file _ d => some d | .dir _ => none)
      else fs.tree.fileAt q := by
  by_cases hq : q = n :: p
  · rw [if_pos hq, FileTree.fileAt, find_link, if_pos hq]
    cases x <;> rfl
  · rw [if_neg hq]
    exact FileTree.fileAt_congr (by rw [find_link, if_neg hq])

theorem isDir_link (i : Nat) (n : N) (p : Path N) (x : Node) (hp hx) (q : Path N) :
    (fs.link i n p x hp hx).tree.IsDir q ↔
      if q = n :: p then x.kind = .dir else fs.tree.IsDir q := by
  by_cases hq : q = n :: p
  · rw [if_pos hq, FileTree.IsDir, find_link, if_pos hq, Node.kind_eq_dir]
    simp
  · rw [if_neg hq]
    exact FileTree.isDir_congr (by rw [find_link, if_neg hq])

theorem fileAt_unlinkAt (i : Nat) (n : N) (p : Path N) (h) (q : Path N) :
    (fs.unlinkAt i n p h).tree.fileAt q = if q = n :: p then none else fs.tree.fileAt q := by
  by_cases hq : q = n :: p
  · rw [if_pos hq, FileTree.fileAt, find_unlinkAt, if_pos hq]
  · rw [if_neg hq]
    exact FileTree.fileAt_congr (by rw [find_unlinkAt, if_neg hq])

theorem isDir_unlinkAt (i : Nat) (n : N) (p : Path N) (h) (q : Path N) :
    (fs.unlinkAt i n p h).tree.IsDir q ↔ q ≠ n :: p ∧ fs.tree.IsDir q := by
  by_cases hq : q = n :: p
  · simp [hq, FileTree.IsDir]
  · rw [FileTree.isDir_congr (t := fs.tree) (by rw [find_unlinkAt, if_neg hq])]
    simp [hq]

theorem fileAt_mkdir (fits : N → Bool) (fs : Fs N) (p q : Path N) :
    (fs.mkdir fits p).2.tree.fileAt q = fs.tree.fileAt q := by
  rcases mkdir_cases fits fs p with ⟨n, r, i, hp, hx, rfl, -, -, hnone, he⟩ | ⟨e, he⟩
  · rw [he, fileAt_link]
    split
    · rename_i hq
      rw [hq]
      exact (FileTree.find_eq_none.mp hnone).1.symm
    · rfl
  · rw [he]

theorem isDir_mkdir (fits : N → Bool) (fs : Fs N) (p q : Path N) :
    (fs.mkdir fits p).2.tree.IsDir q ↔
    fs.tree.IsDir q ∨ ((fs.mkdir fits p).1 = .ok () ∧ q = p) := by
  rcases mkdir_cases fits fs p with ⟨n, r, i, hp, hx, rfl, -, -, hnone, he⟩ | ⟨e, he⟩
  · rw [he, isDir_link]
    by_cases hq : q = n :: r <;> simp [hq]
  · simp [he]

theorem fileAt_rmdir (fits : N → Bool) (fs : Fs N) (p q : Path N) :
    (fs.rmdir fits p).2.tree.fileAt q = fs.tree.fileAt q := by
  rcases rmdir_cases fits fs p with ⟨n, r, i, j, h, rfl, -, hd, he⟩ | ⟨e, he⟩
  · rw [he, fileAt_unlinkAt]
    split
    · rename_i hq
      rw [hq, FileTree.fileAt_of_isDir ⟨j, hd⟩]
    · rfl
  · rw [he]

theorem isDir_rmdir (fits : N → Bool) (fs : Fs N) (p q : Path N) :
    (fs.rmdir fits p).2.tree.IsDir q ↔
    fs.tree.IsDir q ∧ ¬ ((fs.rmdir fits p).1 = .ok () ∧ q = p) := by
  rcases rmdir_cases fits fs p with ⟨n, r, i, j, h, rfl, -, hd, he⟩ | ⟨e, he⟩
  · rw [he, isDir_unlinkAt]
    by_cases hq : q = n :: r <;> simp [hq]
  · simp [he]

theorem fileAt_unlink (fits : N → Bool) (fs : Fs N) (p q : Path N) :
    (fs.unlink fits p).2.tree.fileAt q =
    if (fs.unlink fits p).1 = .ok () ∧ q = p then none else fs.tree.fileAt q := by
  rcases unlink_cases fits fs p with ⟨n, r, i, a, d, h, rfl, -, hd, he⟩ | ⟨e, he⟩
  · simp only [he, fileAt_unlinkAt, true_and]
  · simp [he]

theorem isDir_unlink (fits : N → Bool) (fs : Fs N) (p q : Path N) :
    (fs.unlink fits p).2.tree.IsDir q ↔ fs.tree.IsDir q := by
  rcases unlink_cases fits fs p with ⟨n, r, i, a, d, h, rfl, -, hd, he⟩ | ⟨e, he⟩
  · rw [he, isDir_unlinkAt]
    constructor
    · exact fun h => h.2
    · rintro ⟨j, hj⟩
      refine ⟨?_, j, hj⟩
      rintro rfl
      rw [hd] at hj
      cases hj
  · rw [he]

theorem fileAt_createNew (fits : N → Bool) (fs : Fs N) (p q : Path N) :
    (fs.createNew fits p).2.tree.fileAt q =
    if (fs.createNew fits p).1 = .ok () ∧ q = p then some [] else fs.tree.fileAt q := by
  rcases createNew_cases fits fs p with ⟨n, r, i, hp, hx, rfl, -, -, hnone, he⟩ | ⟨e, he⟩
  · simp only [he, fileAt_link, true_and]
    rfl
  · simp [he]

theorem isDir_createNew (fits : N → Bool) (fs : Fs N) (p q : Path N) :
    (fs.createNew fits p).2.tree.IsDir q ↔ fs.tree.IsDir q := by
  rcases createNew_cases fits fs p with ⟨n, r, i, hp, hx, rfl, -, -, hnone, he⟩ | ⟨e, he⟩
  · rw [he, isDir_link]
    by_cases hq : q = n :: r
    · simp [hq, FileTree.IsDir, hnone]
    · simp [hq]
  · rw [he]

theorem Rewritten.fileAt {fs fs' : Fs N} {p : Path N} {j : Nat} {d : Bytes}
    (h : Rewritten fs fs' p j d) (q : Path N) :
    fs'.tree.fileAt q = if q = p then some d else fs.tree.fileAt q := by
  by_cases hq : q = p
  · rw [if_pos hq, FileTree.fileAt, h.find, if_pos hq]
  · rw [if_neg hq]
    exact FileTree.fileAt_congr (by rw [h.find, if_neg hq])

theorem Rewritten.isDir {fs fs' : Fs N} {p : Path N} {j : Nat} {d e : Bytes}
    (h : Rewritten fs fs' p j d) (hp : fs.tree.find p = some (.file j e)) (q : Path N) :
    fs'.tree.IsDir q ↔ fs.tree.IsDir q := by
  by_cases hq : q = p
  · subst hq
    simp [FileTree.IsDir, h.find, hp]
  · exact FileTree.isDir_congr (by rw [h.find, if_neg hq])

theorem fileAt_append (fits : N → Bool) (fs : Fs N) (bs : Bytes) (p q : Path N) :
    (fs.append fits bs p).2.tree.fileAt q =
      if (fs.append fits bs p).1 = .ok () ∧ q = p then (fs.tree.fileAt p).map (· ++ bs)
      else fs.tree.fileAt q := by
  rcases append_cases fits fs bs p with ⟨j, d, fs', hp, hw, he⟩ | ⟨e, he⟩
  · simp only [he, hw.fileAt, true_and, FileTree.fileAt_eq_some.mpr ⟨j, hp⟩, Option.map_some]
  · simp [he]

theorem isDir_append (fits : N → Bool) (fs : Fs N) (bs : Bytes) (p q : Path N) :
    (fs.append fits bs p).2.tree.IsDir q ↔ fs.tree.IsDir q := by
  rcases append_cases fits fs bs p with ⟨j, d, fs', hp, hw, he⟩ | ⟨e, he⟩
  · rw [he]
    exact hw.isDir hp q
  · rw [he]

theorem tree_syncFile (fits : N → Bool) (fs : Fs N) (p : Path N) :
    (fs.syncFile fits p).2.tree = fs.tree := by
  rcases syncFile_cases fits fs p with ⟨i, d, -, he⟩ | ⟨e, he⟩ <;> rw [he]

theorem fileAt_rename (fits : N → Bool) (fs : Fs N) (src dst q : Path N) :
    (fs.rename fits src dst).2.tree.fileAt q =
      if (fs.rename fits src dst).1 = .ok () then
        if q = dst then fs.tree.fileAt src else if q = src then none else fs.tree.fileAt q
      else fs.tree.fileAt q := by
  rcases rename_cases fits fs src dst with
    ⟨n, p, i, m, r, j, a, d, fs', rfl, rfl, -, hfree, -, -, hs, hm, he⟩ | ⟨e, he⟩
  · simp only [he, if_true, FileTree.fileAt, hm.find, hs]
    by_cases hq : q = m :: r
    · rw [if_pos hq, if_pos hq]
    · rw [if_neg hq, if_neg hq]
      by_cases hq' : q = n :: p
      · rw [if_pos hq', if_pos hq']
      · rw [if_neg hq', if_neg hq']
  · simp [he]

theorem isDir_rename (fits : N → Bool) (fs : Fs N) (src dst q : Path N) :
    (fs.rename fits src dst).2.tree.IsDir q ↔ fs.tree.IsDir q := by
  rcases rename_cases fits fs src dst with
    ⟨n, p, i, m, r, j, a, d, fs', rfl, rfl, -, hfree, -, -, hs, hm, he⟩ | ⟨e, he⟩
  · rw [he]
    by_cases hq : q = m :: r
    · subst hq
      refine iff_of_false ?_ hfree
      rintro ⟨k, hk⟩
      rw [hm.find, if_pos rfl] at hk
      cases hk
    · by_cases hq' : q = n :: p
      · subst hq'
        simp [FileTree.IsDir, hm.find, hq, hs]
      · exact FileTree.isDir_congr (by rw [hm.find, if_neg hq, if_neg hq'])
  · rw [he]

/-! ## Reading -/

theorem stat_of_find {p : Path N} {x : Node} (hf : Fit fits p) (hp : fs.tree.find p = some x) :
    fs.stat fits p = .ok x.kind := by
  simp only [stat, FileTree.resolve_of_find hf hp]

theorem stat_missing {p : Path N} (hf : Fit fits p) (hc : fs.tree.Clear p)
    (hp : fs.tree.find p = none) : fs.stat fits p = .error .notFound := by
  simp only [stat, FileTree.resolve_clear hf hc, hp]

theorem find_of_stat {p : Path N} {k : Kind} (h : fs.stat fits p = .ok k) :
    ∃ x, fs.tree.find p = some x ∧ x.kind = k := by
  simp only [stat] at h
  split at h
  · cases h
  · rename_i x hx
    cases h
    exact ⟨x, FileTree.find_of_resolve hx, rfl⟩

theorem stat_error (fits : N → Bool) {p : Path N} (hp : fs.tree.find p = none) :
    ∃ e, fs.stat fits p = .error e := by
  cases hs : fs.stat fits p with
  | error e => exact ⟨e, rfl⟩
  | ok k =>
      obtain ⟨x, hx, -⟩ := find_of_stat hs
      rw [hp] at hx
      cases hx

theorem readFile_ok {p : Path N} {d : Bytes} (hf : Fit fits p) (hp : fs.tree.fileAt p = some d) :
    fs.readFile fits p = .ok d := by
  obtain ⟨i, hi⟩ := FileTree.fileAt_eq_some.mp hp
  simp only [readFile, FileTree.resolve_of_find hf hi]

theorem readFile_missing {n : N} {p : Path N} (hf : Fit fits (n :: p)) (hc : fs.tree.Clear p)
    (hn : fs.tree.find (n :: p) = none) : fs.readFile fits (n :: p) = .error .notFound := by
  have hr : fs.tree.resolve fits (n :: p) = .error .notFound := by
    rw [FileTree.resolve, FileTree.resolve_clear hf.tail hc]
    cases hp : fs.tree.find p with
    | none => rfl
    | some x =>
        cases x with
        | file i d => exact absurd hp (hc p List.suffix_rfl i d)
        | dir i => simp only [hf n List.mem_cons_self, if_true, hn]
  simp only [readFile, hr]

theorem readDir_ok {p : Path N} (hf : Fit fits p) (hp : fs.tree.IsDir p) :
    fs.readDir fits p = .ok (fs.tree.children p) := by
  obtain ⟨i, hi⟩ := hp
  simp only [readDir, FileTree.resolve_of_find hf hi]

theorem readDir_missing {p : Path N} (hf : Fit fits p) (hc : fs.tree.Clear p)
    (hp : fs.tree.find p = none) : fs.readDir fits p = .error .notFound := by
  simp only [readDir, FileTree.resolve_clear hf hc, hp]

theorem openDir_ok {p : Path N} {x : Node} (hf : Fit fits p) (hp : fs.tree.find p = some x) :
    fs.openDir fits p = .ok x.ino := by
  simp only [openDir, FileTree.resolve_of_find hf hp]

end Fs

end Aks3.Lib
