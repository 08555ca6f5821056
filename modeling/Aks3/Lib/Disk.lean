import Aks3.Lib.FsSpec

/-!
# What is on disk

Inodes have one home each and every directory's newest recorded entries are the
ones the tree shows (`Fs.Wf`), whatever calls are made. A directory is *settled*
when nothing older is recorded of its entries, so that a power loss cannot undo
anything in it; a file is *synced* when its bytes are. A change to an entry
unsettles the directory it is in and no other, and an `fsync` settles it again.
`Kept` states what a run of calls can have unsettled.
-/

set_option autoImplicit false

namespace Aks3.Lib

namespace Fs

variable {N : Type} [DecidableEq N] {fits : N → Bool} {fs fs' fs'' : Fs N}

/-- What the entry of a path points at. -/
def slotAt (fs : Fs N) (p : Path N) : Slot := (fs.tree.find p).bind Node.slot

structure Wf (fs : Fs N) : Prop where
  inj : ∀ p q x y, fs.tree.find p = some x → fs.tree.find q = some y → x.ino = y.ino → p = q
  bound : ∀ p x, fs.tree.find p = some x → x.ino < fs.nextIno
  current : ∀ p i n, fs.tree.find p = some (.dir i) →
    (fs.disk i n).head? = some (fs.slotAt (n :: p))

/-- Nothing of the directory can be undone. -/
def Settled (fs : Fs N) (p : Path N) : Prop :=
  ∀ i, fs.tree.find p = some (.dir i) → ∀ n, (fs.disk i n).length = 1

/-- The bytes of the file are on disk. -/
def Synced (fs : Fs N) (p : Path N) : Prop :=
  ∀ i d, fs.tree.find p = some (.file i d) → fs.synced i = some d

/-! ## The changes a call can make -/

/-- What one call can do to the filesystem. -/
inductive Change : Fs N → Fs N → Prop where
  | same (fs : Fs N) : Change fs fs
  /-- A new node, empty, in the directory `i`. -/
  | made {fs : Fs N} {i : Nat} {n : N} {p : Path N} {x : Node} {hp hx}
      (dir : fs.tree.find p = some (.dir i)) (free : fs.tree.find (n :: p) = none)
      (new : x = .dir fs.nextIno ∨ x = .file fs.nextIno []) :
      Change fs (fs.alloc.link i n p x hp hx)
  | gone {fs : Fs N} {i : Nat} {n : N} {p : Path N} {h}
      (dir : fs.tree.find p = some (.dir i)) (there : fs.tree.find (n :: p) ≠ none) :
      Change fs (fs.unlinkAt i n p h)
  | rewritten {fs fs' : Fs N} {p : Path N} {j : Nat} {d d' : Bytes}
      (file : fs.tree.find p = some (.file j d)) (after : Rewritten fs fs' p j d') : Change fs fs'
  | fileSynced {fs : Fs N} {p : Path N} {i : Nat} {d : Bytes}
      (file : fs.tree.find p = some (.file i d)) :
      Change fs { fs with synced := fun j => if j = i then some d else fs.synced j }
  | dirSynced {fs : Fs N} (i : Nat) : Change fs (fs.syncDir i)
  | moved {fs fs' : Fs N} {n : N} {p : Path N} {i : Nat} {m : N}
      {q : Path N} {j a : Nat} {d : Bytes}
      (src : fs.tree.find p = some (.dir i)) (dst : fs.tree.find q = some (.dir j))
      (file : fs.tree.find (n :: p) = some (.file a d)) (free : ¬ fs.tree.IsDir (m :: q))
      (after : Moved fs fs' n p i m q j a d) : Change fs fs'

theorem change_mkdir (fits : N → Bool) (fs : Fs N) (p : Path N) :
    Change fs (fs.mkdir fits p).2 := by
  rcases mkdir_cases fits fs p with ⟨n, q, i, hp, hx, rfl, -, hd, hnone, he⟩ | ⟨e, he⟩
  · rw [he]
    exact .made hd hnone (.inl rfl)
  · rw [he]
    exact .same fs

theorem change_rmdir (fits : N → Bool) (fs : Fs N) (p : Path N) :
    Change fs (fs.rmdir fits p).2 := by
  rcases rmdir_cases fits fs p with ⟨n, q, i, j, h, rfl, hd, hj, he⟩ | ⟨e, he⟩
  · rw [he]
    exact .gone hd (by rw [hj]; exact Option.some_ne_none _)
  · rw [he]
    exact .same fs

theorem change_unlink (fits : N → Bool) (fs : Fs N) (p : Path N) :
    Change fs (fs.unlink fits p).2 := by
  rcases unlink_cases fits fs p with ⟨n, q, i, a, d, h, rfl, hd, hf, he⟩ | ⟨e, he⟩
  · rw [he]
    exact .gone hd (by rw [hf]; exact Option.some_ne_none _)
  · rw [he]
    exact .same fs

theorem change_createNew (fits : N → Bool) (fs : Fs N) (p : Path N) :
    Change fs (fs.createNew fits p).2 := by
  rcases createNew_cases fits fs p with ⟨n, q, i, hp, hx, rfl, -, hd, hnone, he⟩ | ⟨e, he⟩
  · rw [he]
    exact .made hd hnone (.inr rfl)
  · rw [he]
    exact .same fs

theorem change_append (fits : N → Bool) (fs : Fs N) (bs : Bytes) (p : Path N) :
    Change fs (fs.append fits bs p).2 := by
  rcases append_cases fits fs bs p with ⟨j, d, fs', hf, hw, he⟩ | ⟨e, he⟩
  · rw [he]
    exact .rewritten hf hw
  · rw [he]
    exact .same fs

theorem change_syncFile (fits : N → Bool) (fs : Fs N) (p : Path N) :
    Change fs (fs.syncFile fits p).2 := by
  rcases syncFile_cases fits fs p with ⟨i, d, hf, he⟩ | ⟨e, he⟩
  · rw [he]
    exact .fileSynced hf
  · rw [he]
    exact .same fs

theorem change_rename (fits : N → Bool) (fs : Fs N) (src dst : Path N) :
    Change fs (fs.rename fits src dst).2 := by
  rcases rename_cases fits fs src dst with
    ⟨n, p, i, m, q, j, a, d, fs', rfl, rfl, -, hfree, hp, hq, hs, hm, he⟩ | ⟨e, he⟩
  · rw [he]
    exact .moved hp hq hs hfree hm
  · rw [he]
    exact .same fs

/-! ## Inodes and entries stay in order -/

theorem slotAt_congr {p : Path N} (h : fs'.tree.find p = fs.tree.find p) :
    fs'.slotAt p = fs.slotAt p := by
  rw [slotAt, h, slotAt]

theorem slotAt_of_find {p : Path N} {x : Node} (h : fs.tree.find p = some x) :
    fs.slotAt p = x.slot := by
  rw [slotAt, h]
  rfl

theorem slotAt_of_none {p : Path N} (h : fs.tree.find p = none) : fs.slotAt p = none := by
  rw [slotAt, h]
  rfl

/-- The entries of the directories once one of them was changed: `i` is the inode of
`p` and of nothing else. -/
theorem head_note (w : fs.Wf) {i : Nat} {n : N} {p : Path N} (hp : fs.tree.find p = some (.dir i))
    (v : Slot) {q : Path N} {j : Nat} (hq : fs.tree.find q = some (.dir j)) (m : N) :
    (fs.note i n v j m).head? = some (if m :: q = n :: p then v else fs.slotAt (m :: q)) := by
  by_cases h : j = i ∧ m = n
  · obtain ⟨rfl, rfl⟩ := h
    have hpq : q = p := w.inj q p _ _ hq hp rfl
    simp [note, hpq]
  · have hne : ¬ m :: q = n :: p := by
      intro he
      obtain ⟨rfl, rfl⟩ := List.cons_eq_cons.mp he
      rw [hp] at hq
      cases hq
      exact h ⟨rfl, rfl⟩
    rw [note, if_neg h, if_neg hne]
    exact w.current q j m hq

theorem wf_alloc (w : fs.Wf) : fs.alloc.Wf where
  inj := w.inj
  bound := fun p x hx => (w.bound p x hx).trans (Nat.lt_succ_self _)
  current := fun p i n hp => by
    have hne : i ≠ fs.nextIno := (w.bound p _ hp).ne
    simp only [alloc, if_neg hne]
    exact w.current p i n hp

/-- An entry for a node whose inode is not in the tree yet, or is nowhere else. -/
theorem wf_link (w : fs.Wf) {i : Nat} {n : N} {p : Path N} {x : Node} {hp hx}
    (dir : fs.tree.find p = some (.dir i)) (bound : x.ino < fs.nextIno)
    (alone : ∀ q y, fs.tree.find q = some y → y.ino = x.ino → q = n :: p)
    (leaf : ∀ j, x = .dir j → ∀ m, fs.disk j m = [none] ∧ fs.tree.find (m :: n :: p) = none) :
    (fs.link i n p x hp hx).Wf where
  inj := by
    intro q r y z hy hz he
    rw [find_link] at hy hz
    split at hy <;> split at hz
    · simp_all
    · cases hy
      rename_i hq _
      rw [hq, alone r z hz he.symm]
    · cases hz
      rename_i _ hr
      rw [hr, alone q y hy he]
    · exact w.inj q r y z hy hz he
  bound := by
    intro q y hy
    rw [find_link] at hy
    split at hy
    · cases hy
      exact bound
    · exact w.bound q y hy
  current := by
    intro q j m hq
    rw [find_link] at hq
    split at hq
    · -- the new node itself, if it is a directory: nothing is in it
      rename_i hqe
      obtain ⟨hdisk, hfree⟩ := leaf j (Option.some.inj hq) m
      have hji : ¬ (j = i ∧ m = n) := by
        rintro ⟨rfl, -⟩
        have := alone p _ dir (by rw [Option.some.inj hq])
        exact absurd this (by simp)
      rw [hqe, disk_link, note, if_neg hji, hdisk, slotAt_of_none]
      · rfl
      · rw [find_link, if_neg (by simp), hfree]
    · rw [disk_link, head_note w dir x.slot hq m]
      congr 1
      split
      · rename_i he
        rw [he, slotAt_of_find (x := x)]
        rw [find_link, if_pos rfl]
      · rename_i he
        exact (slotAt_congr (by rw [find_link, if_neg he])).symm

theorem wf_unlinkAt (w : fs.Wf) {i : Nat} {n : N} {p : Path N} {h}
    (dir : fs.tree.find p = some (.dir i)) : (fs.unlinkAt i n p h).Wf where
  inj := by
    intro q r y z hy hz he
    rw [find_unlinkAt] at hy hz
    split at hy
    · cases hy
    · split at hz
      · cases hz
      · exact w.inj q r y z hy hz he
  bound := by
    intro q y hy
    rw [find_unlinkAt] at hy
    split at hy
    · cases hy
    · exact w.bound q y hy
  current := by
    intro q j m hq
    rw [find_unlinkAt] at hq
    split at hq
    · cases hq
    rw [disk_unlinkAt, head_note w dir none hq m]
    congr 1
    split
    · rename_i he
      rw [he, slotAt_of_none]
      rw [find_unlinkAt, if_pos rfl]
    · rename_i he
      exact (slotAt_congr (by rw [find_unlinkAt, if_neg he])).symm

/-- Rewriting a file changes no entry. -/
theorem Rewritten.slotAt {p : Path N} {j : Nat} {d d' : Bytes} (h : Rewritten fs fs' p j d')
    (file : fs.tree.find p = some (.file j d)) (q : Path N) : fs'.slotAt q = fs.slotAt q := by
  by_cases hq : q = p
  · rw [hq, slotAt_of_find file, Fs.slotAt, h.find, if_pos rfl]
    rfl
  · exact slotAt_congr (by rw [h.find, if_neg hq])

/-- **Every call keeps the filesystem in order.** -/
theorem Change.wf (h : Change fs fs') (w : fs.Wf) : fs'.Wf := by
  cases h with
  | same => exact w
  | @made i n p x hp hx dir free new =>
      have hino : x.ino = fs.nextIno := by
        rcases new with rfl | rfl <;> rfl
      refine wf_link (wf_alloc w) dir (by rw [hino]; exact Nat.lt_succ_self _) ?_ ?_
      · intro q y hy he
        have := w.bound q y hy
        omega
      · rintro j rfl m
        obtain rfl : j = fs.nextIno := hino
        refine ⟨by simp [alloc], FileTree.find_none_of_child ?_⟩
        rintro ⟨k, hk⟩
        rw [tree_alloc, free] at hk
        cases hk
  | gone dir there => exact wf_unlinkAt w dir
  | @rewritten _ p j d d' file after =>
      -- the file keeps its inode, and no entry changes
      have hino : ∀ q y, fs'.tree.find q = some y → ∃ z, fs.tree.find q = some z ∧
          z.ino = y.ino ∧ z.slot = y.slot := by
        intro q y hy
        rw [after.find] at hy
        split at hy
        · rename_i hq
          cases hy
          exact ⟨.file j d, hq ▸ file, rfl, rfl⟩
        · exact ⟨y, hy, rfl, rfl⟩
      refine ⟨?_, ?_, ?_⟩
      · intro q r y z hy hz he
        obtain ⟨y', hy', hyi, -⟩ := hino q y hy
        obtain ⟨z', hz', hzi, -⟩ := hino r z hz
        exact w.inj q r y' z' hy' hz' (by rw [hyi, hzi, he])
      · intro q y hy
        obtain ⟨y', hy', hyi, -⟩ := hino q y hy
        rw [← hyi, after.nextIno]
        exact w.bound q y' hy'
      · intro q i n hq
        rw [after.disk, after.slotAt file]
        rw [after.find] at hq
        split at hq
        · cases hq
        · exact w.current q i n hq
  | fileSynced file => exact ⟨w.inj, w.bound, w.current⟩
  | dirSynced i =>
      refine ⟨w.inj, w.bound, fun p j n hp => ?_⟩
      have hcur := w.current p j n hp
      change (if j = i then (fs.disk j n).take 1 else fs.disk j n).head? = some (fs.slotAt (n :: p))
      split
      · rw [List.head?_take, if_neg (by simp)]
        exact hcur
      · exact hcur
  | @moved _ n p i m q j a d src dst file free after =>
      obtain ⟨hc, hp, hx, rfl⟩ := after
      have hne : q ≠ n :: p := by
        rintro rfl
        rw [file] at dst
        cases dst
      refine wf_link (wf_unlinkAt w src) (by rw [find_unlinkAt, if_neg hne, dst])
        (w.bound _ _ file) ?_ (by simp)
      intro r y hy he
      rw [find_unlinkAt] at hy
      split at hy
      · cases hy
      · rename_i hr
        exact absurd (w.inj r _ y _ hy file he) hr

/-! ## What a run of calls can have unsettled -/

/-- Directories outside `D` are as settled as they were, and files outside `F` as
synced. -/
structure Kept (fs fs' : Fs N) (D F : Set (Path N)) : Prop where
  settled : ∀ p, p ∉ D → fs.Settled p → fs'.Settled p
  synced : ∀ p, p ∉ F → fs.Synced p → fs'.Synced p

namespace Kept

variable {D D' F F' : Set (Path N)}

theorem refl (fs : Fs N) : Kept fs fs ∅ ∅ := ⟨fun _ _ h => h, fun _ _ h => h⟩

theorem mono (h : Kept fs fs' D F) (hD : D ⊆ D') (hF : F ⊆ F') : Kept fs fs' D' F' :=
  ⟨fun p hp => h.settled p fun hd => hp (hD hd), fun p hp => h.synced p fun hf => hp (hF hf)⟩

theorem trans (h : Kept fs fs' D F) (h' : Kept fs' fs'' D' F') :
    Kept fs fs'' (D ∪ D') (F ∪ F') where
  settled := fun p hp hs => by
    rw [Set.mem_union, not_or] at hp
    exact h'.settled p hp.2 (h.settled p hp.1 hs)
  synced := fun p hp hs => by
    rw [Set.mem_union, not_or] at hp
    exact h'.synced p hp.2 (h.synced p hp.1 hs)

/-- What is settled in the end does not count. -/
theorem discharge (h : Kept fs fs' D F) (hD : ∀ p ∈ D, p ∈ D' ∨ fs'.Settled p)
    (hF : ∀ p ∈ F, p ∈ F' ∨ fs'.Synced p) : Kept fs fs' D' F' where
  settled := fun p hp hs => by
    by_cases hd : p ∈ D
    · exact (hD p hd).resolve_left hp
    · exact h.settled p hd hs
  synced := fun p hp hs => by
    by_cases hf : p ∈ F
    · exact (hF p hf).resolve_left hp
    · exact h.synced p hf hs

end Kept

theorem note_of_ne (w : fs.Wf) {i : Nat} {n : N} {p q : Path N} {j : Nat}
    (hp : fs.tree.find p = some (.dir i)) (hq : fs.tree.find q = some (.dir j)) (hne : q ≠ p)
    (v : Slot) (m : N) : fs.note i n v j m = fs.disk j m := by
  rw [note, if_neg]
  rintro ⟨rfl, -⟩
  exact hne (w.inj q p _ _ hq hp rfl)

theorem kept_made (w : fs.Wf) {i : Nat} {n : N} {p : Path N} {x : Node} {hp hx}
    (dir : fs.tree.find p = some (.dir i))
    (new : x = .dir fs.nextIno ∨ x = .file fs.nextIno []) :
    Kept fs (fs.alloc.link i n p x hp hx) {p} (if x.kind = .dir then ∅ else {n :: p}) where
  settled := by
    intro q hq hs j hj m
    rw [find_link] at hj
    split at hj
    · -- the new directory is empty, on disk too
      have hxj : x = .dir j := Option.some.inj hj
      obtain rfl : j = fs.nextIno := by
        rcases new with h | h <;> rw [h] at hxj <;> cases hxj
        rfl
      have hne : ¬ (fs.nextIno = i ∧ m = n) := by
        rintro ⟨h, -⟩
        exact absurd (w.bound p _ dir) (by rw [h]; exact lt_irrefl _)
      rw [disk_link, note, if_neg hne]
      simp [alloc]
    · have hji : j ≠ fs.nextIno := (w.bound q _ hj).ne
      rw [disk_link, note_of_ne (wf_alloc w) dir hj (by simpa using hq)]
      simp only [alloc, if_neg hji]
      exact hs j hj m
  synced := by
    intro q hq hs j d hj
    rw [find_link] at hj
    split at hj
    · rename_i hqe
      have hxj : x = .file j d := Option.some.inj hj
      rw [hxj] at hq
      exact absurd hqe (by simpa using hq)
    · have hji : j ≠ fs.nextIno := (w.bound q _ hj).ne
      rw [synced_link]
      simp only [alloc, if_neg hji]
      exact hs j d hj

theorem kept_gone (w : fs.Wf) {i : Nat} {n : N} {p : Path N} {h}
    (dir : fs.tree.find p = some (.dir i)) : Kept fs (fs.unlinkAt i n p h) {p} ∅ where
  settled := by
    intro q hq hs j hj m
    rw [find_unlinkAt] at hj
    split at hj
    · cases hj
    · rw [disk_unlinkAt, note_of_ne w dir hj (by simpa using hq)]
      exact hs j hj m
  synced := by
    intro q _ hs j d hj
    rw [find_unlinkAt] at hj
    split at hj
    · cases hj
    · exact hs j d hj

theorem kept_mkdir (w : fs.Wf) (fits : N → Bool) (p : Path N) :
    Kept fs (fs.mkdir fits p).2 {p.tail} ∅ := by
  rcases mkdir_cases fits fs p with ⟨n, q, i, hp, hx, rfl, -, hd, -, he⟩ | ⟨e, he⟩
  · rw [he]
    exact kept_made w hd (.inl rfl)
  · rw [he]
    exact (Kept.refl fs).mono (Set.empty_subset _) (Set.empty_subset _)

theorem kept_rmdir (w : fs.Wf) (fits : N → Bool) (p : Path N) :
    Kept fs (fs.rmdir fits p).2 {p.tail} ∅ := by
  rcases rmdir_cases fits fs p with ⟨n, q, i, j, h, rfl, hd, -, he⟩ | ⟨e, he⟩
  · rw [he]
    exact kept_gone w hd
  · rw [he]
    exact (Kept.refl fs).mono (Set.empty_subset _) (Set.empty_subset _)

theorem kept_unlink (w : fs.Wf) (fits : N → Bool) (p : Path N) :
    Kept fs (fs.unlink fits p).2 {p.tail} ∅ := by
  rcases unlink_cases fits fs p with ⟨n, q, i, a, d, h, rfl, hd, -, he⟩ | ⟨e, he⟩
  · rw [he]
    exact kept_gone w hd
  · rw [he]
    exact (Kept.refl fs).mono (Set.empty_subset _) (Set.empty_subset _)

theorem kept_createNew (w : fs.Wf) (fits : N → Bool) (p : Path N) :
    Kept fs (fs.createNew fits p).2 {p.tail} {p} := by
  rcases createNew_cases fits fs p with ⟨n, q, i, hp, hx, rfl, -, hd, -, he⟩ | ⟨e, he⟩
  · rw [he]
    exact kept_made w hd (.inr rfl)
  · rw [he]
    exact (Kept.refl fs).mono (Set.empty_subset _) (Set.empty_subset _)

theorem kept_append (w : fs.Wf) (fits : N → Bool) (bs : Bytes) (p : Path N) :
    Kept fs (fs.append fits bs p).2 ∅ {p} := by
  rcases append_cases fits fs bs p with ⟨j, d, fs', hf, hw, he⟩ | ⟨e, he⟩
  · rw [he]
    refine ⟨fun q _ hs i hi m => ?_, fun q hq hs i c hi => ?_⟩
    · rw [hw.find] at hi
      split at hi
      · cases hi
      · rw [hw.disk]
        exact hs i hi m
    · rw [hw.find, if_neg (by simpa using hq)] at hi
      have hij : i ≠ j := fun h => hq (w.inj q p _ _ hi hf h)
      rw [hw.synced]
      simp only [if_neg hij]
      exact hs i c hi
  · rw [he]
    exact (Kept.refl fs).mono (Set.empty_subset _) (Set.empty_subset _)

theorem kept_syncFile (w : fs.Wf) (fits : N → Bool) (p : Path N) :
    Kept fs (fs.syncFile fits p).2 ∅ ∅ := by
  rcases syncFile_cases fits fs p with ⟨i, d, hf, he⟩ | ⟨e, he⟩
  · rw [he]
    refine ⟨fun q _ hs => hs, fun q _ hs j c hj => ?_⟩
    simp only
    split
    · rename_i hji
      have hqp : q = p := w.inj q p _ _ hj hf hji
      rw [hqp, hf] at hj
      cases hj
      rfl
    · exact hs j c hj
  · rw [he]
    exact .refl fs

theorem synced_of_none {p : Path N} (h : fs.tree.fileAt p = none) : fs.Synced p := by
  intro i d hi
  rw [FileTree.fileAt_eq_some.mpr ⟨i, hi⟩] at h
  cases h

theorem settled_of_not_isDir {p : Path N} (h : ¬ fs.tree.IsDir p) : fs.Settled p :=
  fun i hi => absurd ⟨i, hi⟩ h

/-- After its `fsync` a file is synced. -/
theorem synced_syncFile {p : Path N} (h : (fs.syncFile fits p).1 = .ok ()) :
    (fs.syncFile fits p).2.Synced p := by
  rcases syncFile_cases fits fs p with ⟨i, d, hf, he⟩ | ⟨e, he⟩
  · rw [he]
    intro j c hj
    change fs.tree.find p = _ at hj
    rw [hf] at hj
    cases hj
    simp
  · rw [he] at h
    cases h

theorem kept_rename (w : fs.Wf) (fits : N → Bool) (src dst : Path N) :
    Kept fs (fs.rename fits src dst).2 {src.tail, dst.tail} {dst} := by
  rcases rename_cases fits fs src dst with
    ⟨n, p, i, m, q, j, a, d, fs', rfl, rfl, -, -, hp, hq, hs, hm, he⟩ | ⟨e, he⟩
  · rw [he]
    obtain ⟨hc, hp', hx', rfl⟩ := hm
    refine ⟨fun r hr hs k hk l => ?_, fun r hr hs k c hk => ?_⟩
    · simp only [List.tail_cons, Set.mem_insert_iff, Set.mem_singleton_iff, not_or] at hr
      rw [find_link] at hk
      split at hk
      · cases hk
      have hq' : (fs.unlinkAt i n p hc).tree.find q = some (.dir j) := by
        obtain ⟨k', hk'⟩ := hp'
        rw [find_unlinkAt] at hk' ⊢
        split at hk'
        · cases hk'
        · rename_i h
          rw [if_neg h, hq]
      rw [disk_link, note_of_ne (wf_unlinkAt w hp) hq' hk hr.2]
      exact (kept_gone w hp).settled r (by simpa using hr.1) hs k hk l
    · rw [find_link, if_neg (by simpa using hr)] at hk
      exact (kept_gone w hp).synced r (by simp) hs k c hk
  · rw [he]
    exact (Kept.refl fs).mono (Set.empty_subset _) (Set.empty_subset _)

/-- A synced file is synced where it is moved to. -/
theorem synced_rename {src dst : Path N} (hs : fs.Synced src)
    (h : (fs.rename fits src dst).1 = .ok ()) : (fs.rename fits src dst).2.Synced dst := by
  rcases rename_cases fits fs src dst with
    ⟨n, p, i, m, q, j, a, d, fs', rfl, rfl, -, -, -, -, hf, hm, he⟩ | ⟨e, he⟩
  · rw [he]
    intro k c hk
    rw [hm.find, if_pos rfl] at hk
    cases hk
    rw [hm.synced]
    exact hs a d hf
  · rw [he] at h
    cases h

theorem kept_syncDir (fs : Fs N) (i : Nat) : Kept fs (fs.syncDir i) ∅ ∅ where
  settled := by
    intro q _ hs j hj m
    change (if j = i then (fs.disk j m).take 1 else fs.disk j m).length = 1
    have := hs j hj m
    split
    · rw [List.length_take, this]
      rfl
    · exact this
  synced := fun _ _ hs => hs

/-- After its `fsync` a directory is settled. -/
theorem settled_syncDir (w : fs.Wf) {p : Path N} {i : Nat} (hp : fs.tree.find p = some (.dir i)) :
    (fs.syncDir i).Settled p := by
  intro j hj m
  change fs.tree.find p = _ at hj
  rw [hp] at hj
  cases hj
  change (if i = i then (fs.disk i m).take 1 else fs.disk i m).length = 1
  have hcur := w.current p i m hp
  rw [if_pos rfl]
  cases hd : fs.disk i m with
  | nil => simp [hd] at hcur
  | cons v vs => rfl

end Fs

end Aks3.Lib
