import Aks3.Lib.StdFsRun

/-!
# Power loss

After a power loss every entry of every directory is one of the values it may have on
disk, and a file whose bytes were synced has them (`PowerLoss`). An entry is *durable* when
nothing but its current value may be there. If all entries on the way to a path are
durable, the path survives as it is (`PowerLoss.leaves`); a call leaves every entry durable
that it does not itself change.
-/

set_option autoImplicit false

namespace Aks3.Lib

namespace Fs

variable {N : Type} [DecidableEq N] {fits : N → Bool} {fs fs' : Fs N} {t : FileTree N}

/-- What is left at a path whose entry is read back as the given value. -/
def Leaves (fs : Fs N) (x : Option Node) : Slot → Prop
  | none => x = none
  | some (.dir, j) => x = some (.dir j)
  | some (.file, j) => ∃ d, x = some (.file j d) ∧ ∀ bytes, fs.synced j = some bytes → d = bytes

/-- What a power loss can leave of a filesystem: in every directory that can still be
reached, each entry has one of the values it may have on disk. -/
def PowerLoss (fs : Fs N) (t : FileTree N) : Prop :=
  ∀ p i, t.find p = some (.dir i) → ∀ n, ∃ v ∈ fs.disk i n, fs.Leaves (t.find (n :: p)) v

/-- The entry of a path has no other value on disk than the current one. -/
def EntryDurable (fs : Fs N) : Path N → Prop
  | [] => True
  | n :: p => ∃ i, fs.tree.find p = some (.dir i) ∧ ∀ v ∈ fs.disk i n, v = fs.slotAt (n :: p)

/-- All entries on the way to a path, and its own, are durable. -/
def Durable (fs : Fs N) (p : Path N) : Prop := ∀ q, q <:+ p → fs.EntryDurable q

/-- Every directory can be found after a power loss. -/
def Linked (fs : Fs N) : Prop := ∀ p, fs.tree.IsDir p → fs.EntryDurable p

theorem slotAt_of_isDir {p : Path N} {i : Nat} (h : fs.tree.find p = some (.dir i)) :
    fs.slotAt p = some (.dir, i) := by
  rw [slotAt_of_find h]
  rfl

theorem not_isDir_of_none {p : Path N} (h : fs.tree.find p = none) : ¬ fs.tree.IsDir p := by
  rintro ⟨i, hi⟩
  rw [h] at hi
  cases hi

theorem not_isDir_of_file {p : Path N} {i : Nat} {d : Bytes}
    (h : fs.tree.find p = some (.file i d)) : ¬ fs.tree.IsDir p := by
  rintro ⟨j, hj⟩
  rw [h] at hj
  cases hj

/-- The parent of a durable entry is there. -/
theorem EntryDurable.tail_ne {p q : Path N} (h : fs.EntryDurable q) (hp : ¬ fs.tree.IsDir p)
    (hne : p ≠ []) : q.tail ≠ p := by
  cases q with
  | nil => exact hne.symm
  | cons n q =>
      rintro rfl
      obtain ⟨i, hi, -⟩ := h
      exact hp ⟨i, hi⟩

theorem PowerLoss.leaves (h : PowerLoss fs t) : ∀ {p : Path N}, fs.Durable p →
    fs.Leaves (t.find p) (fs.slotAt p)
  | [], _ => rfl
  | n :: p, hd => by
      obtain ⟨i, hi, only⟩ := hd _ List.suffix_rfl
      have up := h.leaves (p := p) fun q hq => hd q (hq.trans (List.suffix_cons n p))
      rw [slotAt_of_isDir hi] at up
      obtain ⟨v, listed, here⟩ := h p i up n
      rwa [only v listed] at here

/-- A durable file whose bytes are synced survives with them. -/
theorem PowerLoss.fileAt (h : PowerLoss fs t) {p : Path N} {d : Bytes} (hd : fs.Durable p)
    (hs : fs.Synced p) (hf : fs.tree.fileAt p = some d) : t.fileAt p = some d := by
  obtain ⟨j, hj⟩ := FileTree.fileAt_eq_some.mp hf
  have left := h.leaves hd
  rw [slotAt_of_find hj] at left
  obtain ⟨c, hc, same⟩ := left
  rw [same d (hs j d hj)] at hc
  exact FileTree.fileAt_eq_some.mpr ⟨j, hc⟩

theorem PowerLoss.isDir (h : PowerLoss fs t) {p : Path N} (hd : fs.Durable p)
    (hp : fs.tree.IsDir p) : t.IsDir p := by
  obtain ⟨i, hi⟩ := hp
  have left := h.leaves hd
  rw [slotAt_of_isDir hi] at left
  exact ⟨i, left⟩

/-- What is durably not there does not come back. -/
theorem PowerLoss.find_eq_none (h : PowerLoss fs t) {p : Path N} (hd : fs.Durable p)
    (hp : fs.tree.find p = none) : t.find p = none := by
  have left := h.leaves hd
  rwa [slotAt_of_none hp] at left

theorem wf_empty : (empty : Fs N).Wf where
  inj := by
    intro p q x y hp hq _
    cases p with
    | cons n p => cases hp
    | nil =>
        cases q with
        | nil => rfl
        | cons m q => cases hq
  bound := by
    intro p x hp
    cases p with
    | nil =>
        cases hp
        exact Nat.one_pos
    | cons n p => cases hp
  current := by
    intro p i n hp
    rfl

/-! ## Which entries are durable -/

theorem Linked.durable (h : fs.Linked) {p : Path N} (hp : fs.tree.IsDir p) : fs.Durable p :=
  fun q hq => h q (FileTree.isDir_of_suffix hp hq)

/-- An entry of a settled directory is durable. -/
theorem entryDurable_of_settled (w : fs.Wf) {p : Path N} (hp : fs.tree.IsDir p)
    (hs : fs.Settled p) (n : N) : fs.EntryDurable (n :: p) := by
  obtain ⟨i, hi⟩ := hp
  refine ⟨i, hi, fun v hv => ?_⟩
  have first := w.current p i n hi
  obtain ⟨x, hx⟩ := List.length_eq_one_iff.mp (hs i hi n)
  rw [hx] at first hv
  rw [List.mem_singleton.mp hv]
  exact Option.some.inj first

theorem durable_cons (n : N) {p : Path N} (hp : fs.Durable p) (hn : fs.EntryDurable (n :: p)) :
    fs.Durable (n :: p) := by
  intro q hq
  rcases List.suffix_cons_iff.mp hq with rfl | hq
  · exact hn
  · exact hp q hq

/-- A new value of an entry does not concern the others. -/
theorem note_of_path_ne (w : fs.Wf) {i j : Nat} {n m : N} {p q : Path N}
    (hp : fs.tree.find p = some (.dir i)) (hq : fs.tree.find q = some (.dir j))
    (hne : m :: q ≠ n :: p) (v : Slot) : fs.note i n v j m = fs.disk j m := by
  rw [note, if_neg]
  rintro ⟨rfl, rfl⟩
  exact hne (by rw [w.inj q p _ _ hq hp rfl])

theorem entryDurable_alloc (w : fs.Wf) {p : Path N} (h : fs.EntryDurable p) :
    fs.alloc.EntryDurable p := by
  cases p with
  | nil => trivial
  | cons n p =>
      obtain ⟨i, hi, only⟩ := h
      refine ⟨i, hi, fun v hv => ?_⟩
      have bound := w.bound p _ hi
      have same : fs.alloc.disk i n = fs.disk i n := if_neg (Nat.ne_of_lt bound)
      rw [same] at hv
      exact only v hv

theorem entryDurable_link (w : fs.Wf) {i : Nat} {n : N} {p : Path N} {x : Node} {hp hx}
    (dir : fs.tree.find p = some (.dir i)) {q : Path N} (h : fs.EntryDurable q)
    (hne : q ≠ n :: p) (up : q.tail ≠ n :: p) : (fs.link i n p x hp hx).EntryDurable q := by
  cases q with
  | nil => trivial
  | cons m q =>
      obtain ⟨j, hj, only⟩ := h
      refine ⟨j, by rw [find_link, if_neg (show q ≠ n :: p from up), hj], fun v hv => ?_⟩
      rw [disk_link, note_of_path_ne w dir hj hne] at hv
      rw [only v hv, slotAt, slotAt, find_link, if_neg hne]

theorem entryDurable_unlinkAt (w : fs.Wf) {i : Nat} {n : N} {p : Path N} {hc}
    (dir : fs.tree.find p = some (.dir i)) {q : Path N} (h : fs.EntryDurable q)
    (hne : q ≠ n :: p) (up : q.tail ≠ n :: p) : (fs.unlinkAt i n p hc).EntryDurable q := by
  cases q with
  | nil => trivial
  | cons m q =>
      obtain ⟨j, hj, only⟩ := h
      refine ⟨j, by rw [find_unlinkAt, if_neg (show q ≠ n :: p from up), hj], fun v hv => ?_⟩
      have same : (fs.unlinkAt i n p hc).disk j m = fs.disk j m := note_of_path_ne w dir hj hne none
      rw [same] at hv
      rw [only v hv, slotAt, slotAt, find_unlinkAt, if_neg hne]

/-! ## The calls -/

theorem entryDurable_mkdir (w : fs.Wf) (fits : N → Bool) {p q : Path N} (h : fs.EntryDurable q)
    (hne : q ≠ p) : (fs.mkdir fits p).2.EntryDurable q := by
  rcases mkdir_cases fits fs p with ⟨n, r, i, hp, hx, rfl, -, dir, free, he⟩ | ⟨e, he⟩
  · rw [he]
    exact entryDurable_link (wf_alloc w) dir (entryDurable_alloc w h) hne
      (h.tail_ne (not_isDir_of_none free) (List.cons_ne_nil n r))
  · rw [he]
    exact h

theorem entryDurable_rmdir (w : fs.Wf) (fits : N → Bool) {p q : Path N} (h : fs.EntryDurable q)
    (hne : q ≠ p) (up : q.tail ≠ p) : (fs.rmdir fits p).2.EntryDurable q := by
  rcases rmdir_cases fits fs p with ⟨n, r, i, j, hc, rfl, dir, -, he⟩ | ⟨e, he⟩
  · rw [he]
    exact entryDurable_unlinkAt w dir h hne up
  · rw [he]
    exact h

theorem entryDurable_unlink (w : fs.Wf) (fits : N → Bool) {p q : Path N} (h : fs.EntryDurable q)
    (hne : q ≠ p) : (fs.unlink fits p).2.EntryDurable q := by
  rcases unlink_cases fits fs p with ⟨n, r, i, a, d, hc, rfl, dir, file, he⟩ | ⟨e, he⟩
  · rw [he]
    exact entryDurable_unlinkAt w dir h hne
      (h.tail_ne (not_isDir_of_file file) (List.cons_ne_nil n r))
  · rw [he]
    exact h

/-- A rename changes the entries of its two paths. -/
theorem entryDurable_rename (w : fs.Wf) (fits : N → Bool) {src dst q : Path N}
    (h : fs.EntryDurable q) (hsrc : q ≠ src) (hdst : q ≠ dst) :
    (fs.rename fits src dst).2.EntryDurable q := by
  rcases rename_cases fits fs src dst with
    ⟨n, p, i, m, r, j, a, d, fs', rfl, rfl, -, free, dir, dir', file, after, he⟩ | ⟨e, he⟩
  · rw [he]
    obtain ⟨hc, hp, hx, rfl⟩ := after
    have gone : (fs.unlinkAt i n p hc).EntryDurable q := entryDurable_unlinkAt w dir h hsrc
      (h.tail_ne (not_isDir_of_file file) (List.cons_ne_nil n p))
    have there : (fs.unlinkAt i n p hc).tree.find r = some (.dir j) := by
      rw [find_unlinkAt, if_neg, dir']
      rintro rfl
      rw [file] at dir'
      cases dir'
    exact entryDurable_link (wf_unlinkAt w dir) there gone hdst
      (h.tail_ne free (List.cons_ne_nil m r))
  · rw [he]
    exact h

theorem entryDurable_syncFile (fits : N → Bool) {p q : Path N} (h : fs.EntryDurable q) :
    (fs.syncFile fits p).2.EntryDurable q := by
  rcases syncFile_cases fits fs p with ⟨i, d, -, he⟩ | ⟨e, he⟩ <;> rw [he] <;> exact h

theorem entryDurable_syncDir (i : Nat) {q : Path N} (h : fs.EntryDurable q) :
    (fs.syncDir i).EntryDurable q := by
  cases q with
  | nil => trivial
  | cons m q =>
      obtain ⟨j, hj, only⟩ := h
      refine ⟨j, hj, fun v hv => only v ?_⟩
      change v ∈ (if j = i then (fs.disk j m).take 1 else fs.disk j m) at hv
      split at hv
      · exact List.mem_of_mem_take hv
      · exact hv

theorem entryDurable_createNew (w : fs.Wf) (fits : N → Bool) {p q : Path N}
    (h : fs.EntryDurable q) (hne : q ≠ p) : (fs.createNew fits p).2.EntryDurable q := by
  rcases createNew_cases fits fs p with ⟨n, r, i, hp, hx, rfl, -, dir, free, he⟩ | ⟨e, he⟩
  · rw [he]
    exact entryDurable_link (wf_alloc w) dir (entryDurable_alloc w h) hne
      (h.tail_ne (not_isDir_of_none free) (List.cons_ne_nil n r))
  · rw [he]
    exact h

theorem entryDurable_append (fits : N → Bool) (bs : Bytes) {p q : Path N}
    (h : fs.EntryDurable q) : (fs.append fits bs p).2.EntryDurable q := by
  rcases append_cases fits fs bs p with ⟨j, d, fs', file, after, he⟩ | ⟨e, he⟩
  · rw [he]
    cases q with
    | nil => trivial
    | cons m q =>
        obtain ⟨i, hi, only⟩ := h
        have there : q ≠ p := by
          rintro rfl
          rw [file] at hi
          cases hi
        refine ⟨i, by rw [after.find, if_neg there, hi], fun v hv => ?_⟩
        rw [after.disk] at hv
        rw [only v hv, after.slotAt file]
  · rw [he]
    exact h

/-- What a run of directory `fsync`s leaves: the same tree, with nothing less durable. -/
structure Flushed (fs fs' : Fs N) : Prop where
  tree : fs'.tree = fs.tree
  synced : fs'.synced = fs.synced
  wf : fs.Wf → fs'.Wf
  entry : ∀ q, fs.EntryDurable q → fs'.EntryDurable q
  settled : ∀ q, fs.Settled q → fs'.Settled q

theorem Flushed.refl (fs : Fs N) : Flushed fs fs := ⟨rfl, rfl, id, fun _ => id, fun _ => id⟩

theorem Flushed.trans {fs fs' fs'' : Fs N} (h : Flushed fs fs') (h' : Flushed fs' fs'') :
    Flushed fs fs'' where
  tree := h'.tree.trans h.tree
  synced := h'.synced.trans h.synced
  wf := fun hw => h'.wf (h.wf hw)
  entry := fun q hq => h'.entry q (h.entry q hq)
  settled := fun q hq => h'.settled q (h.settled q hq)

theorem flushed_syncDir (fs : Fs N) (i : Nat) : Flushed fs (fs.syncDir i) where
  tree := rfl
  synced := rfl
  wf := (Change.dirSynced i).wf
  entry := fun _ => entryDurable_syncDir i
  settled := fun q => (kept_syncDir fs i).settled q (Set.notMem_empty q)

/-- Everything is on disk. -/
def flushAll (fs : Fs N) : Fs N := { fs with disk := fun i n => (fs.disk i n).take 1 }

theorem wf_flushAll (w : fs.Wf) : fs.flushAll.Wf := by
  refine ⟨w.inj, w.bound, fun p i n hp => ?_⟩
  change ((fs.disk i n).take 1).head? = _
  rw [List.head?_take, if_neg Nat.one_ne_zero]
  exact w.current p i n hp

theorem settled_flushAll (w : fs.Wf) (p : Path N) : fs.flushAll.Settled p := by
  intro i hi m
  have current := w.current p i m hi
  change ((fs.disk i m).take 1).length = 1
  cases hd : fs.disk i m with
  | nil => simp [hd] at current
  | cons v vs => rfl

theorem entryDurable_flushAll (w : fs.Wf) {p : Path N} (hp : fs.tree.IsDir p) (n : N) :
    fs.flushAll.EntryDurable (n :: p) :=
  entryDurable_of_settled (wf_flushAll w) hp (settled_flushAll w p) n

theorem linked_flushAll (w : fs.Wf) : fs.flushAll.Linked := by
  intro p hp
  cases p with
  | nil => trivial
  | cons n p => exact entryDurable_flushAll w (FileTree.isDir_tail hp) n

/-! ## Losing nothing, or one entry -/

/-- What is synced of a file is what it holds: a write takes the mark away. -/
def SyncedCurrent (fs : Fs N) : Prop :=
  ∀ p i d bytes, fs.tree.find p = some (.file i d) → fs.synced i = some bytes → d = bytes

theorem syncedCurrent_empty : (empty : Fs N).SyncedCurrent := by
  intro p i d bytes _ hs
  cases hs

theorem Change.syncedCurrent (h : Change fs fs') (w : fs.Wf) (hs : fs.SyncedCurrent) :
    fs'.SyncedCurrent := by
  cases h with
  | same => exact hs
  | @made i n p x hp hx dir free new =>
      intro q j d bytes hq hj
      rw [find_link] at hq
      change (if j = fs.nextIno then none else fs.synced j) = some bytes at hj
      split at hj
      · cases hj
      · rename_i old
        split at hq
        · cases hq
          rcases new with hx | hx <;> cases hx
          exact absurd rfl old
        · exact hs q j d bytes hq hj
  | gone dir there =>
      intro q j d bytes hq hj
      rw [find_unlinkAt] at hq
      split at hq
      · cases hq
      · exact hs q j d bytes hq hj
  | @rewritten _ p j d d' file after =>
      intro q i c bytes hq hi
      rw [after.synced] at hi
      dsimp only at hi
      split at hi
      · cases hi
      · rename_i other
        rw [after.find] at hq
        split at hq
        · cases hq
          exact absurd rfl other
        · exact hs q i c bytes hq hi
  | @fileSynced p i d file =>
      intro q j c bytes hq hj
      change (if j = i then some d else fs.synced j) = some bytes at hj
      split at hj
      · rename_i heq
        cases hj
        subst heq
        rw [w.inj q p _ _ hq file rfl, file] at hq
        cases hq
        rfl
      · exact hs q j c bytes hq hj
  | dirSynced i => exact hs
  | @moved _ n p i m q j a d src dst file free after =>
      intro r k c bytes hr hk
      rw [after.synced] at hk
      rw [after.find] at hr
      split at hr
      · cases hr
        exact hs (n :: p) a d bytes file hk
      · split at hr
        · cases hr
        · exact hs r k c bytes hr hk

/-- Losing nothing is one of the outcomes. -/
theorem powerLoss_self (w : fs.Wf) (hs : fs.SyncedCurrent) : PowerLoss fs fs.tree := by
  intro p i hp n
  refine ⟨fs.slotAt (n :: p), List.mem_of_mem_head? (w.current p i n hp), ?_⟩
  cases hx : fs.tree.find (n :: p) with
  | none =>
      rw [slotAt_of_none hx]
      rfl
  | some x =>
      rw [slotAt_of_find hx]
      cases x with
      | dir j => rfl
      | file j d => exact ⟨d, rfl, fun bytes => hs (n :: p) j d bytes hx⟩

/-- A file whose entry may be missing on disk can be lost as well. -/
theorem PowerLoss.remove {n : N} {p : Path N} {i : Nat} (ht : PowerLoss fs t)
    (dir : t.find p = some (.dir i)) (lost : none ∈ fs.disk i n)
    (h : t.hasChild (n :: p) = false) : PowerLoss fs (t.remove n p h) := by
  intro q j hq m
  rw [FileTree.find_remove] at hq
  split at hq
  · cases hq
  · rw [FileTree.find_remove]
    split
    · rename_i heq
      obtain ⟨rfl, rfl⟩ := List.cons_eq_cons.mp heq
      rw [dir] at hq
      cases hq
      exact ⟨none, lost, rfl⟩
    · exact ht q j hq m

end Fs

theorem Made.entryDurable {N : Type} [DecidableEq N] {fits : N → Bool} {fs fs' : Fs N}
    {ps : List (Path N)} (h : Made fits fs ps fs') (w : fs.Wf) {q : Path N}
    (hq : fs.EntryDurable q) (hne : q ∉ ps) : fs'.EntryDurable q := by
  induction h with
  | nil _ => exact hq
  | @cons fs _ _ p _ hd _ ih =>
      have hwf := (Fs.change_mkdir fits fs p).wf w
      have here := Fs.entryDurable_mkdir w fits hq fun h => hne (h ▸ List.mem_cons_self)
      rw [hd] at hwf here
      exact ih hwf here fun h => hne (List.mem_cons_of_mem _ h)

theorem Dropped.entryDurable {N : Type} [DecidableEq N] {fits : N → Bool} {fs fs' : Fs N}
    {ps : List (Path N)} (h : Dropped fits fs ps fs') (w : fs.Wf) {q : Path N}
    (hq : fs.EntryDurable q) (hne : q ∉ ps) (up : q.tail ∉ ps) : fs'.EntryDurable q := by
  induction h with
  | nil _ => exact hq
  | @rmdir fs _ _ p _ hd _ ih =>
      rw [List.mem_cons, not_or] at hne up
      have hwf := (Fs.change_rmdir fits fs p).wf w
      have here := Fs.entryDurable_rmdir w fits hq hne.1 up.1
      rw [hd] at hwf here
      exact ih hwf here hne.2 up.2
  | @unlink fs _ _ p _ hd _ ih =>
      rw [List.mem_cons, not_or] at hne up
      have hwf := (Fs.change_unlink fits fs p).wf w
      have here := Fs.entryDurable_unlink w fits hq hne.1
      rw [hd] at hwf here
      exact ih hwf here hne.2 up.2

/-- Directories that stay are as linked as they were. -/
theorem Dropped.linked {N : Type} [DecidableEq N] {fits : N → Bool} {fs fs' : Fs N}
    {ps : List (Path N)} (h : Dropped fits fs ps fs') (w : fs.Wf) (hl : fs.Linked) :
    fs'.Linked := by
  have kept : ∀ q, fs'.tree.IsDir q → q ∉ ps ∧ fs.tree.IsDir q := by
    rintro q ⟨i, hi⟩
    rw [h.find] at hi
    split at hi
    · cases hi
    · exact ⟨‹_›, i, hi⟩
  intro q hq
  refine h.entryDurable w (hl q (kept q hq).2) (kept q hq).1 ?_
  exact (kept _ (FileTree.isDir_of_suffix hq (List.tail_suffix q))).1

/-- As long as nothing is synced, a removal can be undone. -/
theorem Dropped.powerLoss {N : Type} [DecidableEq N] {fits : N → Bool} {fs fs' : Fs N}
    {ps : List (Path N)} (h : Dropped fits fs ps fs') {t : FileTree N} (ht : fs.PowerLoss t) :
    fs'.PowerLoss t := by
  have undo : ∀ {fs : Fs N} {i : Nat} {n : N} {p : Path N} {hc}, fs.PowerLoss t →
      (fs.unlinkAt i n p hc).PowerLoss t := by
    intro fs i n p hc ht q j hq m
    obtain ⟨v, hv, left⟩ := ht q j hq m
    refine ⟨v, ?_, ?_⟩
    · change v ∈ (if j = i ∧ m = n then none :: fs.disk i n else fs.disk j m)
      split
      · rename_i here
        rw [← here.1, ← here.2]
        exact List.mem_cons_of_mem _ hv
      · exact hv
    · exact left
  induction h with
  | nil _ => exact ht
  | @rmdir fs _ _ p _ hd _ ih =>
      rcases Fs.rmdir_cases fits fs p with ⟨n, r, i, j, hc, -, -, -, he⟩ | ⟨e, he⟩
      · rw [he] at hd
        obtain rfl := (Prod.mk.inj hd).2
        exact ih (undo ht)
      · rw [he] at hd
        cases hd
  | @unlink fs _ _ p _ hd _ ih =>
      rcases Fs.unlink_cases fits fs p with ⟨n, r, i, a, d, hc, -, -, -, he⟩ | ⟨e, he⟩
      · rw [he] at hd
        obtain rfl := (Prod.mk.inj hd).2
        exact ih (undo ht)
      · rw [he] at hd
        cases hd

/-! ## Looking for what is not there -/

namespace FileTree

variable {N : Type} [DecidableEq N] {fits : N → Bool} {t t' : FileTree N}

/-- Following the path ends at a directory that lacks the next name. -/
def Lost (fits : N → Bool) (t : FileTree N) (p : Path N) : Prop :=
  ∃ m q, m :: q <:+ p ∧ Fit fits (m :: q) ∧ t.IsDir q ∧ t.find (m :: q) = none

theorem lost_of_resolve : ∀ {p : Path N}, t.resolve fits p = .error .notFound → t.Lost fits p
  | [], h => by cases h
  | n :: p, h => by
      rw [resolve] at h
      split at h
      · rename_i e he
        cases h
        obtain ⟨m, q, hs, rest⟩ := lost_of_resolve he
        exact ⟨m, q, hs.trans (List.suffix_cons n p), rest⟩
      · cases h
      · rename_i i hi
        split at h
        · rename_i hn
          split at h
          · cases h
          · rename_i absent
            exact ⟨n, p, List.suffix_rfl, List.forall_mem_cons.mpr ⟨hn, fit_of_resolve hi⟩,
              ⟨i, find_of_resolve hi⟩, absent⟩
        · cases h

theorem Lost.resolve : ∀ {p : Path N}, t.Lost fits p → t.resolve fits p = .error .notFound
  | [], ⟨m, q, hs, _⟩ => by cases List.suffix_nil.mp hs
  | n :: p, ⟨m, q, hs, hf, hd, absent⟩ => by
      rcases List.suffix_cons_iff.mp hs with heq | hs
      · cases heq
        obtain ⟨i, hi⟩ := hd
        simp only [FileTree.resolve, resolve_of_find hf.tail hi, hf n List.mem_cons_self, if_true,
          absent]
      · have up := Lost.resolve ⟨m, q, hs, hf, hd, absent⟩
        simp only [FileTree.resolve, up]

theorem Lost.readFile {fs : Fs N} {p : Path N} (h : fs.tree.Lost fits p) :
    fs.readFile fits p = .error .notFound := by
  simp only [Fs.readFile, h.resolve]

end FileTree

/-- What cannot be found is not found after more is taken away. -/
theorem Dropped.lost {N : Type} [DecidableEq N] {fits : N → Bool} {fs fs' : Fs N}
    {ps : List (Path N)} (h : Dropped fits fs ps fs') {p : Path N} (hp : fs.tree.Lost fits p) :
    fs'.tree.Lost fits p := by
  obtain ⟨m, q, hs, hf, hd, absent⟩ := hp
  replace absent : fs'.tree.find (m :: q) = none := by rw [h.find, absent, ite_self]
  -- upwards to the first directory of the way that is still there
  induction q generalizing m with
  | nil => exact ⟨m, [], hs, hf, ⟨0, rfl⟩, absent⟩
  | cons n q ih =>
      by_cases gone : n :: q ∈ ps
      · exact ih n ((List.suffix_cons m (n :: q)).trans hs) hf.tail (FileTree.isDir_tail hd)
          (by rw [h.find, if_pos gone])
      · obtain ⟨i, hi⟩ := hd
        exact ⟨m, n :: q, hs, hf, ⟨i, by rw [h.find, if_neg gone, hi]⟩, absent⟩

end Aks3.Lib
