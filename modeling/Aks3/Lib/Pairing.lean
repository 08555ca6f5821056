import Aks3.Lib.PowerLoss

/-!
# A marker that must not outlive its payload

Some directories hold two files: a marker, and a payload the marker speaks of. Files are
written in a staging directory and renamed into place. After a power loss the marker must
not be there without the payload, and its bytes must be whole. Both are statements about every
value an entry may have on disk, in every directory that may be reached (`Pairing.Holds`).
A call keeps them if what it adds to the entries does (`Holds.grow`); each call is an instance.
Taking a payload away puts the directory at risk until an `fsync` (`Holds.unlink_payload`,
`Holds.close`).
-/

set_option autoImplicit false

namespace Aks3.Lib

namespace Fs

variable {N : Type} [DecidableEq N] {fs fs' : Fs N} {t : FileTree N}

/-- A directory that may be there after a power loss. -/
inductive MayReach (fs : Fs N) : Nat → Prop where
  | root : MayReach fs 0
  | entry {i j : Nat} {n : N} (up : MayReach fs i) (listed : some (Kind.dir, j) ∈ fs.disk i n) :
      MayReach fs j

theorem leaves_dir {v : Slot} {i : Nat} (h : fs.Leaves (some (.dir i)) v) : v = some (.dir, i) := by
  match v, h with
  | some (.dir, j), h => cases h; rfl
  | some (.file, j), ⟨d, hd, _⟩ => cases hd

theorem leaves_file {v : Slot} {i : Nat} {d : Bytes} (h : fs.Leaves (some (.file i d)) v) :
    v = some (.file, i) ∧ ∀ bytes, fs.synced i = some bytes → d = bytes := by
  match v, h with
  | some (.dir, j), h => cases h
  | some (.file, j), ⟨c, hc, same⟩ =>
      cases hc
      exact ⟨rfl, same⟩

theorem PowerLoss.mayReach (h : PowerLoss fs t) : ∀ {p : Path N} {i : Nat},
    t.find p = some (.dir i) → fs.MayReach i
  | [], i, hp => by
      cases hp
      exact .root
  | n :: p, i, hp => by
      obtain ⟨k, hk⟩ := FileTree.isDir_of_find (by rw [hp]; exact Option.some_ne_none _)
      obtain ⟨v, listed, left⟩ := h p k hk n
      rw [hp] at left
      rw [leaves_dir left] at listed
      exact .entry (h.mayReach hk) listed

/-- Whatever the tree shows may be there. -/
theorem Wf.mem_disk (w : fs.Wf) {p : Path N} {i : Nat}
    (hp : fs.tree.find p = some (.dir i)) (n : N) :
    fs.slotAt (n :: p) ∈ fs.disk i n := List.mem_of_mem_head? (w.current p i n hp)

theorem Wf.mayReach (w : fs.Wf) : ∀ {p : Path N} {i : Nat},
    fs.tree.find p = some (.dir i) → fs.MayReach i
  | [], i, hp => by
      cases hp
      exact .root
  | n :: p, i, hp => by
      obtain ⟨k, hk⟩ := FileTree.isDir_of_find (by rw [hp]; exact Option.some_ne_none _)
      have listed := w.mem_disk hk n
      rw [slotAt_of_isDir hp] at listed
      exact .entry (w.mayReach hk) listed

theorem Wf.nextIno_pos (w : fs.Wf) : 0 < fs.nextIno := w.bound [] _ rfl

/-- The entry is that of a file. -/
def IsFile (v : Slot) : Prop := ∃ j, v = some (.file, j)

end Fs

/-- The names of the two files, the staging directory, and what the marker may say. -/
structure Pairing (N : Type) where
  marker : N
  payload : N
  stage : Path N
  ok : Bytes → Prop
  marker_ne : marker ≠ payload

namespace Pairing

variable {N : Type} [DecidableEq N]

/-- No power loss leaves a marker without its payload. Directories in `X` are let off. -/
structure Holds (P : Pairing N) (X : Set Nat) (fs : Fs N) : Prop where
  wf : fs.Wf
  current : fs.SyncedCurrent
  bound : ∀ i n k j, fs.MayReach i → some (k, j) ∈ fs.disk i n → j < fs.nextIno
  /-- A directory has one entry. -/
  home : ∀ i n i' n' j, fs.MayReach i → fs.MayReach i' → some (Kind.dir, j) ∈ fs.disk i n →
    some (Kind.dir, j) ∈ fs.disk i' n' → i = i' ∧ n = n'
  payload : ∀ i j, fs.MayReach i → i ∉ X → some (Kind.file, j) ∈ fs.disk i P.marker →
    ∀ v ∈ fs.disk i P.payload, Fs.IsFile v
  marker : ∀ i k j, fs.MayReach i → some (k, j) ∈ fs.disk i P.marker →
    k = .file ∧ ∃ bytes, fs.synced j = some bytes ∧ P.ok bytes
  staged : ∀ n j bytes, fs.tree.find (n :: P.stage) = some (.file j bytes) →
    ∀ i, fs.MayReach i → some (Kind.file, j) ∉ fs.disk i P.marker

variable {P : Pairing N} {X X' : Set Nat} {fs fs' : Fs N}

theorem Holds.mono (h : P.Holds X fs) (hX : X ⊆ X') : P.Holds X' fs :=
  { h with payload := fun i j hi hx => h.payload i j hi fun hi' => hx (hX hi') }

/-- **What is found after a power loss**: a marker whose bytes are whole, with its payload. -/
theorem Holds.powerLoss (h : P.Holds ∅ fs) {t : FileTree N} (ht : fs.PowerLoss t) {p : Path N}
    {d : Bytes} (hm : t.fileAt (P.marker :: p) = some d) :
    P.ok d ∧ t.fileAt (P.payload :: p) ≠ none := by
  obtain ⟨j, hj⟩ := FileTree.fileAt_eq_some.mp hm
  obtain ⟨i, hi⟩ := FileTree.isDir_of_find (by rw [hj]; exact Option.some_ne_none _)
  have reach := ht.mayReach hi
  obtain ⟨v, listed, left⟩ := ht p i hi P.marker
  rw [hj] at left
  obtain ⟨rfl, same⟩ := Fs.leaves_file left
  obtain ⟨-, bytes, synced, ok⟩ := h.marker i _ j reach listed
  obtain ⟨v, there, left⟩ := ht p i hi P.payload
  obtain ⟨a, rfl⟩ := h.payload i j reach (Set.notMem_empty i) listed v there
  obtain ⟨c, hc, -⟩ := left
  rw [FileTree.fileAt_eq_some.mpr ⟨a, hc⟩, same bytes synced]
  exact ⟨ok, Option.some_ne_none _⟩

/-- The marker that the tree shows. -/
theorem Holds.ok_of_fileAt (h : P.Holds X fs) {p : Path N} {d : Bytes}
    (hm : fs.tree.fileAt (P.marker :: p) = some d) : P.ok d := by
  obtain ⟨j, hj⟩ := FileTree.fileAt_eq_some.mp hm
  obtain ⟨i, hi⟩ := FileTree.isDir_of_find (by rw [hj]; exact Option.some_ne_none _)
  have listed := h.wf.mem_disk hi P.marker
  rw [Fs.slotAt_of_find hj] at listed
  obtain ⟨-, bytes, synced, ok⟩ := h.marker i _ j (h.wf.mayReach hi) listed
  rwa [h.current _ j d bytes hj synced]

/-- With everything on disk, only the tree counts. -/
theorem holds_of_settled (hw : fs.Wf) (hs : ∀ p, fs.Settled p) (hy : ∀ p, fs.Synced p)
    (hm : ∀ p, ¬ fs.tree.IsDir (P.marker :: p))
    (hstage : fs.tree.fileAt (P.marker :: P.stage) = none)
    (hok : ∀ p d, fs.tree.fileAt (P.marker :: p) = some d →
      P.ok d ∧ fs.tree.fileAt (P.payload :: p) ≠ none) : P.Holds ∅ fs := by
  have shown : ∀ {p i}, fs.tree.find p = some (.dir i) → ∀ n v, v ∈ fs.disk i n →
      v = fs.slotAt (n :: p) := by
    intro p i hp n v hv
    obtain ⟨k, hk, only⟩ := Fs.entryDurable_of_settled hw ⟨i, hp⟩ (hs p) n
    rw [hp] at hk
    cases hk
    exact only v hv
  have node : ∀ {p : Path N} {k : Kind} {j : Nat}, some (k, j) = fs.slotAt p →
      ∃ x, fs.tree.find p = some x ∧ x.kind = k ∧ x.ino = j := by
    intro p k j hp
    cases hx : fs.tree.find p with
    | none =>
        rw [Fs.slotAt_of_none hx] at hp
        cases hp
    | some x =>
        rw [Fs.slotAt_of_find hx] at hp
        cases hp
        exact ⟨x, rfl, rfl, rfl⟩
  have reach : ∀ i, fs.MayReach i → ∃ p, fs.tree.find p = some (.dir i) := by
    intro i hi
    induction hi with
    | root => exact ⟨[], rfl⟩
    | @entry i j n up listed ih =>
        obtain ⟨p, hp⟩ := ih
        obtain ⟨x, hx, hk, rfl⟩ := node (shown hp n _ listed)
        obtain ⟨a, rfl⟩ := Node.kind_eq_dir.mp hk
        exact ⟨n :: p, hx⟩
  refine ⟨hw, fun p i d bytes hp hb => ?_, ?_, ?_, ?_, ?_, ?_⟩
  · rw [hy p i d hp] at hb
    exact Option.some.inj hb
  · intro i n k j hi hj
    obtain ⟨p, hp⟩ := reach i hi
    obtain ⟨x, hx, -, rfl⟩ := node (shown hp n _ hj)
    exact hw.bound _ x hx
  · intro i n i' n' j hi hi' hj hj'
    obtain ⟨p, hp⟩ := reach i hi
    obtain ⟨p', hp'⟩ := reach i' hi'
    obtain ⟨x, hx, -, hxj⟩ := node (shown hp n _ hj)
    obtain ⟨x', hx', -, hxj'⟩ := node (shown hp' n' _ hj')
    obtain ⟨rfl, rfl⟩ := List.cons_eq_cons.mp (hw.inj _ _ x x' hx hx' (hxj.trans hxj'.symm))
    rw [hp] at hp'
    cases hp'
    exact ⟨rfl, rfl⟩
  · intro i j hi _ hj v hv
    obtain ⟨p, hp⟩ := reach i hi
    obtain ⟨x, hx, hk, rfl⟩ := node (shown hp _ _ hj)
    cases x with
    | dir a => cases hk
    | file a d =>
        obtain ⟨c, hc⟩ := Option.ne_none_iff_exists'.mp
          (hok p d (FileTree.fileAt_eq_some.mpr ⟨a, hx⟩)).2
        obtain ⟨b, hb⟩ := FileTree.fileAt_eq_some.mp hc
        rw [shown hp _ v hv, Fs.slotAt_of_find hb]
        exact ⟨b, rfl⟩
  · intro i k j hi hj
    obtain ⟨p, hp⟩ := reach i hi
    obtain ⟨x, hx, rfl, rfl⟩ := node (shown hp _ _ hj)
    cases x with
    | dir a => exact absurd ⟨a, hx⟩ (hm p)
    | file a d => exact ⟨rfl, d, hy _ a d hx, (hok p d (FileTree.fileAt_eq_some.mpr ⟨a, hx⟩)).1⟩
  · intro n j bytes hn i hi hj
    obtain ⟨p, hp⟩ := reach i hi
    obtain ⟨x, hx, -, hxj⟩ := node (shown hp _ _ hj)
    obtain ⟨name, -⟩ := List.cons_eq_cons.mp (hw.inj _ _ x _ hx hn hxj)
    subst name
    rw [FileTree.fileAt_eq_some.mpr ⟨j, hn⟩] at hstage
    cases hstage

/-! ## What a call may add -/

/-- A call adds no other values to the entries than those in `New`, and these are harmless. -/
structure Grows (P : Pairing N) (X : Set Nat) (New : Nat → N → Slot → Prop) (fs fs' : Fs N) :
    Prop where
  wf : fs'.Wf
  current : fs'.SyncedCurrent
  nextIno : fs.nextIno ≤ fs'.nextIno
  lists : ∀ i n v, i < fs.nextIno → v ∈ fs'.disk i n → v ∈ fs.disk i n ∨ New i n v
  bound : ∀ i n k j, New i n (some (k, j)) → j < fs'.nextIno
  /-- A directory that is added is a new one, added once and empty. -/
  dir : ∀ i n j, New i n (some (.dir, j)) → j = fs.nextIno ∧
    (∀ i' n', New i' n' (some (.dir, j)) → i = i' ∧ n = n') ∧ ∀ m v, v ∈ fs'.disk j m → v = none
  payload : ∀ i v, i ∉ X → New i P.payload v → Fs.IsFile v
  marker : ∀ i k j, fs.MayReach i → New i P.marker (some (k, j)) →
    k = .file ∧ (∃ bytes, fs'.synced j = some bytes ∧ P.ok bytes) ∧
      (i ∉ X → ∀ v ∈ fs'.disk i P.payload, Fs.IsFile v) ∧
      ∀ n bytes, fs'.tree.find (n :: P.stage) ≠ some (.file j bytes)
  synced : ∀ i j, fs.MayReach i → some (Kind.file, j) ∈ fs.disk i P.marker →
    fs'.synced j = fs.synced j
  staged : ∀ n j bytes, fs'.tree.find (n :: P.stage) = some (.file j bytes) →
    fs.nextIno ≤ j ∨ ∃ n' bytes', fs.tree.find (n' :: P.stage) = some (.file j bytes')

section Grow

variable {New : Nat → N → Slot → Prop}

/-- What may be reached now may have been before, or is a new directory with nothing in it. -/
theorem Grows.reach (g : Grows P X' New fs fs') (h : P.Holds X fs) {i : Nat} (hi : fs'.MayReach i) :
    fs.MayReach i ∧ i < fs.nextIno ∨ ∀ n v, v ∈ fs'.disk i n → v = none := by
  induction hi with
  | root => exact .inl ⟨.root, h.wf.nextIno_pos⟩
  | @entry i j n up listed ih =>
      rcases ih with ⟨hi, below⟩ | empty
      · rcases g.lists i n _ below listed with old | new
        · exact .inl ⟨.entry hi old, h.bound i n _ j hi old⟩
        · exact .inr (g.dir i n j new).2.2
      · cases empty n _ listed

theorem Grows.listed (g : Grows P X' New fs fs') (h : P.Holds X fs) {i : Nat} {n : N}
    {x : Kind × Nat} (hi : fs'.MayReach i) (hx : some x ∈ fs'.disk i n) :
    fs.MayReach i ∧ i < fs.nextIno ∧ (some x ∈ fs.disk i n ∨ New i n (some x)) := by
  rcases g.reach h hi with ⟨old, below⟩ | empty
  · exact ⟨old, below, g.lists i n _ below hx⟩
  · cases empty n _ hx

/-- **A call whose additions are harmless keeps the pairing.** -/
theorem Holds.grow (h : P.Holds X fs) (New : Nat → N → Slot → Prop) (hX : X ⊆ X')
    (g : Grows P X' New fs fs') : P.Holds X' fs' where
  wf := g.wf
  current := g.current
  bound := by
    intro i n k j hi hj
    obtain ⟨old, -, hj | hj⟩ := g.listed h hi hj
    · exact (h.bound i n k j old hj).trans_le g.nextIno
    · exact g.bound i n k j hj
  home := by
    intro i n i' n' j hi hi' hj hj'
    obtain ⟨old, -, hj | hj⟩ := g.listed h hi hj <;>
      obtain ⟨old', -, hj' | hj'⟩ := g.listed h hi' hj'
    · exact h.home i n i' n' j old old' hj hj'
    · exact absurd (g.dir i' n' j hj').1 (h.bound i n _ j old hj).ne
    · exact absurd (g.dir i n j hj).1 (h.bound i' n' _ j old' hj').ne
    · exact (g.dir i n j hj).2.1 i' n' hj'
  payload := by
    intro i j hi hX' hj v hv
    obtain ⟨old, below, hj | hj⟩ := g.listed h hi hj
    · rcases g.lists i _ v below hv with hv | hv
      · exact h.payload i j old (fun hx => hX' (hX hx)) hj v hv
      · exact g.payload i v hX' hv
    · exact (g.marker i _ j old hj).2.2.1 hX' v hv
  marker := by
    intro i k j hi hj
    obtain ⟨old, -, hj | hj⟩ := g.listed h hi hj
    · obtain ⟨rfl, bytes, hb, ok⟩ := h.marker i k j old hj
      exact ⟨rfl, bytes, (g.synced i j old hj).trans hb, ok⟩
    · exact ⟨(g.marker i k j old hj).1, (g.marker i k j old hj).2.1⟩
  staged := by
    intro n j bytes hn i hi hj
    obtain ⟨old, -, hj | hj⟩ := g.listed h hi hj
    · rcases g.staged n j bytes hn with fresh | ⟨n', bytes', hn'⟩
      · exact absurd (h.bound i _ _ j old hj) (Nat.not_lt.mpr fresh)
      · exact h.staged n' j bytes' hn' i old hj
    · exact (g.marker i _ j old hj).2.2.2 n bytes hn

end Grow

/-! ## The changes -/

section Changes

open Fs

/-- Nothing is added. -/
theorem Holds.of_lists (h : P.Holds X fs) (hc : Change fs fs') (hn : fs'.nextIno = fs.nextIno)
    (lists : ∀ i n v, v ∈ fs'.disk i n → v ∈ fs.disk i n)
    (synced : ∀ i j, fs.MayReach i → some (Kind.file, j) ∈ fs.disk i P.marker →
      fs'.synced j = fs.synced j)
    (staged : ∀ n j bytes, fs'.tree.find (n :: P.stage) = some (.file j bytes) →
      ∃ n' bytes', fs.tree.find (n' :: P.stage) = some (.file j bytes')) : P.Holds X fs' :=
  h.grow (fun _ _ _ => False) (Set.Subset.refl X)
    { wf := hc.wf h.wf
      current := hc.syncedCurrent h.wf h.current
      nextIno := hn.ge
      lists := fun i n v _ hv => .inl (lists i n v hv)
      bound := fun _ _ _ _ => False.elim
      dir := fun _ _ _ => False.elim
      payload := fun _ _ _ => False.elim
      marker := fun _ _ _ _ => False.elim
      synced := synced
      staged := fun n j bytes hn => .inr (staged n j bytes hn) }

theorem Holds.syncDir (h : P.Holds X fs) (i : Nat) : P.Holds X (fs.syncDir i) := by
  refine h.of_lists (.dirSynced i) rfl (fun j n v hv => ?_) (fun _ _ _ _ => rfl)
    fun n j bytes hn => ⟨n, bytes, hn⟩
  change v ∈ (if j = i then (fs.disk j n).take 1 else fs.disk j n) at hv
  split at hv
  · exact List.mem_of_mem_take hv
  · exact hv

/-- A staged file is none of the markers, so it may be written. -/
theorem Holds.rewritten (h : P.Holds X fs) {n : N} {j : Nat} {d d' : Bytes}
    (file : fs.tree.find (n :: P.stage) = some (.file j d))
    (after : Rewritten fs fs' (n :: P.stage) j d') : P.Holds X fs' := by
  refine h.of_lists (.rewritten file after) after.nextIno
    (fun i m v hv => by rwa [after.disk] at hv)
    (fun i k hi hk => ?_) fun m k bytes hm => ?_
  · rw [after.synced]
    refine if_neg ?_
    rintro rfl
    exact h.staged n k d file i hi hk
  · rw [after.find] at hm
    split at hm
    · cases hm
      exact ⟨n, d, file⟩
    · exact ⟨m, bytes, hm⟩

theorem Holds.fileSynced (h : P.Holds X fs) {n : N} {i : Nat} {d : Bytes}
    (file : fs.tree.find (n :: P.stage) = some (.file i d)) :
    P.Holds X { fs with synced := fun j => if j = i then some d else fs.synced j } := by
  refine h.of_lists (.fileSynced file) rfl (fun _ _ _ => id) (fun k j hk hj => if_neg ?_)
    fun m k bytes hm => ⟨m, bytes, hm⟩
  rintro rfl
  exact h.staged n j d file k hk hj

/-- An entry is taken away. That of a payload puts its directory at risk. -/
theorem Holds.unlinkAt (h : P.Holds X fs) {i : Nat} {n : N} {p : Path N} {hc}
    (dir : fs.tree.find p = some (.dir i)) (there : fs.tree.find (n :: p) ≠ none) (hX : X ⊆ X')
    (hn : n = P.payload → i ∈ X') : P.Holds X' (fs.unlinkAt i n p hc) :=
  h.grow (fun j m v => j = i ∧ m = n ∧ v = none) hX
    { wf := (Change.gone dir there).wf h.wf
      current := (Change.gone dir there).syncedCurrent h.wf h.current
      nextIno := le_refl _
      lists := by
        intro j m v _ hv
        change v ∈ (if j = i ∧ m = n then none :: fs.disk i n else fs.disk j m) at hv
        split at hv
        · rename_i here
          obtain ⟨rfl, rfl⟩ := here
          exact (List.mem_cons.mp hv).symm.imp_right fun hv => ⟨rfl, rfl, hv⟩
        · exact .inl hv
      bound := fun _ _ _ _ hj => nomatch hj.2.2
      dir := fun _ _ _ hj => nomatch hj.2.2
      payload := fun j v hj new => absurd (new.1 ▸ hn new.2.1.symm) hj
      marker := fun _ _ _ _ hj => nomatch hj.2.2
      synced := fun _ _ _ _ => rfl
      staged := by
        intro m j bytes hm
        rw [find_unlinkAt] at hm
        split at hm
        · cases hm
        · exact .inr ⟨m, bytes, hm⟩ }

/-- A new node under a name of no concern. -/
theorem Holds.made (h : P.Holds X fs) {i : Nat} {n : N} {p : Path N} {x : Node} {hp hx}
    (dir : fs.tree.find p = some (.dir i)) (free : fs.tree.find (n :: p) = none)
    (new : x = .dir fs.nextIno ∨ x = .file fs.nextIno []) (hm : n ≠ P.marker) (hd : n ≠ P.payload) :
    P.Holds X (fs.alloc.link i n p x hp hx) := by
  have ino : ∀ {k j}, some (k, j) = x.slot → j = fs.nextIno := by
    intro k j hj
    rcases new with rfl | rfl <;> cases hj <;> rfl
  have change : Change fs (fs.alloc.link i n p x hp hx) := .made dir free new
  refine h.grow (fun j m v => j = i ∧ m = n ∧ v = x.slot) (Set.Subset.refl X)
    { wf := change.wf h.wf
      current := change.syncedCurrent h.wf h.current
      nextIno := Nat.le_succ _
      lists := ?_
      bound := fun j m k a ha => ?_
      dir := fun j m a ha => ⟨ino ha.2.2, fun j' m' ha' => ⟨ha.1.trans ha'.1.symm,
        ha.2.1.trans ha'.2.1.symm⟩, fun m' v hv => ?_⟩
      payload := fun j v _ ha => absurd ha.2.1.symm hd
      marker := fun j k a _ ha => absurd ha.2.1.symm hm
      synced := fun j a hj ha => ?_
      staged := fun m j bytes hj => ?_ }
  · intro j m v below hv
    change v ∈ (if j = i ∧ m = n then x.slot :: fs.alloc.disk i n else fs.alloc.disk j m) at hv
    have old : fs.alloc.disk j m = fs.disk j m := if_neg below.ne
    split at hv
    · rename_i here
      obtain ⟨rfl, rfl⟩ := here
      rw [old] at hv
      exact (List.mem_cons.mp hv).symm.imp_right fun hv => ⟨rfl, rfl, hv⟩
    · exact .inl (old ▸ hv)
  · rw [ino ha.2.2]
    exact Nat.lt_succ_self _
  · obtain rfl := ino ha.2.2
    have apart : ¬ (fs.nextIno = i ∧ m' = n) := fun he => (h.wf.bound p _ dir).ne he.1.symm
    change v ∈ (if fs.nextIno = i ∧ m' = n then x.slot :: fs.alloc.disk i n
      else fs.alloc.disk fs.nextIno m') at hv
    rw [if_neg apart] at hv
    simpa [alloc] using hv
  · exact if_neg (h.bound j _ _ a hj ha).ne
  · rw [find_link] at hj
    split at hj
    · refine .inl (le_of_eq ?_)
      rcases new with rfl | rfl <;> cases hj
      rfl
    · exact .inr ⟨m, bytes, hj⟩

/-- A staged file is renamed. As a marker it must be whole, and its payload in place. -/
theorem Holds.moved (h : P.Holds X fs) {n m : N} {q : Path N} {i j a : Nat} {d : Bytes}
    (src : fs.tree.find P.stage = some (.dir i)) (dst : fs.tree.find q = some (.dir j))
    (file : fs.tree.find (n :: P.stage) = some (.file a d)) (free : ¬ fs.tree.IsDir (m :: q))
    (after : Moved fs fs' n P.stage i m q j a d) (hn : n ≠ P.payload)
    (hm : m = P.marker → q ≠ P.stage ∧ (∃ bytes, fs.synced a = some bytes ∧ P.ok bytes) ∧
      ∀ v ∈ fs.disk j P.payload, IsFile v) : P.Holds X fs' := by
  have change : Change fs fs' := .moved src dst file free after
  have find := after.find
  have lists : ∀ k l v, v ∈ fs'.disk k l → v ∈ fs.disk k l ∨
      (k = i ∧ l = n ∧ v = none ∨ k = j ∧ l = m ∧ v = some (.file, a)) := by
    intro k l v hv
    obtain ⟨hc, hp, hx, rfl⟩ := after
    change v ∈ (if k = j ∧ l = m then some (.file, a) :: fs.note i n none j m
      else fs.note i n none k l) at hv
    have gone : ∀ {k l v}, v ∈ fs.note i n none k l → v ∈ fs.disk k l ∨
        k = i ∧ l = n ∧ v = none := by
      intro k l v hv
      rw [note] at hv
      split at hv
      · rename_i here
        obtain ⟨rfl, rfl⟩ := here
        exact (List.mem_cons.mp hv).symm.imp_right fun hv => ⟨rfl, rfl, hv⟩
      · exact .inl hv
    split at hv
    · rename_i here
      obtain ⟨rfl, rfl⟩ := here
      rcases List.mem_cons.mp hv with hv | hv
      · exact .inr (.inr ⟨rfl, rfl, hv⟩)
      · exact (gone hv).imp_right .inl
    · exact (gone hv).imp_right .inl
  refine h.grow (fun k l v => k = i ∧ l = n ∧ v = none ∨ k = j ∧ l = m ∧ v = some (.file, a))
    (Set.Subset.refl X)
    { wf := change.wf h.wf
      current := change.syncedCurrent h.wf h.current
      nextIno := ?_
      lists := fun k l v _ => lists k l v
      bound := ?_
      dir := fun k l b hb => hb.elim (fun hb => by cases hb.2.2) fun hb => by cases hb.2.2
      payload := fun k v _ hv => hv.elim (fun hv => absurd hv.2.1.symm hn) fun hv => ⟨a, hv.2.2⟩
      marker := ?_
      synced := fun _ _ _ _ => by rw [after.synced]
      staged := ?_ }
  · obtain ⟨hc, hp, hx, rfl⟩ := after
    exact le_refl _
  · rintro k l kind b (hb | hb)
    · cases hb.2.2
    · cases hb.2.2
      have below := h.wf.bound _ _ file
      obtain ⟨hc, hp, hx, rfl⟩ := after
      exact below
  · rintro k kind b - (hb | hb)
    · cases hb.2.2
    · obtain ⟨rfl, rfl, hb⟩ := hb
      cases hb
      obtain ⟨hq, ⟨bytes, synced, ok⟩, full⟩ := hm rfl
      refine ⟨rfl, ⟨bytes, by rw [after.synced, synced], ok⟩, fun _ v hv =>
        ?_, fun l bytes hl => ?_⟩
      · rcases lists k _ v hv with hv | hv | hv
        · exact full v hv
        · exact absurd hv.2.1.symm hn
        · exact ⟨a, hv.2.2⟩
      · -- the file has gone from the staging directory
        have there : fs'.tree.find (P.marker :: q) = some (.file a d) := by rw [find, if_pos rfl]
        have := (change.wf h.wf).inj _ _ _ _ hl there rfl
        exact hq (List.cons.inj this).2.symm
  · intro l b bytes hl
    rw [find] at hl
    split at hl
    · cases hl
      exact .inr ⟨n, d, file⟩
    · split at hl
      · cases hl
      · exact .inr ⟨l, bytes, hl⟩

end Changes

/-! ## The calls -/

section Calls

open Fs

variable {L : Type} {env : Env N} {w : World N}

/-- A call that disturbs no pairing, whatever the state. -/
def Tame (P : Pairing N) : Sys N L → Prop
  | .mkdir p | .createNew p => ∀ n q, p = n :: q → n ≠ P.marker ∧ n ≠ P.payload
  | .rmdir p | .unlink p => ∀ q, p ≠ P.payload :: q
  | .rename src dst => ∃ n, src = n :: P.stage ∧ n ≠ P.payload ∧ ∀ q, dst ≠ P.marker :: q
  | .append p _ | .syncFile p => ∃ n, p = n :: P.stage
  | _ => True

theorem Holds.unlink (h : P.Holds X fs) (fits : N → Bool) {p : Path N} (hX : X ⊆ X')
    (hp : ∀ q i, p = P.payload :: q → fs.tree.find q = some (.dir i) → i ∈ X') :
    P.Holds X' (fs.unlink fits p).2 := by
  rcases unlink_cases fits fs p with ⟨n, q, i, a, d, hc, rfl, dir, file, he⟩ | ⟨e, he⟩
  · rw [he]
    exact h.unlinkAt dir (by rw [file]; exact Option.some_ne_none _) hX
      fun hn => hp q i (by rw [hn]) dir
  · rw [he]
    exact h.mono hX

theorem Holds.rename (h : P.Holds X fs) (fits : N → Bool) {n : N} {dst : Path N}
    (hn : n ≠ P.payload) (hm : ∀ q, dst = P.marker :: q → q ≠ P.stage ∧
      (∃ a d, fs.tree.find (n :: P.stage) = some (.file a d) ∧ fs.synced a = some d ∧ P.ok d) ∧
      ∃ j, fs.tree.find q = some (.dir j) ∧ ∀ v ∈ fs.disk j P.payload, IsFile v) :
    P.Holds X (fs.rename fits (n :: P.stage) dst).2 := by
  rcases rename_cases fits fs (n :: P.stage) dst with
    ⟨n', p, i, m, q, j, a, d, fs', hsrc, rfl, -, free, dir, dir', file, after, he⟩ | ⟨e, he⟩
  · obtain ⟨rfl, rfl⟩ := List.cons_eq_cons.mp hsrc
    rw [he]
    refine h.moved dir dir' file free after hn ?_
    rintro rfl
    obtain ⟨hq, ⟨a', d', file', synced, ok⟩, j', dir'', full⟩ := hm q rfl
    rw [file] at file'
    cases file'
    rw [dir'] at dir''
    cases dir''
    exact ⟨hq, ⟨d, synced, ok⟩, full⟩
  · rw [he]
    exact h

/-- **A tame call keeps the pairing.** -/
theorem Holds.exec (h : P.Holds X w.fs) {o : Sys N L} (ho : P.Tame o) :
    P.Holds X (w.exec env o).2.fs := by
  cases o with
  | mkdir p =>
      change P.Holds X (w.fs.mkdir env.fits p).2
      rcases mkdir_cases env.fits w.fs p with ⟨n, r, i, hp, hx, rfl, -, dir, free, he⟩ | ⟨e, he⟩
      · rw [he]
        exact h.made dir free (.inl rfl) (ho n r rfl).1 (ho n r rfl).2
      · rw [he]
        exact h
  | createNew p =>
      change P.Holds X (w.fs.createNew env.fits p).2
      rcases createNew_cases env.fits w.fs p with ⟨n, r, i, hp, hx, rfl, -, dir, free, he⟩ | ⟨e, he⟩
      · rw [he]
        exact h.made dir free (.inr rfl) (ho n r rfl).1 (ho n r rfl).2
      · rw [he]
        exact h
  | rmdir p =>
      change P.Holds X (w.fs.rmdir env.fits p).2
      rcases rmdir_cases env.fits w.fs p with ⟨n, r, i, j, hc, rfl, dir, there, he⟩ | ⟨e, he⟩
      · rw [he]
        refine h.unlinkAt dir (by rw [there]; exact Option.some_ne_none _) (Set.Subset.refl X) ?_
        rintro rfl
        exact absurd rfl (ho r)
      · rw [he]
        exact h
  | unlink p => exact h.unlink env.fits (Set.Subset.refl X) fun q i hq => absurd hq (ho q)
  | rename src dst =>
      obtain ⟨n, rfl, hn, hm⟩ := ho
      exact h.rename env.fits hn fun q hq => absurd hq (hm q)
  | append p bs =>
      obtain ⟨n, rfl⟩ := ho
      change P.Holds X (w.fs.append env.fits bs _).2
      rcases append_cases env.fits w.fs bs (n :: P.stage) with
        ⟨j, d, fs', file, after, he⟩ | ⟨e, he⟩
      · rw [he]
        exact h.rewritten file after
      · rw [he]
        exact h
  | syncFile p =>
      obtain ⟨n, rfl⟩ := ho
      change P.Holds X (w.fs.syncFile env.fits _).2
      rcases syncFile_cases env.fits w.fs (n :: P.stage) with ⟨i, d, file, he⟩ | ⟨e, he⟩
      · rw [he]
        exact h.fileSynced file
      · rw [he]
        exact h
  | syncDir i => exact h.syncDir i
  | _ => exact h

/-! ## Getting ready to place a marker -/

/-- The payload of the directory is there, and cannot be lost. -/
def Full (P : Pairing N) (q : Path N) (fs : Fs N) : Prop :=
  ∃ i, fs.tree.find q = some (.dir i) ∧ ∀ v ∈ fs.disk i P.payload, IsFile v

/-- The file is whole, on disk, and fit to be a marker. -/
def Whole (P : Pairing N) (p : Path N) (fs : Fs N) : Prop :=
  ∃ a d, fs.tree.find p = some (.file a d) ∧ fs.synced a = some d ∧ P.ok d

/-- A call that takes nothing away, and makes no payload. -/
def Quiet (P : Pairing N) : Sys N L → Prop
  | .mkdir p | .createNew p => ∀ n q, p = n :: q → n ≠ P.marker ∧ n ≠ P.payload
  | .rmdir _ | .unlink _ | .rename _ _ | .append _ _ | .syncFile _ => False
  | _ => True

omit [DecidableEq N] in
theorem Quiet.tame {o : Sys N L} (h : P.Quiet o) : P.Tame o := by
  cases o <;> first | exact h | exact h.elim

/-- A quiet call leaves the nodes of the tree where they are. -/
theorem quiet_exec (env : Env N) (hw : w.fs.Wf) {o : Sys N L} (ho : P.Quiet o) :
    (∀ q x, w.fs.tree.find q = some x → (w.exec env o).2.fs.tree.find q = some x) ∧
    (∀ q i, w.fs.tree.find q = some (.dir i) → ∀ v ∈ (w.exec env o).2.fs.disk i P.payload,
      v ∈ w.fs.disk i P.payload) ∧
    ∀ q i d, w.fs.tree.find q = some (.file i d) →
      (w.exec env o).2.fs.synced i = w.fs.synced i := by
  have made : ∀ {n : N} {r : Path N} {i : Nat} {x : Node} {hp hx},
      w.fs.tree.find (n :: r) = none → n ≠ P.payload →
      (∀ q y, w.fs.tree.find q = some y →
        (w.fs.alloc.link i n r x hp hx).tree.find q = some y) ∧
      (∀ q j, w.fs.tree.find q = some (.dir j) →
        ∀ v ∈ (w.fs.alloc.link i n r x hp hx).disk j P.payload, v ∈ w.fs.disk j P.payload) ∧
      ∀ q j d, w.fs.tree.find q = some (.file j d) →
        (w.fs.alloc.link i n r x hp hx).synced j = w.fs.synced j := by
    intro n r i x hp hx free hn
    refine ⟨fun q y hq => ?_, fun q j hj v hv => ?_, fun q j d hj => if_neg (hw.bound q _ hj).ne⟩
    · rw [find_link, if_neg, tree_alloc, hq]
      rintro rfl
      rw [free] at hq
      cases hq
    · have old : w.fs.alloc.disk j P.payload = w.fs.disk j P.payload := if_neg (hw.bound q _ hj).ne
      rwa [disk_link, note, if_neg fun here => hn here.2.symm, old] at hv
  cases o with
  | mkdir p =>
      change (∀ q x, _ → (w.fs.mkdir env.fits p).2.tree.find q = some x) ∧
        (∀ q i, _ → ∀ v ∈ (w.fs.mkdir env.fits p).2.disk i _, _) ∧
        ∀ q i d, _ → (w.fs.mkdir env.fits p).2.synced i = _
      rcases mkdir_cases env.fits w.fs p with ⟨n, r, i, hp, hx, rfl, -, dir, free, he⟩ | ⟨e, he⟩
      · rw [he]
        exact made free (ho n r rfl).2
      · rw [he]
        exact ⟨fun _ _ => id, fun _ _ _ _ => id, fun _ _ _ _ => rfl⟩
  | createNew p =>
      change (∀ q x, _ → (w.fs.createNew env.fits p).2.tree.find q = some x) ∧
        (∀ q i, _ → ∀ v ∈ (w.fs.createNew env.fits p).2.disk i _, _) ∧
        ∀ q i d, _ → (w.fs.createNew env.fits p).2.synced i = _
      rcases createNew_cases env.fits w.fs p with ⟨n, r, i, hp, hx, rfl, -, dir, free, he⟩ | ⟨e, he⟩
      · rw [he]
        exact made free (ho n r rfl).2
      · rw [he]
        exact ⟨fun _ _ => id, fun _ _ _ _ => id, fun _ _ _ _ => rfl⟩
  | syncDir j =>
      refine ⟨fun _ _ => id, fun q i _ v hv => ?_, fun _ _ _ _ => rfl⟩
      change v ∈ (if i = j then (w.fs.disk i P.payload).take 1 else w.fs.disk i P.payload) at hv
      split at hv
      · exact List.mem_of_mem_take hv
      · exact hv
  | rmdir p | unlink p | rename p q | append p bs | syncFile p => exact ho.elim
  | _ => exact ⟨fun _ _ => id, fun _ _ _ _ => id, fun _ _ _ _ => rfl⟩

theorem Full.exec (hw : w.fs.Wf) {o : Sys N L} (ho : P.Quiet o) {q : Path N}
    (h : P.Full q w.fs) : P.Full q (w.exec env o).2.fs := by
  obtain ⟨find, lists, -⟩ := quiet_exec env hw ho
  obtain ⟨i, hi, full⟩ := h
  exact ⟨i, find q _ hi, fun v hv => full v (lists q i hi v hv)⟩

theorem Whole.exec (hw : w.fs.Wf) {o : Sys N L} (ho : P.Quiet o) {p : Path N}
    (h : P.Whole p w.fs) : P.Whole p (w.exec env o).2.fs := by
  obtain ⟨find, -, synced⟩ := quiet_exec env hw ho
  obtain ⟨a, d, ha, hd, ok⟩ := h
  exact ⟨a, d, find p _ ha, (synced p a d ha).trans hd, ok⟩

/-- Writing a file is no concern of the directories. -/
theorem Full.append {q : Path N} (h : P.Full q fs) (fits : N → Bool) (bs : Bytes) (p : Path N) :
    P.Full q (fs.append fits bs p).2 := by
  rcases append_cases fits fs bs p with ⟨j, d, fs', file, after, he⟩ | ⟨e, he⟩
  · rw [he]
    obtain ⟨i, hi, full⟩ := h
    refine ⟨i, ?_, fun v hv => full v (by rwa [after.disk] at hv)⟩
    rw [after.find, if_neg, hi]
    rintro rfl
    rw [file] at hi
    cases hi
  · rw [he]
    exact h

theorem Full.syncFile {q : Path N} (h : P.Full q fs) (fits : N → Bool) (p : Path N) :
    P.Full q (fs.syncFile fits p).2 := by
  rcases syncFile_cases fits fs p with ⟨i, d, -, he⟩ | ⟨e, he⟩ <;> rw [he] <;> exact h

end Calls

/-! ## The risk is over -/

/-- Only entries were taken away. -/
structure Shrunk (fs fs' : Fs N) : Prop where
  find : ∀ p x, fs'.tree.find p = some x → fs.tree.find p = some x
  lists : ∀ i n v, v ∈ fs'.disk i n → v ∈ fs.disk i n ∨ v = none

namespace Shrunk

open Fs

theorem refl (fs : Fs N) : Shrunk fs fs := ⟨fun _ _ => id, fun _ _ _ => .inl⟩

theorem trans {fs'' : Fs N} (h : Shrunk fs fs') (h' : Shrunk fs' fs'') : Shrunk fs fs'' where
  find := fun p x hx => h.find p x (h'.find p x hx)
  lists := fun i n v hv => (h'.lists i n v hv).elim (h.lists i n v) .inr

theorem mayReach (h : Shrunk fs fs') {i : Nat} (hi : fs'.MayReach i) : fs.MayReach i := by
  induction hi with
  | root => exact .root
  | entry up listed ih =>
      exact .entry ih ((h.lists _ _ _ listed).resolve_right (Option.some_ne_none _))

theorem unlinkAt (i : Nat) (n : N) (p : Path N) (hc) : Shrunk fs (fs.unlinkAt i n p hc) where
  find := by
    intro q x hq
    rw [find_unlinkAt] at hq
    split at hq
    · cases hq
    · exact hq
  lists := by
    intro j m v hv
    rw [disk_unlinkAt, note] at hv
    split at hv
    · rename_i here
      rw [here.1, here.2]
      exact (List.mem_cons.mp hv).symm
    · exact .inl hv

theorem unlink (fits : N → Bool) (p : Path N) : Shrunk fs (fs.unlink fits p).2 := by
  rcases unlink_cases fits fs p with ⟨n, q, i, a, d, hc, -, -, -, he⟩ | ⟨e, he⟩ <;> rw [he]
  · exact unlinkAt i n q hc
  · exact refl fs

theorem rmdir (fits : N → Bool) (p : Path N) : Shrunk fs (fs.rmdir fits p).2 := by
  rcases rmdir_cases fits fs p with ⟨n, q, i, j, hc, -, -, -, he⟩ | ⟨e, he⟩ <;> rw [he]
  · exact unlinkAt i n q hc
  · exact refl fs

theorem syncDir (i : Nat) : Shrunk fs (fs.syncDir i) where
  find := fun _ _ => id
  lists := by
    intro j n v hv
    change v ∈ (if j = i then (fs.disk j n).take 1 else fs.disk j n) at hv
    split at hv
    · exact .inl (List.mem_of_mem_take hv)
    · exact .inl hv

/-- Below an entry that is gone for good, nothing can be reached any more. -/
theorem not_mayReach (h : Shrunk fs fs') (hp : P.Holds X fs) {m : N} {q : Path N} {i : Nat}
    (hq : fs'.tree.find q = some (.dir i)) (gone : ∀ v ∈ fs'.disk i m, v = none) :
    ∀ {x : Path N} {j : Nat}, m :: q <:+ x → fs.tree.find x = some (.dir j) → ¬ fs'.MayReach j
  | [], _, hs, _ => by cases List.suffix_nil.mp hs
  | n :: y, j, hs, hj => by
      intro reach
      obtain ⟨k, hk⟩ := FileTree.isDir_of_find (by rw [hj]; exact Option.some_ne_none _)
      have listed := hp.wf.mem_disk hk n
      rw [slotAt_of_isDir hj] at listed
      cases reach with
      | root =>
          have := hp.wf.inj (n :: y) [] _ _ hj rfl rfl
          cases this
      | @entry i' _ n' up there =>
          -- the directory is nowhere else
          have old := (h.lists i' n' _ there).resolve_right (Option.some_ne_none _)
          obtain ⟨rfl, rfl⟩ := hp.home i' n' k n j (h.mayReach up) (hp.wf.mayReach hk) old listed
          rcases List.suffix_cons_iff.mp hs with heq | hs
          · cases heq
            rw [h.find q _ hq] at hk
            cases hk
            cases gone _ there
          · exact not_mayReach h hp hq gone hs hk up

end Shrunk

/-- **When the directory at risk has lost its marker for good, or its own entry, the risk is
over.** -/
theorem Holds.close {dir q : Path N} {i i₀ : Nat} {m : N} (h : P.Holds {i₀} fs') (h₀ : P.Holds X fs)
    (sh : Shrunk fs fs') (hdir : fs.tree.find dir = some (.dir i₀))
    (hs : m :: q <:+ P.marker :: dir)
    (hq : fs'.tree.find q = some (.dir i)) (gone : ∀ v ∈ fs'.disk i m, v = none) :
    P.Holds ∅ fs' := by
  refine { h with payload := fun k j hk _ hj => ?_ }
  by_cases risk : k = i₀
  · subst risk
    rcases List.suffix_cons_iff.mp hs with heq | hs
    · cases heq
      have same := sh.find _ _ hq
      rw [hdir] at same
      cases same
      cases gone _ hj
    · exact absurd hk (sh.not_mayReach h₀ hq gone hs hdir)
  · exact h.payload k j hk risk hj

/-- After the `fsync` of a directory its entries are the ones the tree shows. -/
theorem slot_of_syncDir (hw : fs.Wf) {q : Path N} {i : Nat} {m : N}
    (hq : fs.tree.find q = some (.dir i)) :
    ∀ v ∈ (fs.syncDir i).disk i m, v = fs.slotAt (m :: q) := by
  intro v hv
  have first := hw.current q i m hq
  change v ∈ (if i = i then (fs.disk i m).take 1 else fs.disk i m) at hv
  rw [if_pos rfl] at hv
  cases hd : fs.disk i m with
  | nil => simp [hd] at first
  | cons x l =>
      rw [hd] at hv first
      rw [← Option.some.inj first]
      simpa using hv

theorem full_of_syncDir (hw : fs.Wf) {q : Path N} {i a : Nat} {d : Bytes}
    (hq : fs.tree.find q = some (.dir i))
    (file : fs.tree.find (P.payload :: q) = some (.file a d)) :
    P.Full q (fs.syncDir i) := by
  refine ⟨i, hq, fun v hv => ⟨a, ?_⟩⟩
  rw [slot_of_syncDir hw hq v hv, Fs.slotAt_of_find file]
  rfl

end Pairing

end Aks3.Lib
